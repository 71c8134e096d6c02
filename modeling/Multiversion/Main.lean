import Multiversion.Command.Run

namespace Multiversion.Main

def usage : String :=
  "Commands:\n" ++
  "  simulate [--nodes N] [--transactions N] [--threads N] [--seed N] [--config PATH]\n" ++
  "  config [--config PATH]\n"

def version : String := "0.1.0\n"

def contentsOf (path : Option String) : IO (Option ByteArray) :=
  match path with
  | some p => do
    try
      return some (← IO.FS.readBinFile p)
    catch _ =>
      return none
  | none => return none

def refuse (r : Refusal) : IO UInt32 := do
  match r with
  | .displayHelp => IO.print usage; return 0
  | .displayVersion => IO.print version; return 0
  | .missingSubcommand => IO.eprint usage; return 2
  | r => IO.eprintln s!"error: {r.name}"; return 2

def close (o : Command.Outcome) : IO UInt32 := do
  IO.print o.out
  IO.eprint o.err
  match o.failure with
  | some e => IO.eprintln e.message; return 1
  | none => return 0

def simulate (o : Command.Outcome) (options : Simulation.Options) : IO UInt32 := do
  let salt ← IO.rand 0 0xffffffff
  let started ← IO.monoMsNow
  let result ← IO.lazyPure fun _ =>
    Simulation.run options (.ofSeed options (Dice.address salt))
  let ended ← IO.monoMsNow
  close (Command.conclude o (ended - started) result)

def execute (c : Command) : IO UInt32 := do
  match c.prepare .info (← contentsOf c.configPath) with
  | (o, none) => close o
  | (o, some options) => simulate o options

end Multiversion.Main

def main (args : List String) : IO UInt32 :=
  match Multiversion.Command.read args with
  | .ok c => Multiversion.Main.execute c
  | .error r => Multiversion.Main.refuse r
