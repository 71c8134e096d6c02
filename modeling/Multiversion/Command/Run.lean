import Multiversion.Command.Arguments
import Multiversion.Command.Error
import Multiversion.Config.Document
import Multiversion.Observe.Event
import Multiversion.Simulation

namespace Multiversion

namespace Command

structure Outcome where
  level : Severity
  out : String := ""
  err : String := ""
  failure : Option CommandError := none
  deriving DecidableEq, Repr

namespace Outcome

def log (o : Outcome) (ns : List Notice) : Outcome :=
  let (out, err) := written o.level (Notice.lines ns)
  { o with out := o.out ++ String.join out, err := o.err ++ String.join err }

def print (o : Outcome) (s : String) : Outcome := { o with out := o.out ++ s ++ "\n" }

def fail (o : Outcome) (e : CommandError) : Outcome := { o with failure := some e }

end Outcome

def configPath : Command → Option String
  | simulate a => a.config
  | config p => p

def loadConfig (path : Option String) (contents : Option ByteArray) :
    Except ConfigError (Config × Severity) :=
  match path with
  | some p => Config.ofFile p contents
  | none =>
    let c : Config := {}
    c.validate.map fun level => (c, level)

def loaded (path : Option String) : Notice :=
  .logged (Event.configLoaded.info [("source", path.getD "defaults")])

end Command

def SimulateArguments.options (a : SimulateArguments) (config : Config) : Simulation.Options where
  nodes := a.nodes
  transactions := a.transactions
  threads := a.threads
  seed := a.seed
  config := config

namespace Command

def violation (r : Report) : CommandError :=
  .orderViolation ("nodes out of order or not drained: " ++ ",".intercalate r.offenders)

/-- Runs a command under a logger of the given level, up to a simulation that it asks for. `contents`
    is what the file at the command's path holds, if it can be read. -/
def prepare (c : Command) (level : Severity) (contents : Option ByteArray) :
    Outcome × Option Simulation.Options :=
  match loadConfig c.configPath contents with
  | .error e => ({ level, failure := some (.config e) }, none)
  | .ok (effective, level) =>
    let o := ({ level } : Outcome).log [loaded c.configPath]
    match c with
    | .config _ => (o.print effective.render, none)
    | .simulate a => (o, some (a.options effective))

def conclude (o : Outcome) (elapsedMs : Nat) (result : Except GcError Report × List Notice) :
    Outcome :=
  let o := o.log result.2
  match result.1 with
  | .error e => o.fail (.simulation e)
  | .ok r =>
    let o := o.print { r with elapsedMs }.render
    if r.drainOrderOk then o else o.fail (violation r)

def run (c : Command) (level : Severity) (contents : Option ByteArray)
    (addresses : Nat → Address) : Outcome :=
  match c.prepare level contents with
  | (o, none) => o
  | (o, some options) => conclude o 0 (Simulation.run options (.ofSeed options addresses))

end Command

end Multiversion
