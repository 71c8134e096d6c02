import Multiversion.Text.Hex

/-!
An option's value is checked when the next option or the end shows that it is complete, so an
unknown argument behind a bad value is reported first.
-/

namespace Multiversion

structure SimulateArguments where
  nodes : Nat := 3
  transactions : Nat := 1000
  threads : Nat := 4
  seed : Nat := 42
  config : Option String := none
  deriving DecidableEq, Repr

inductive Command where
  | simulate (args : SimulateArguments)
  | config (path : Option String)
  deriving DecidableEq, Repr

inductive Refusal where
  | unknownArgument
  | invalidSubcommand
  | valueValidation
  | invalidValue
  | argumentConflict
  | tooManyValues
  | displayHelp
  | displayVersion
  | missingSubcommand
  deriving DecidableEq, Repr

def Refusal.name : Refusal → String
  | unknownArgument => "UnknownArgument"
  | invalidSubcommand => "InvalidSubcommand"
  | valueValidation => "ValueValidation"
  | invalidValue => "InvalidValue"
  | argumentConflict => "ArgumentConflict"
  | tooManyValues => "TooManyValues"
  | displayHelp => "DisplayHelp"
  | displayVersion => "DisplayVersion"
  | missingSubcommand => "DisplayHelpOnMissingArgumentOrSubcommand"

namespace Command

inductive Parameter where
  | nodes
  | transactions
  | threads
  | seed
  | config
  deriving DecidableEq, Repr

namespace Parameter

def flag : Parameter → String
  | nodes => "nodes"
  | transactions => "transactions"
  | threads => "threads"
  | seed => "seed"
  | config => "config"

end Parameter

inductive Setting where
  | number (n : Nat)
  | path (s : String)
  deriving DecidableEq, Repr

def number? (s : String) : Option Nat :=
  let digits := match s.toList with
    | '+' :: r => r
    | cs => cs
  if digits ≠ [] ∧ digits.all Char.isDigit then
    let n := digits.foldl (fun n c => 10 * n + (c.toNat - '0'.toNat)) 0
    if n < UInt64.size then some n else none
  else none

def Parameter.check (p : Parameter) (s : String) : Except Refusal Setting :=
  match p with
  | .config => if s = "" then .error .invalidValue else .ok (.path s)
  | _ =>
    match number? s with
    | some n => .ok (.number n)
    | none => .error .valueValidation

structure Progress where
  settings : List (Parameter × Setting) := []
  pending : Option (Parameter × Option String) := none
  deriving Repr

namespace Progress

def take (g : Progress) (p : Parameter) (s : String) : Except Refusal Progress := do
  if g.settings.any (·.1 = p) then .error .argumentConflict
  let x ← p.check s
  .ok { settings := g.settings ++ [(p, x)], pending := none }

def resolve (g : Progress) : Except Refusal Progress :=
  match g.pending with
  | none => .ok g
  | some (_, none) => .error .invalidValue
  | some (p, some s) => g.take p s

def number (g : Progress) (p : Parameter) (absent : Nat) : Nat :=
  match g.settings.lookup p with
  | some (.number n) => n
  | _ => absent

def path (g : Progress) : Option String :=
  match g.settings.lookup .config with
  | some (.path s) => some s
  | _ => none

end Progress

inductive Form where
  | separator
  | long (name : String) (value : Option String)
  | short (first : Char)
  | plain
  deriving Repr

def form (s : String) : Form :=
  match s.toList with
  | ['-', '-'] => .separator
  | '-' :: '-' :: r =>
    let name := String.ofList (r.takeWhile (· ≠ '='))
    match r.dropWhile (· ≠ '=') with
    | [] => .long name none
    | _ :: v => .long name (some (String.ofList v))
  | '-' :: c :: _ => .short c
  | _ => .plain

def readOptions (allowed : List Parameter) (g : Progress) : List String → Except Refusal Progress
  | [] => g.resolve
  | a :: rest =>
    match form a with
    | .separator => if rest = [] then g.resolve else .error .unknownArgument
    | .long name value =>
      match allowed.find? (·.flag = name), value with
      | some p, some s => do
        let g ← g.resolve
        let g ← g.take p s
        readOptions allowed g rest
      | some p, none => do
        let g ← g.resolve
        readOptions allowed { g with pending := some (p, none) } rest
      | none, some _ => .error (if name = "help" then .tooManyValues else .unknownArgument)
      | none, none =>
        if name = "help" then do
          let _ ← g.resolve
          .error .displayHelp
        else .error .unknownArgument
    | .short c =>
      if c = 'h' then do
        let _ ← g.resolve
        .error .displayHelp
      else .error .unknownArgument
    | .plain =>
      match g.pending with
      | some (p, none) => readOptions allowed { g with pending := some (p, some a) } rest
      | _ => .error .unknownArgument

def names : List String := ["simulate", "config", "help"]

def readSimulate (rest : List String) : Except Refusal Command := do
  let g ← readOptions [.nodes, .transactions, .threads, .seed, .config] {} rest
  let d : SimulateArguments := {}
  .ok (.simulate
    { nodes := g.number .nodes d.nodes
      transactions := g.number .transactions d.transactions
      threads := g.number .threads d.threads
      seed := g.number .seed d.seed
      config := g.path })

def readConfig (rest : List String) : Except Refusal Command := do
  let g ← readOptions [.config] {} rest
  .ok (.config g.path)

def readHelp : List String → Refusal
  | [] => .displayHelp
  | [name] => if name ∈ names then .displayHelp else .invalidSubcommand
  | _ => .invalidSubcommand

def read : List String → Except Refusal Command
  | [] => .error .missingSubcommand
  | "simulate" :: rest => readSimulate rest
  | "config" :: rest => readConfig rest
  | "help" :: rest => .error (readHelp rest)
  | a :: rest =>
    match form a, rest with
    | .separator, [] => .error .missingSubcommand
    | .separator, b :: _ => .error (if b ∈ names then .unknownArgument else .invalidSubcommand)
    | .long "help" none, _ => .error .displayHelp
    | .long "version" none, _ => .error .displayVersion
    | .long "help" (some _), _ => .error .tooManyValues
    | .long "version" (some _), _ => .error .tooManyValues
    | .long .., _ => .error .unknownArgument
    | .short 'h', _ => .error .displayHelp
    | .short 'V', _ => .error .displayVersion
    | .short _, _ => .error .unknownArgument
    | .plain, _ => .error .invalidSubcommand

end Command

end Multiversion
