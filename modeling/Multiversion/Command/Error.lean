import Multiversion.Config
import Multiversion.Gc.Message

namespace Multiversion

inductive CommandError where
  | config (e : ConfigError)
  | simulation (e : GcError)
  | orderViolation (reason : String)
  deriving DecidableEq, Repr

namespace CommandError

def code : CommandError → String
  | config _ => "GMU_CLI_CONFIG_ERROR"
  | simulation _ => "GMU_CLI_SIMULATION_FAILED"
  | orderViolation _ => "GMU_CLI_ORDER_VIOLATION"

def reason : CommandError → String
  | config e => e.message
  | simulation e => e.message
  | orderViolation r => r

def message (e : CommandError) : String := s!"{e.code}: {e.reason}"

end CommandError

end Multiversion
