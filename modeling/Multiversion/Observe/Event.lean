import Multiversion.Observe.Line

namespace Multiversion

inductive Event where
  | nodeStarted
  | nodeStopped
  | configLoaded
  | prepareDuplicate
  | commitWithoutEntry
  | entryRepositioned
  | transactionRolledBack
  | transactionsCommitted
  | memberDeparted
  | workerStopped
  | viewInstalled
  deriving DecidableEq, Repr

namespace Event

def name : Event → String
  | nodeStarted => "GMU_NODE_STARTED"
  | nodeStopped => "GMU_NODE_STOPPED"
  | configLoaded => "CONFIG_LOADED"
  | prepareDuplicate => "GMU_PREPARE_DUPLICATE"
  | commitWithoutEntry => "GMU_COMMIT_WITHOUT_ENTRY"
  | entryRepositioned => "GMU_ENTRY_REPOSITIONED"
  | transactionRolledBack => "GMU_ROLLBACK"
  | transactionsCommitted => "GMU_TRANSACTIONS_COMMITTED"
  | memberDeparted => "GC_MEMBER_DEPARTED"
  | workerStopped => "GC_WORKER_STOPPED"
  | viewInstalled => "VIEW_INSTALLED"

def info (e : Event) (fields : List (String × String)) : Line := ⟨.info, e.name, fields⟩

def trace (e : Event) (fields : List (String × String)) : Line := ⟨.trace, e.name, fields⟩

def warn (e : Event) (fields : List (String × String)) : Line := ⟨.warn, e.name, fields⟩

end Event

end Multiversion
