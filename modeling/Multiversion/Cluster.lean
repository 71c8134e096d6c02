import Multiversion.Gc.Cycle

namespace Multiversion

inductive Fault where
  | departed
  | unresponsive
  | failing (reason : String)
  deriving DecidableEq, Repr

def Fault.reply : Fault → Reply
  | .departed => .departed
  | .unresponsive => .timedOut
  | .failing reason => .failed reason

structure Scripted where
  minimumVersion : Response := .acknowledged
  minimumView : Response := .acknowledged
  purge : Response := .acknowledged
  requests : List Request := []
  views : List Nat := []
  /-- Stops the collectors of the second member before it answers the first. -/
  trap : Option (Request × Address) := none
  deriving Repr

namespace Scripted

def answer (m : Scripted) : Request → Response
  | .minimumVersion => m.minimumVersion
  | .minimumView => m.minimumView
  | .purge _ => m.purge

end Scripted

inductive Member where
  | node (n : Node)
  | scripted (m : Scripted)
  deriving Repr

namespace Member

def install (v : View) : Member → Member
  | node n => node (n.install v)
  | scripted m => scripted { m with views := m.views ++ [v.id] }

def renew (tx : Transaction) : Member → Member
  | node n => node (n.renew tx)
  | m => m

def sleep (ms : Nat) : Member → Member
  | node n => node { n with workers := n.workers.map fun (k, w) => (k, w.sleep ms) }
  | m => m

end Member

structure Cluster where
  roster : List Address := []
  members : List (Address × Member) := []
  faults : List (Address × Fault) := []
  view : View := ⟨0, []⟩
  nextView : Nat := 1
  deriving Repr

namespace Cluster

def member? (c : Cluster) (a : Address) : Option Member := c.members.lookup a

def node? (c : Cluster) (a : Address) : Option Node :=
  match c.member? a with
  | some (.node n) => some n
  | _ => none

def edit (c : Cluster) (a : Address) (f : Member → Member) : Cluster :=
  { c with members := c.members.map fun (b, m) => (b, if b = a then f m else m) }

def editNode (c : Cluster) (a : Address) (f : Node → Node) : Cluster :=
  c.edit a fun
    | .node n => .node (f n)
    | m => m

def register (c : Cluster) (a : Address) : Cluster :=
  { c with roster := c.roster.filter (· ≠ a) ++ [a] }

def add (c : Cluster) (a : Address) (m : Member) : Cluster :=
  { c with members := c.members ++ [(a, m)] }.register a

def join (c : Cluster) (a : Address) (config : Config) : Cluster :=
  c.add a (.node (Node.create a config))

/-- The member is gone, but nobody has been told. Its collectors end with it. -/
def drop (c : Cluster) (a : Address) : Cluster × List Notice :=
  let notices := ((c.node? a).map fun n => n.stopCollectors.2).getD []
  ({ c with members := c.members.filter (·.1 ≠ a) }, notices)

def setFault (c : Cluster) (a : Address) (f : Fault) : Cluster :=
  { c with faults := (a, f) :: c.faults.filter (·.1 ≠ a) }

def clearFault (c : Cluster) (a : Address) : Cluster :=
  { c with faults := c.faults.filter (·.1 ≠ a) }

def install (c : Cluster) : Cluster × List Notice :=
  let v : View := ⟨c.nextView, c.roster⟩
  let members := c.members.map fun (a, m) => (a, if a ∈ c.roster then m.install v else m)
  ({ c with members, view := v, nextView := c.nextView + 1 },
    [.logged (Event.viewInstalled.info
      [("members", toString c.roster.length), ("view_id", toString v.id)])])

def leave (c : Cluster) (a : Address) : Cluster × List Notice :=
  { c with roster := c.roster.filter (· ≠ a) }.clearFault a |>.install

def coordinates (c : Cluster) (a : Address) : Bool := c.view.members.head? = some a

/-- A transaction has one stamp and one list of writes, and all that take part in it see the same.
    Only an entry that it has in a queue keeps a version of its own. -/
def share (c : Cluster) (tx : Transaction) : Cluster :=
  { c with members := c.members.map fun (a, m) => (a, m.renew tx) }

def stop (c : Cluster) (a : Address) : Cluster × List Notice :=
  match c.node? a with
  | some n =>
    let (n, notices) := n.stopCollectors
    (c.editNode a fun _ => n, notices)
  | none => (c, [])

def spring (c : Cluster) (m : Scripted) (r : Request) : Cluster × List Notice :=
  match m.trap with
  | some (on, target) => if on = r then c.stop target else (c, [])
  | none => (c, [])

def deliver (c : Cluster) (a : Address) (r : Request) : Cluster × Reply × List Notice :=
  match c.faults.lookup a with
  | some f => (c, f.reply, [])
  | none =>
    if a ∈ c.roster then
      match c.member? a with
      | some (.node n) =>
        let (n, response) := n.handle r
        (c.editNode a fun _ => n, .answered response, [])
      | some (.scripted m) =>
        let c := c.edit a fun _ => .scripted { m with requests := m.requests ++ [r] }
        let (c, notices) := c.spring m r
        (c, .answered (m.answer r), notices)
      | none => (c, .departed, [])
    else (c, .departed, [])

def deliverAll (c : Cluster) (r : Request) :
    List Address → Cluster × List (Address × Reply) × List Notice
  | [] => (c, [], [])
  | a :: rest =>
    let (c, reply, ns) := c.deliver a r
    let (c, replies, ms) := c.deliverAll r rest
    (c, (a, reply) :: replies, ns ++ ms)

def broadcast (c : Cluster) (sender : Address) (r : Request) :
    Cluster × List (Address × Reply) × List Notice :=
  c.deliverAll r (c.view.members.filter (· ≠ sender))

def transport (a : Address) : Transport Cluster where
  node c := (c.node? a).getD (Node.create a {})
  update c f := c.editNode a f
  coordinates c := c.coordinates a
  ask c r := c.broadcast a r

def versionGc (c : Cluster) (a : Address) (elapsedMs : Nat) :
    Cluster × Except GcError GcOutcome × List Notice :=
  Cycle.versions (transport a) elapsedMs c

def l1Gc (c : Cluster) (a : Address) (elapsedMs : Nat) :
    Cluster × Except GcError GcOutcome × List Notice :=
  Cycle.l1 (transport a) elapsedMs c

def viewGc (c : Cluster) (a : Address) (elapsedMs : Nat) :
    Cluster × Except GcError GcOutcome × List Notice :=
  Cycle.views (transport a) elapsedMs c

def gatherFloor (c : Cluster) (a : Address) : Cluster × Except GcError Version × List Notice :=
  Cycle.gatherFloor (transport a) c

/-- One cycle of a collector. View cycles that are not asked for only repeat failed ones. -/
def runCycle (c : Cluster) (a : Address) (k : Collector) (w : Wake) : Cluster × List Notice :=
  let keep (r : Cluster × Except GcError GcOutcome × List Notice) := (r.1, r.2.2)
  match k with
  | .version => keep (c.versionGc a 0)
  | .l1 => keep (c.l1Gc a 0)
  | .view =>
    if w = .triggered || ((c.node? a).map (·.retryView)).getD false then keep (c.viewGc a 0)
    else (c, [])

def finishCycle (c : Cluster) (a : Address) (k : Collector) (w : Worker) : Cluster × List Notice :=
  match (c.node? a).bind (·.worker? k) with
  | some _ => (c.editNode a fun n => n.editWorker k (·.finishCycle.advance n.stopped), [])
  | none => (c, [Node.stoppedNotice w])

def advance (c : Cluster) (a : Address) (k : Collector) : Cluster × List Notice :=
  let c := c.editNode a fun n => n.editWorker k (·.advance n.stopped)
  match (c.node? a).bind (·.worker? k) with
  | some w =>
    match w.cycle? with
    | some wake =>
      let (c, ran) := c.runCycle a k wake
      let (c, ended) := c.finishCycle a k w
      (c, ran ++ ended)
    | none => (c, [])
  | none => (c, [])

def advanceAll (c : Cluster) : List (Address × Collector) → Cluster × List Notice
  | [] => (c, [])
  | (a, k) :: rest =>
    let (c, ns) := c.advance a k
    let (c, ms) := c.advanceAll rest
    (c, ns ++ ms)

def collectors (c : Cluster) : List (Address × Collector) :=
  c.members.flatMap fun (a, _) => Collector.all.map (a, ·)

def settle (c : Cluster) : Cluster × List Notice := c.advanceAll c.collectors

def tick (c : Cluster) : Cluster × List Notice :=
  let members := c.members.map fun (a, m) => (a, m.sleep 1)
  { c with members }.settle

def pass (c : Cluster) (enough : Cluster → Bool) : Nat → Cluster × List Notice
  | 0 => (c, [])
  | ms + 1 =>
    if enough c then (c, [])
    else
      let (c, ns) := c.tick
      let (c, more) := c.pass enough ms
      (c, ns ++ more)

end Cluster

end Multiversion
