import Mathlib
import Multiversion.Proofs.Queue.Drain
import Multiversion.Proofs.Sequencer.Calls
import Multiversion.Store

/-!
Several drains over one commit side. Any call, and any step of another drain, may fall between two
steps of a drain.
-/

namespace Multiversion

namespace Crew

inductive Drain where
  | idle
  | claiming (won todo : List Nat)
  | recording (done : List Delivery) (todo : List Nat)
  | applying (done todo : List Delivery)
  | marking (todo : List Nat)
  deriving DecidableEq, Repr

namespace Drain

def won : Drain → List Nat
  | idle => []
  | claiming won _ => won
  | recording done todo => done.map (·.entry) ++ todo
  | applying done todo => (done ++ todo).map (·.entry)
  | marking todo => todo

def listed : Drain → List Nat
  | claiming _ todo => todo
  | _ => []

def held (d : Drain) : List Nat := d.won ++ d.listed

theorem held_of_won {d : Drain} {n : Nat} (h : n ∈ d.won) : n ∈ d.held :=
  List.mem_append_left _ h

theorem held_of_claimed {won todo : List Nat} {m n : Nat} {b : Bool}
    (h : n ∈ (claiming (if b then won ++ [m] else won) todo).held) :
    n ∈ (claiming won (m :: todo)).held := by
  change n ∈ won ++ m :: todo
  change n ∈ (if b then won ++ [m] else won) ++ todo at h
  cases b with
  | true => simpa using h
  | false => exact ((List.sublist_cons_self m todo).append_left won).subset h

end Drain

end Crew

structure Crew where
  sequencer : Sequencer
  data : Store := {}
  -- commits whose first half is done
  raised : List Version := []
  drains : List Crew.Drain
  -- what the store and the log have taken over
  stored : List Delivery := []
  logged : List Delivery := []

namespace Crew

def queue (c : Crew) : Queue := c.sequencer.queue

def start (p : Position) (log : CommitLog) (tracking : Bool) (drains : Nat) : Crew where
  sequencer := .onLog p log tracking
  drains := .replicate drains .idle

def setQueue (c : Crew) (q : Queue) : Crew := { c with sequencer := c.sequencer.setQueue q }

def delivery (c : Crew) (n : Nat) : Delivery := ⟨n, c.sequencer.inFlight.record n⟩

def applyOne (c : Crew) (x : Delivery) : Crew :=
  { c with data := c.data.apply c.sequencer.position x.record, stored := c.stored ++ [x] }

def insertBatch (c : Crew) (xs : List Delivery) : Crew :=
  { c with
    sequencer := c.sequencer.insertAll (xs.map (·.record))
    logged := c.logged ++ xs }

def goOn (c : Crew) (before : List Drain) (d : Drain) (behind : List Drain) : Crew :=
  { c with drains := before ++ d :: behind }

inductive Step : Crew → Crew → Prop
  | prepare (c tx now) (ht : tx < c.sequencer.inFlight.transactions.all.size) :
      Step c { c with sequencer := (c.sequencer.prepare tx now).1 }
  | raise (c v) : Step c { c with sequencer := c.sequencer.raise v, raised := v :: c.raised }
  | settle (c g v now) (hv : v ∈ c.raised) :
      Step c
        { c with sequencer := (c.sequencer.settle g v now).1, raised := c.raised.erase v }
  | rollback (c g now) : Step c { c with sequencer := (c.sequencer.rollback g now).1 }
  -- begins, finishes and writes
  | transactions (c transactions live) :
      Step c
        { c with
          sequencer :=
            { c.sequencer with live, inFlight := { c.sequencer.inFlight with transactions } } }
  -- versions are folded into the log, and collections take from it and from the store
  | log (c log) (hl : log.history ⊆ c.sequencer.log.history) :
      Step c { c with sequencer := { c.sequencer with log } }
  | data (c data) (hd : ∀ key, Store.versions data key ⊆ c.data.versions key) :
      Step c { c with data }
  | list (c before behind) (hc : c.drains = before ++ .idle :: behind) :
      Step c (c.goOn before (.claiming [] c.sequencer.readyPrefix) behind)
  | claim (c before won n todo behind)
      (hc : c.drains = before ++ .claiming won (n :: todo) :: behind) :
      Step c ((c.setQueue (c.queue.claim n).1).goOn before
        (.claiming (if (c.queue.claim n).2 then won ++ [n] else won) todo) behind)
  | giveUp (c before behind) (hc : c.drains = before ++ .claiming [] [] :: behind) :
      Step c (c.goOn before .idle behind)
  | win (c before won behind) (hc : c.drains = before ++ .claiming won [] :: behind) :
      Step c (c.goOn before (.recording [] won) behind)
  | record (c before done n todo behind)
      (hc : c.drains = before ++ .recording done (n :: todo) :: behind) :
      Step c (c.goOn before (.recording (done ++ [c.delivery n]) todo) behind)
  | finish (c before done behind) (hc : c.drains = before ++ .recording done [] :: behind) :
      Step c (c.goOn before (.applying [] done) behind)
  | apply (c before done x todo behind)
      (hc : c.drains = before ++ .applying done (x :: todo) :: behind) :
      Step c ((c.applyOne x).goOn before (.applying (done ++ [x]) todo) behind)
  | insert (c before done behind) (hc : c.drains = before ++ .applying done [] :: behind) :
      Step c ((c.insertBatch done).goOn before (.marking (done.map (·.entry))) behind)
  | mark (c before n todo behind now) (hc : c.drains = before ++ .marking (n :: todo) :: behind) :
      Step c ((c.setQueue (c.queue.markCommitted n now)).goOn before (.marking todo) behind)
  | detach (c before behind now) (hc : c.drains = before ++ .marking [] :: behind) :
      Step c (({ c with sequencer := (c.sequencer.detach now).1 } : Crew).goOn before .idle behind)

abbrev Run := Relation.ReflTransGen Step

def Holds (c : Crew) (n : Nat) : Prop := ∃ d ∈ c.drains, n ∈ d.held

def Wins (c : Crew) (n : Nat) : Prop := ∃ d ∈ c.drains, n ∈ d.won

theorem Wins.holds {c : Crew} {n : Nat} (h : c.Wins n) : c.Holds n := by
  obtain ⟨d, hd, hn⟩ := h
  exact ⟨d, hd, Drain.held_of_won hn⟩

end Crew

end Multiversion
