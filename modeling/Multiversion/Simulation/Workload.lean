import Multiversion.Simulation.Dice
import Multiversion.Transaction

/-!
A final version takes in what a peer has seen, the way that of a remote participant would, and may
be raised above the tentative one.
-/

namespace Multiversion

structure Draft where
  write : Option Write
  rollsBack : Bool
  bump : Nat
  keeper : Nat
  deriving DecidableEq, Repr

/-- Members are named by numbers, which are taken modulo how many there are. -/
structure Batch where
  node : Nat
  peer : Nat
  first : Nat
  drafts : List Draft
  picks : List Nat
  deriving DecidableEq, Repr

/-- One call of a thread. The transactions of a thread are numbered as it begins them. -/
inductive Action where
  | begin
  | write (tx : Nat) (w : Write)
  | prepare (tx : Nat)
  | rollback (tx : Nat)
  | keepVersion (tx : Nat)
  | joinVersion (tx peer bump : Nat)
  | raise
  | settle (tx : Nat)
  | finish (tx : Nat)
  | apply (keeper : Nat)
  deriving DecidableEq, Repr

structure Call where
  node : Nat
  action : Action
  deriving DecidableEq, Repr

def shuffle {α : Type} : List Nat → List α → List α
  | [], items => items
  | k :: ks, items =>
    let i := k % items.length
    match items[i]? with
    | some x => x :: shuffle ks (items.eraseIdx i)
    | none => []

namespace Draft

def aborts (d : Draft) : Bool := d.write.isSome && d.rollsBack

def preparation (d : Draft) (tx : Nat) : List Action :=
  match d.write with
  | some w => [.begin, .write tx w, .prepare tx]
  | none => [.begin, .prepare tx]

def version (d : Draft) (tx peer : Nat) : Action :=
  if d.write.isSome then .joinVersion tx peer d.bump else .keepVersion tx

def decision (d : Draft) (tx peer : Nat) : List Action :=
  if d.aborts then [.rollback tx] else [d.version tx peer, .raise, .settle tx]

def delivery (d : Draft) (tx peer : Nat) : List Action :=
  d.decision tx peer ++ [.finish tx, .apply d.keeper]

def ofDice (ask : Question → Nat) : Draft where
  write :=
    if ask .writes % 10 < 9 then
      some ⟨s!"k{ask .key % 64}",
        some ((List.range 8).map fun i => UInt8.ofNat (ask .value >>> (8 * i)))⟩
    else none
  rollsBack := ask .rollback % 20 = 0
  bump := ask .bump % 2
  keeper := ask .keeper

end Draft

namespace Batch

def size : Nat := 4

def actions (b : Batch) : List Action :=
  let numbered := b.drafts.zipIdx b.first
  numbered.flatMap (fun (d, tx) => d.preparation tx) ++
    (shuffle b.picks numbered).flatMap fun (d, tx) => d.delivery tx b.peer

def calls (b : Batch) : List Call := b.actions.map (⟨b.node, ·⟩)

def ofDice (ask : Nat → Question → Nat) (share first : Nat) : Batch :=
  let members := (List.range (min size (share - first))).map (first + ·)
  { node := ask first .node
    peer := ask first .peer
    first
    drafts := members.map fun tx => Draft.ofDice (ask tx)
    picks := members.map fun tx => ask tx .pick }

end Batch

namespace Workload

def share (transactions threads thread : Nat) : Nat :=
  transactions / threads + if thread < transactions % threads then 1 else 0

def batches (dice : Dice) (thread share : Nat) : List Batch :=
  (List.range ((share + Batch.size - 1) / Batch.size)).map fun b =>
    Batch.ofDice (dice thread) share (Batch.size * b)

def ofDice (dice : Dice) (transactions threads : Nat) : List (List Call) :=
  (List.range threads).map fun t =>
    (batches dice t (share transactions threads t)).flatMap Batch.calls

end Workload

end Multiversion
