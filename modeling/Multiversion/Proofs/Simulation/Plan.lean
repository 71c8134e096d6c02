import Mathlib
import Multiversion.Proofs.Lists
import Multiversion.Simulation.Workload

namespace Multiversion

inductive Stage where
  | opened (writes : Bool)
  | prepared (writes : Bool)
  | decided
  deriving DecidableEq, Repr

structure Standing where
  node : Nat
  stage : Stage
  deriving DecidableEq, Repr

structure Plan where
  standings : List Standing := []
  -- the transaction whose final version the thread has settled on, and whether a commit has begun
  hand : Option (Nat × Bool) := none
  committed : Nat := 0
  rolledBack : Nat := 0
  -- those of the committed ones that write
  written : Nat := 0
  deriving DecidableEq, Repr

namespace Plan

def put (P : Plan) (tx : Nat) (s : Standing) : Plan := { P with standings := P.standings.set tx s }

inductive Move : Plan → Call → Plan → Prop
  | begin (P node) (hf : P.hand = none) :
      Move P ⟨node, .begin⟩ { P with standings := P.standings ++ [⟨node, .opened false⟩] }
  | write (P tx node w b) (hf : P.hand = none)
      (h : P.standings[tx]? = some ⟨node, .opened b⟩) :
      Move P ⟨node, .write tx w⟩ (P.put tx ⟨node, .opened true⟩)
  | prepare (P tx node b) (hf : P.hand = none)
      (h : P.standings[tx]? = some ⟨node, .opened b⟩) :
      Move P ⟨node, .prepare tx⟩ (P.put tx ⟨node, .prepared b⟩)
  | rollback (P tx node) (hf : P.hand = none)
      (h : P.standings[tx]? = some ⟨node, .prepared true⟩) :
      Move P ⟨node, .rollback tx⟩
        { P.put tx ⟨node, .decided⟩ with rolledBack := P.rolledBack + 1 }
  | keep (P tx node) (hf : P.hand = none)
      (h : P.standings[tx]? = some ⟨node, .prepared false⟩) :
      Move P ⟨node, .keepVersion tx⟩ { P with hand := some (tx, false) }
  | join (P tx node peer bump) (hf : P.hand = none)
      (h : P.standings[tx]? = some ⟨node, .prepared true⟩) :
      Move P ⟨node, .joinVersion tx peer bump⟩ { P with hand := some (tx, false) }
  | raise (P tx node b) (hh : P.hand = some (tx, false))
      (h : P.standings[tx]? = some ⟨node, .prepared b⟩) :
      Move P ⟨node, .raise⟩ { P with hand := some (tx, true) }
  | settle (P tx node b) (hh : P.hand = some (tx, true))
      (h : P.standings[tx]? = some ⟨node, .prepared b⟩) :
      Move P ⟨node, .settle tx⟩
        { P.put tx ⟨node, .decided⟩ with
          hand := none
          committed := P.committed + 1
          written := P.written + b.toNat }
  | finish (P tx node) (hf : P.hand = none) : Move P ⟨node, .finish tx⟩ P
  | apply (P keeper node) (hf : P.hand = none) : Move P ⟨node, .apply keeper⟩ P

def Plays : Plan → List Call → Plan → Prop
  | P, [], Q => P = Q
  | P, call :: calls, Q => ∃ R, Move P call R ∧ Plays R calls Q

variable {P Q R : Plan} {calls more : List Call}

theorem Plays.append (h : Plays P calls Q) (h' : Plays Q more R) : Plays P (calls ++ more) R := by
  induction calls generalizing P with
  | nil =>
    obtain rfl : P = Q := h
    exact h'
  | cons call calls ih =>
    obtain ⟨S, hm, hp⟩ := h
    exact ⟨S, hm, ih hp⟩

theorem Plays.single {call : Call} (h : Move P call Q) : Plays P [call] Q := ⟨Q, h, rfl⟩

theorem Plays.cons {call : Call} (h : Move P call Q) (h' : Plays Q calls R) :
    Plays P (call :: calls) R := ⟨Q, h, h'⟩

@[simp] theorem length_put {tx : Nat} {s : Standing} :
    (P.put tx s).standings.length = P.standings.length := List.length_set ..

theorem getElem?_put {tx k : Nat} {s : Standing} (h : tx < P.standings.length) :
    (P.put tx s).standings[k]? = if k = tx then some s else P.standings[k]? := by
  rw [put, List.getElem?_set]
  by_cases hk : k = tx
  · subst hk
    simp [h]
  · simp [hk, Ne.symm hk]

def Closed (P : Plan) : Prop := P.hand = none ∧ ∀ s ∈ P.standings, s.stage = .decided

structure Follows (P Q : Plan) (drafts : List Draft) : Prop where
  hand : Q.hand = none
  committed : Q.committed = P.committed + drafts.countP fun d => !d.aborts
  rolledBack : Q.rolledBack = P.rolledBack + drafts.countP Draft.aborts
  written : Q.written = P.written + drafts.countP fun d => d.write.isSome && !d.rollsBack

theorem Follows.trans {ds es : List Draft} (h : P.Follows Q ds) (h' : Q.Follows R es) :
    P.Follows R (ds ++ es) := by
  refine ⟨h'.hand, ?_, ?_, ?_⟩
  · rw [h'.committed, h.committed, List.countP_append, Nat.add_assoc]
  · rw [h'.rolledBack, h.rolledBack, List.countP_append, Nat.add_assoc]
  · rw [h'.written, h.written, List.countP_append, Nat.add_assoc]

end Plan

section Shuffle

variable {α : Type} {ks : List Nat} {items : List α}

theorem shuffle_perm (h : ks.length = items.length) : (shuffle ks items).Perm items := by
  induction ks generalizing items with
  | nil =>
    obtain rfl : items = [] := List.eq_nil_of_length_eq_zero h.symm
    exact .nil
  | cons k ks ih =>
    rw [List.length_cons] at h
    have hlt : k % items.length < items.length := Nat.mod_lt _ (by omega)
    have htail : (shuffle ks (items.eraseIdx (k % items.length))).Perm
        (items.eraseIdx (k % items.length)) := by
      refine ih ?_
      rw [List.length_eraseIdx_of_lt hlt]
      omega
    simp only [shuffle, List.getElem?_eq_getElem hlt]
    exact (htail.cons _).trans (List.getElem_cons_eraseIdx_perm hlt)

end Shuffle

namespace Plan

variable {P : Plan} {node peer tx : Nat} {d : Draft} {ds : List Draft}

def onNode (node : Nat) (actions : List Action) : List Call := actions.map (⟨node, ·⟩)

theorem plays_preparation (hf : P.hand = none) (ht : tx = P.standings.length) :
    Plays P (onNode node (d.preparation tx))
      { P with standings := P.standings ++ [⟨node, .prepared d.write.isSome⟩] } := by
  subst ht
  have prepare (b : Bool) :
      Plays { P with standings := P.standings ++ [⟨node, .opened b⟩] }
        [⟨node, .prepare P.standings.length⟩]
        { P with standings := P.standings ++ [⟨node, .prepared b⟩] } := by
    have h := Move.prepare { P with standings := P.standings ++ [⟨node, .opened b⟩] }
      P.standings.length node b hf (by simp)
    simp only [put, List.set_append_right _ _ (Nat.le_refl _), Nat.sub_self,
      List.set_cons_zero] at h
    exact .single h
  cases hw : d.write with
  | none =>
    rw [Draft.preparation, hw]
    exact .cons (.begin P node hf) (prepare false)
  | some w =>
    have h := Move.write { P with standings := P.standings ++ [⟨node, .opened false⟩] }
      P.standings.length node w false hf (by simp)
    simp only [put, List.set_append_right _ _ (Nat.le_refl _), Nat.sub_self,
      List.set_cons_zero] at h
    rw [Draft.preparation, hw]
    exact .cons (.begin P node hf) (.cons h (prepare true))

def prepared (P : Plan) (node : Nat) (ds : List Draft) : Plan :=
  { P with standings := P.standings ++ ds.map fun d => ⟨node, .prepared d.write.isSome⟩ }

theorem plays_preparations (node : Nat) (ds : List Draft) (hf : P.hand = none) :
    Plays P (onNode node ((ds.zipIdx P.standings.length).flatMap fun (d, tx) => d.preparation tx))
      (P.prepared node ds) := by
  induction ds generalizing P with
  | nil => simp [onNode, Plays, prepared]
  | cons d ds ih =>
    have h := ih (P := { P with
      standings := P.standings ++ [⟨node, .prepared d.write.isSome⟩] }) hf
    rw [prepared, List.length_append, List.append_assoc] at h
    rw [List.zipIdx_cons, List.flatMap_cons, onNode, List.map_append]
    exact (plays_preparation hf rfl).append h

theorem length_prepared :
    (P.prepared node ds).standings.length = P.standings.length + ds.length := by
  rw [prepared, List.length_append, List.length_map]

theorem getElem?_prepared {e : Draft × Nat} (he : e ∈ ds.zipIdx P.standings.length) :
    (P.prepared node ds).standings[e.2]? = some ⟨node, .prepared e.1.write.isSome⟩ := by
  obtain ⟨hle, hget⟩ := List.mem_zipIdx_iff_le_and_getElem?_sub.mp he
  rw [prepared, List.getElem?_append_right hle, List.getElem?_map, hget]
  rfl

theorem getElem?_prepared_of_notMem {k : Nat} (hk : k < (P.prepared node ds).standings.length)
    (hn : k ∉ List.range' P.standings.length ds.length) :
    (P.prepared node ds).standings[k]? = P.standings[k]? := by
  rw [List.mem_range'_1] at hn
  rw [length_prepared] at hk
  exact List.getElem?_append_left (by omega)

def closed (P : Plan) (node tx : Nat) (d : Draft) : Plan :=
  if d.aborts then { P.put tx ⟨node, .decided⟩ with rolledBack := P.rolledBack + 1 }
  else { P.put tx ⟨node, .decided⟩ with
    hand := none
    committed := P.committed + 1
    written := P.written + d.write.isSome.toNat }

theorem plays_delivery (hf : P.hand = none)
    (h : P.standings[tx]? = some ⟨node, .prepared d.write.isSome⟩) :
    Plays P (onNode node (d.delivery tx peer)) (P.closed node tx d) := by
  have after {Q : Plan} (hQ : Q.hand = none) :
      Plays Q (onNode node [.finish tx, .apply d.keeper]) Q :=
    .cons (.finish Q tx node hQ) (.single (.apply Q d.keeper node hQ))
  rw [Draft.delivery, onNode, List.map_append]
  refine Plays.append (Q := P.closed node tx d) ?_ (after ?_)
  · rw [Draft.decision, closed]
    cases ha : d.aborts with
    | true =>
      have hw : d.write.isSome = true := by
        rw [Draft.aborts, Bool.and_eq_true] at ha
        exact ha.1
      rw [hw] at h
      exact .single (.rollback P tx node hf h)
    | false =>
      have choose : Move P ⟨node, d.version tx peer⟩ { P with hand := some (tx, false) } := by
        rw [Draft.version]
        cases hw : d.write.isSome with
        | true => exact .join P tx node peer d.bump hf (hw ▸ h)
        | false => exact .keep P tx node hf (hw ▸ h)
      have raise : Move { P with hand := some (tx, false) } ⟨node, .raise⟩
          { P with hand := some (tx, true) } := .raise _ tx node _ rfl h
      exact .cons choose (.cons raise
        (.single (.settle { P with hand := some (tx, true) } tx node _ rfl h)))
  · rw [closed]
    split
    · exact hf
    · rfl

theorem length_closed : (P.closed node tx d).standings.length = P.standings.length := by
  rw [closed]
  split <;> exact length_put

theorem getElem?_closed {k : Nat} (h : tx < P.standings.length) :
    (P.closed node tx d).standings[k]? =
      if k = tx then some ⟨node, .decided⟩ else P.standings[k]? := by
  rw [closed]
  split <;> exact getElem?_put h

theorem follows_closed (hf : P.hand = none) : P.Follows (P.closed node tx d) [d] := by
  rw [closed]
  cases ha : d.aborts with
  | true =>
    have hr : d.rollsBack = true := (Bool.and_eq_true_iff.mp ha).2
    exact ⟨hf, by simp [ha, put], by simp [ha], by simp [hr, put]⟩
  | false =>
    have hw : (d.write.isSome && !d.rollsBack) = d.write.isSome := by
      rw [Draft.aborts] at ha
      cases hw : d.write.isSome <;> simp_all
    refine ⟨rfl, by simp [ha], by simp [ha, put], ?_⟩
    cases hs : d.write.isSome <;> simp_all

theorem plays_deliveries (peer : Nat) {numbered : List (Draft × Nat)} (hf : P.hand = none)
    (hd : (numbered.map (·.2)).Nodup)
    (h : ∀ e ∈ numbered, P.standings[e.2]? = some ⟨node, .prepared e.1.write.isSome⟩) :
    ∃ Q, Plays P (onNode node (numbered.flatMap fun (d, tx) => d.delivery tx peer)) Q ∧
      P.Follows Q (numbered.map (·.1)) ∧ Q.standings.length = P.standings.length ∧
      ∀ k, Q.standings[k]? =
        if k ∈ numbered.map (·.2) then some ⟨node, .decided⟩ else P.standings[k]? := by
  induction numbered generalizing P with
  | nil => exact ⟨P, rfl, ⟨hf, rfl, rfl, rfl⟩, rfl, fun k => by simp⟩
  | cons e rest ih =>
    obtain ⟨d, tx⟩ := e
    obtain ⟨htx, hd⟩ := List.nodup_cons.mp hd
    obtain ⟨hs, hrest⟩ := List.forall_mem_cons.mp h
    have hlt : tx < P.standings.length := (List.getElem?_eq_some_iff.mp hs).1
    obtain ⟨Q, hp, hfol, hlen, hget⟩ := ih (P := P.closed node tx d) (follows_closed hf).hand hd
      fun e he => by
        have hne : e.2 ≠ tx := fun hx => htx (List.mem_map.mpr ⟨e, he, hx⟩)
        rw [getElem?_closed hlt, if_neg hne]
        exact hrest e he
    refine ⟨Q, ?_, (follows_closed hf).trans hfol, hlen.trans length_closed, fun k => ?_⟩
    · rw [List.flatMap_cons, onNode, List.map_append]
      exact (plays_delivery hf hs).append hp
    · have hmem : k ∈ ((d, tx) :: rest).map (·.2) ↔ k = tx ∨ k ∈ rest.map (·.2) := List.mem_cons
      rw [hget, getElem?_closed hlt]
      by_cases hk : k = tx
      · rw [if_pos (hmem.mpr (.inl hk)), if_pos hk, ite_self]
      · rw [if_neg hk]
        exact if_congr (hmem.trans (or_iff_right hk)).symm rfl rfl

end Plan

section Workload

open Plan

variable {b : Batch} {P : Plan}

theorem Batch.plays (hc : P.Closed) (hb : b.first = P.standings.length)
    (hp : b.picks.length = b.drafts.length) : ∃ Q, Plays P b.calls Q ∧ Q.Closed ∧
      P.Follows Q b.drafts ∧ Q.standings.length = P.standings.length + b.drafts.length := by
  have hperm : (shuffle b.picks (b.drafts.zipIdx b.first)).Perm (b.drafts.zipIdx b.first) := by
    refine shuffle_perm ?_
    rw [hp, List.length_zipIdx]
  have hdrafts := hperm.map (·.1)
  have hnumbers := hperm.map (·.2)
  rw [List.zipIdx_map_fst] at hdrafts
  rw [List.zipIdx_map_snd] at hnumbers
  have hprepared := plays_preparations b.node b.drafts hc.1
  obtain ⟨Q, hplays, hfol, hlen, hget⟩ := plays_deliveries (P := P.prepared b.node b.drafts)
    b.peer hc.1 (hnumbers.nodup_iff.mpr List.nodup_range') fun e he =>
      getElem?_prepared (hb ▸ hperm.mem_iff.mp he)
  refine ⟨Q, ?_, ⟨hfol.hand, fun s hs => ?_⟩, ⟨hfol.hand, ?_, ?_, ?_⟩, hlen.trans length_prepared⟩
  · rw [← hb] at hprepared
    rw [Batch.calls, Batch.actions, List.map_append]
    exact hprepared.append hplays
  · obtain ⟨k, hk⟩ := List.mem_iff_getElem?.mp hs
    have hlt : k < Q.standings.length := (List.getElem?_eq_some_iff.mp hk).1
    rw [hget] at hk
    split at hk
    next => exact (Option.some.inj hk) ▸ rfl
    next hnot =>
      rw [hnumbers.mem_iff, hb] at hnot
      rw [getElem?_prepared_of_notMem (hlen ▸ hlt) hnot] at hk
      exact hc.2 s (List.mem_of_getElem? hk)
  · rw [hfol.committed, hdrafts.countP_eq, prepared]
  · rw [hfol.rolledBack, hdrafts.countP_eq, prepared]
  · rw [hfol.written, hdrafts.countP_eq, prepared]

namespace Workload

def drafts (dice : Dice) (transactions threads thread : Nat) : List Draft :=
  (batches dice thread (share transactions threads thread)).flatMap (·.drafts)

theorem plays_batches (dice : Nat → Question → Nat) (share k : Nat)
    (hk : k ≤ (share + Batch.size - 1) / Batch.size) :
    let bs := (List.range k).map fun b => Batch.ofDice dice share (Batch.size * b)
    ∃ Q, Plays {} (bs.flatMap Batch.calls) Q ∧ Q.Closed ∧
      ({} : Plan).Follows Q (bs.flatMap (·.drafts)) ∧
      Q.standings.length = min (Batch.size * k) share ∧
      (bs.flatMap (·.drafts)).length = min (Batch.size * k) share := by
  induction k with
  | zero => exact ⟨{}, rfl, ⟨rfl, by simp⟩, ⟨rfl, rfl, rfl, rfl⟩, by simp, by simp⟩
  | succ k ih =>
    obtain ⟨Q, hp, hc, hfol, hlen, hcount⟩ := ih (by omega)
    obtain ⟨b, hb⟩ : ∃ b, Batch.ofDice dice share (Batch.size * k) = b := ⟨_, rfl⟩
    have hfirst : b.first = Batch.size * k := by rw [← hb, Batch.ofDice]
    have hdrafts : b.drafts.length = min Batch.size (share - Batch.size * k) := by
      rw [← hb, Batch.ofDice]
      simp
    have hpicks : b.picks.length = b.drafts.length := by
      rw [← hb, Batch.ofDice]
      simp
    rw [Batch.size] at *
    obtain ⟨R, hp', hc', hfol', hlen'⟩ := b.plays hc (by rw [hfirst, hlen]; omega) hpicks
    refine ⟨R, ?_, hc', ?_, ?_, ?_⟩
    · rw [List.range_succ, List.map_append, List.flatMap_append, List.map_singleton, hb,
        List.flatMap_singleton]
      exact hp.append hp'
    · rw [List.range_succ, List.map_append, List.flatMap_append, List.map_singleton, hb,
        List.flatMap_singleton]
      exact hfol.trans hfol'
    · omega
    · rw [List.range_succ, List.map_append, List.flatMap_append, List.map_singleton, hb,
        List.flatMap_singleton, List.length_append]
      omega

theorem plays_thread (dice : Dice) (transactions threads thread : Nat) :
    ∃ Q, Plays {}
        ((batches dice thread (share transactions threads thread)).flatMap Batch.calls) Q ∧
      Q.Closed ∧ ({} : Plan).Follows Q (drafts dice transactions threads thread) ∧
      Q.committed + Q.rolledBack = share transactions threads thread := by
  obtain ⟨m, hm⟩ : ∃ m, share transactions threads thread = m := ⟨_, rfl⟩
  obtain ⟨Q, hp, hc, hfol, -, hlen⟩ := plays_batches (dice thread) m _ (Nat.le_refl _)
  rw [drafts, hm]
  refine ⟨Q, hp, hc, hfol, ?_⟩
  have hsum := List.length_eq_countP_add_countP Draft.aborts
    (l := (batches dice thread m).flatMap (·.drafts))
  have hcommitted := hfol.committed
  have hrolledBack := hfol.rolledBack
  simp only [Batch.size, batches, Bool.not_eq_true, Bool.decide_eq_false, Nat.zero_add] at *
  omega

theorem sum_share {transactions threads : Nat} (h : 0 < threads) :
    ((List.range threads).map (share transactions threads)).sum = transactions := by
  have partial_sum (k : Nat) : ((List.range k).map (share transactions threads)).sum =
      k * (transactions / threads) + min k (transactions % threads) := by
    induction k with
    | zero => simp
    | succ k ih =>
      rw [List.range_succ, List.map_append, List.sum_append, ih, List.map_singleton,
        List.sum_singleton, share, Nat.succ_mul]
      split <;> omega
  rw [partial_sum, Nat.min_eq_right (Nat.mod_lt _ h).le, Nat.div_add_mod]

end Workload

end Workload

end Multiversion
