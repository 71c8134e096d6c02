import Mathlib
import Multiversion.Proofs.Queue.Yields
import Multiversion.Proofs.Sequencer.Exclusion

namespace Multiversion.Crew

namespace Drain

def applied : Drain → List Nat
  | applying done _ => done.map (·.entry)
  | marking todo => todo
  | _ => []

def inserted : Drain → List Nat
  | marking todo => todo
  | _ => []

def noted : Drain → List Delivery
  | recording done _ => done
  | applying done todo => done ++ todo
  | _ => []

def isMarking : Drain → Bool
  | marking _ => true
  | _ => false

end Drain

/-- No transaction is prepared while it is queued, an entry gets one commit at most, which does not
    lower it, and after its commit it is not rolled back. -/
inductive Turn : Crew → Crew → Prop
  | prepare (c tx now) (ht : tx < c.sequencer.inFlight.transactions.all.size)
      (hf : c.queue.find? (c.sequencer.transaction tx).id = none) :
      Turn c { c with sequencer := (c.sequencer.prepare tx now).1 }
  | raise (c v) : Turn c { c with sequencer := c.sequencer.raise v, raised := v :: c.raised }
  | settle (c g v now) (hv : v ∈ c.raised)
      (hu : ∀ n, c.queue.find? g = some n → (c.queue.entry n).received = false ∧
        c.queue.order n ≤ c.sequencer.position.seq v) :
      Turn c
        { c with sequencer := (c.sequencer.settle g v now).1, raised := c.raised.erase v }
  | rollback (c g now)
      (hu : ∀ n, c.queue.find? g = some n → (c.queue.entry n).received = false) :
      Turn c { c with sequencer := (c.sequencer.rollback g now).1 }
  | transactions (c transactions live) :
      Turn c
        { c with
          sequencer :=
            { c.sequencer with live, inFlight := { c.sequencer.inFlight with transactions } } }
  | drain (c d) (h : Step c d) (hd : d.drains ≠ c.drains) : Turn c d

abbrev Turns := Relation.ReflTransGen Turn

variable {c x y : Crew} {n : Nat} {before behind : List Drain} {d e : Drain}

/-- The books of all drains together: what was claimed is won or committed, and what the store or
    the log has taken over is in the hands of a drain or committed. -/
structure Ledger (c : Crew) : Prop where
  won : ∀ n, (c.drains.flatMap Drain.won).count n + (c.queue.entry n).committed.toNat =
    (c.queue.entry n).claimed.toNat
  stored : ∀ n, (c.stored.map (·.entry)).count n =
    (c.drains.flatMap Drain.applied).count n + (c.queue.entry n).committed.toNat
  logged : ∀ n, (c.logged.map (·.entry)).count n =
    (c.drains.flatMap Drain.inserted).count n + (c.queue.entry n).committed.toNat

namespace Ledger

theorem count_middle {φ : Drain → List Nat} : ((before ++ d :: behind).flatMap φ).count n =
    (before.flatMap φ).count n + (φ d).count n + (behind.flatMap φ).count n := by
  simp only [List.flatMap_append, List.flatMap_cons, List.count_append, Nat.add_assoc]

variable (h : x.Ledger)
include h

theorem goOn (hx : x.drains = before ++ d :: behind) (hy : y.drains = before ++ e :: behind)
    (hw : ∀ n, e.won.count n + (y.queue.entry n).committed.toNat +
        (x.queue.entry n).claimed.toNat =
      d.won.count n + (x.queue.entry n).committed.toNat + (y.queue.entry n).claimed.toNat)
    (hs : ∀ n, (y.stored.map (·.entry)).count n + d.applied.count n +
        (x.queue.entry n).committed.toNat =
      (x.stored.map (·.entry)).count n + e.applied.count n + (y.queue.entry n).committed.toNat)
    (hl : ∀ n, (y.logged.map (·.entry)).count n + d.inserted.count n +
        (x.queue.entry n).committed.toNat =
      (x.logged.map (·.entry)).count n + e.inserted.count n + (y.queue.entry n).committed.toNat) :
    y.Ledger := by
  refine ⟨fun n => ?_, fun n => ?_, fun n => ?_⟩
  · have h1 := h.won n
    have h2 := hw n
    rw [hx, count_middle] at h1
    rw [hy, count_middle]
    omega
  · have h1 := h.stored n
    have h2 := hs n
    rw [hx, count_middle] at h1
    rw [hy, count_middle]
    omega
  · have h1 := h.logged n
    have h2 := hl n
    rw [hx, count_middle] at h1
    rw [hy, count_middle]
    omega

theorem congr (hd : y.drains = x.drains) (hs : y.stored = x.stored) (hl : y.logged = x.logged)
    (hc : ∀ n, (y.queue.entry n).claimed = (x.queue.entry n).claimed)
    (hm : ∀ n, (y.queue.entry n).committed = (x.queue.entry n).committed) : y.Ledger := by
  refine ⟨fun n => ?_, fun n => ?_, fun n => ?_⟩
  · rw [hd, hc, hm]
    exact h.won n
  · rw [hd, hs, hm]
    exact h.stored n
  · rw [hd, hl, hm]
    exact h.logged n

theorem uncommitted_of_won (hx : x.drains = before ++ d :: behind) (hn : n ∈ d.won) :
    (x.queue.entry n).committed = false := by
  have hwon := h.won n
  have hcount := List.count_pos_iff.mpr hn
  have hle := Bool.toNat_le (x.queue.entry n).claimed
  rw [hx, count_middle] at hwon
  cases hc : (x.queue.entry n).committed with
  | false => rfl
  | true =>
    rw [hc, Bool.toNat_true] at hwon
    omega

theorem claimed_of_committed (hc : (x.queue.entry n).committed = true) :
    (x.queue.entry n).claimed = true := by
  have h1 := h.won n
  rw [hc, Bool.toNat_true] at h1
  cases hcl : (x.queue.entry n).claimed with
  | true => rfl
  | false =>
    rw [hcl, Bool.toNat_false] at h1
    omega

variable {won todo : List Nat} {m : Nat} {now : Time}

theorem claim (hx : x.drains = before ++ .claiming won (m :: todo) :: behind)
    (hm : m < x.queue.entries.size) :
    ((x.setQueue (x.queue.claim m).1).goOn before
      (.claiming (if (x.queue.claim m).2 then won ++ [m] else won) todo) behind).Ledger := by
  have committed_eq (n) : ((x.queue.claim m).1.entry n).committed = (x.queue.entry n).committed :=
    Queue.update_keeps Entry.committed fun _ => rfl
  refine h.goOn hx rfl (fun n => ?_) (fun n => ?_) fun n => ?_
  · change _ + ((x.queue.claim m).1.entry n).committed.toNat + _ =
      _ + _ + ((x.queue.claim m).1.entry n).claimed.toNat
    rw [committed_eq, Queue.claimed_claim hm]
    change (if !(x.queue.entry m).claimed then won ++ [m] else won).count n + _ + _ = _
    by_cases hn : n = m
    · subst hn
      cases (x.queue.entry n).claimed with
      | true => simp [Drain.won]
      | false =>
        simp [Drain.won]
        omega
    · cases (x.queue.entry m).claimed <;> simp [Drain.won, hn, Ne.symm hn]
  · change _ + _ + _ = _ + _ + ((x.queue.claim m).1.entry n).committed.toNat
    rw [committed_eq]
    rfl
  · change _ + _ + _ = _ + _ + ((x.queue.claim m).1.entry n).committed.toNat
    rw [committed_eq]
    rfl

theorem mark (hx : x.drains = before ++ .marking (m :: todo) :: behind)
    (hm : m < x.queue.entries.size) :
    ((x.setQueue (x.queue.markCommitted m now)).goOn before (.marking todo) behind).Ledger := by
  have hopen := h.uncommitted_of_won hx (List.mem_cons_self ..)
  have claimed_eq (n) :
      ((x.queue.markCommitted m now).entry n).claimed = (x.queue.entry n).claimed :=
    Queue.update_keeps Entry.claimed fun _ => Entry.markCommitted_keeps _ fun _ _ _ => rfl
  have count_eq (n) : todo.count n + ((x.queue.markCommitted m now).entry n).committed.toNat =
      (m :: todo).count n + (x.queue.entry n).committed.toNat := by
    rw [Queue.committed_markCommitted hm]
    by_cases hn : n = m
    · subst hn
      rw [if_pos rfl, hopen, List.count_cons_self]
      simp
    · rw [if_neg hn, List.count_cons_of_ne (Ne.symm hn)]
  have moved (k n) : k + (m :: todo).count n + (x.queue.entry n).committed.toNat =
      k + todo.count n + ((x.queue.markCommitted m now).entry n).committed.toNat := by
    rw [Nat.add_assoc, Nat.add_assoc, count_eq]
  refine h.goOn hx rfl (fun n => ?_) (fun n => moved _ n) fun n => moved _ n
  change todo.count n + ((x.queue.markCommitted m now).entry n).committed.toNat + _ =
    _ + _ + ((x.queue.markCommitted m now).entry n).claimed.toNat
  rw [claimed_eq, count_eq]
  rfl

end Ledger

structure Keeping (c : Crew) : Prop where
  exact : c.sequencer.Exact c.raised
  tidy : c.queue.Tidy
  ledger : c.Ledger
  held : ∀ d ∈ c.drains, ∀ n ∈ d.held, c.queue.Firm n
  claimed : ∀ n, (c.queue.entry n).claimed = true →
    c.queue.Firm n ∧ c.queue.Clear [] n
  listed : ∀ d ∈ c.drains, ∀ us n vs, d.listed = us ++ n :: vs → c.queue.Clear us n
  blocked : (∃ d ∈ c.drains, d.isMarking = true) ∨
    ∀ n ∈ c.queue.line, (c.queue.entry n).committed = true → ∃ m ∈ c.queue.line,
      Before c.queue.order m n ∧ (c.queue.entry m).committed = false

namespace Keeping

theorem yields (h : x.Keeping) (hx : y.sequencer.Exact y.raised) (ht : y.queue.Tidy)
    (hy : x.queue.Yields y.queue) (hd : y.drains = x.drains) (hs : y.stored = x.stored)
    (hl : y.logged = x.logged) : y.Keeping := by
  have hf := hy.follows
  refine ⟨hx, ht, h.ledger.congr hd hs hl hy.claimed hy.committed, ?_, ?_, ?_, ?_⟩
  · rw [hd]
    exact fun d hd n hn => hf.firm (h.held d hd n hn)
  · intro n hn
    rw [hy.claimed] at hn
    obtain ⟨hr, hc⟩ := h.claimed n hn
    exact ⟨hf.firm hr, hf.clear hr.1 hc⟩
  · rw [hd]
    intro d hd us n vs he
    refine hf.clear (h.held d hd n ?_).1 (h.listed d hd us n vs he)
    exact List.mem_append_right _ (he ▸ List.mem_append_right _ (List.mem_cons_self ..))
  · rw [hd]
    refine h.blocked.imp_right fun hb n hn hc => ?_
    rw [hy.committed] at hc
    obtain ⟨⟨hr, -⟩, hclear⟩ := h.claimed n (h.ledger.claimed_of_committed hc)
    obtain ⟨hq, -⟩ := hf.ahead n hn hr
    obtain ⟨m, hm, hmn, hmc⟩ := hb n hq hc
    have hmr := (h.claimed m ((hclear hq m hm hmn).resolve_right List.not_mem_nil)).1.1
    refine ⟨m, (hy.line m hmr).mpr hm, ?_, (hy.committed m).trans hmc⟩
    rwa [Before, Queue.order_of_face (hy.face m hmr), Queue.order_of_face (hy.face n hr)]

theorem goOn (h : x.Keeping) (hx : x.drains = before ++ d :: behind)
    (hy : y.drains = before ++ e :: behind) (hexact : y.sequencer.Exact y.raised)
    (htidy : y.queue.Tidy) (hledger : y.Ledger) (hf : x.queue.Follows y.queue)
    (hheld : ∀ n ∈ e.held, x.queue.Firm n)
    (hclaimed : ∀ n, (y.queue.entry n).claimed = true →
      (x.queue.entry n).claimed = true ∨ x.queue.Firm n ∧ y.queue.Clear [] n)
    (hlisted : ∀ us n vs, e.listed = us ++ n :: vs → y.queue.Clear us n)
    (hblocked : (∃ d ∈ y.drains, d.isMarking = true) ∨
      ∀ n ∈ y.queue.line, (y.queue.entry n).committed = true → ∃ m ∈ y.queue.line,
        Before y.queue.order m n ∧ (y.queue.entry m).committed = false) : y.Keeping := by
  have old {d} (hd : d ∈ before ++ behind) : d ∈ x.drains := by
    rw [hx]
    simp only [List.mem_append, List.mem_cons] at hd ⊢
    tauto
  have each {d} (hd : d ∈ y.drains) : d = e ∨ d ∈ x.drains := by
    rw [hy, List.mem_append, List.mem_cons] at hd
    rcases hd with hd | rfl | hd
    · exact .inr (old (List.mem_append_left _ hd))
    · exact .inl rfl
    · exact .inr (old (List.mem_append_right _ hd))
  refine ⟨hexact, htidy, hledger, fun d hd n hn => ?_, fun n hn => ?_, fun d hd us n vs hl => ?_,
    hblocked⟩
  · rcases each hd with rfl | hd
    · exact hf.firm (hheld n hn)
    · exact hf.firm (h.held d hd n hn)
  · rcases hclaimed n hn with hn | ⟨hr, hc⟩
    · obtain ⟨hr, hc⟩ := h.claimed n hn
      exact ⟨hf.firm hr, hf.clear hr.1 hc⟩
    · exact ⟨hf.firm hr, hc⟩
  · rcases each hd with rfl | hd
    · exact hlisted us n vs hl
    · refine hf.clear (h.held d hd n ?_).1 (h.listed d hd us n vs hl)
      exact List.mem_append_right _ (hl ▸ List.mem_append_right _ (List.mem_cons_self ..))

theorem blocked_of (h : x.Keeping) (hx : x.drains = before ++ d :: behind)
    (hy : y.drains = before ++ e :: behind) (hm : d.isMarking = true → e.isMarking = true)
    (hl : y.queue.line = x.queue.line) (ho : y.queue.order = x.queue.order)
    (hc : ∀ n, (y.queue.entry n).committed = (x.queue.entry n).committed) :
    (∃ d ∈ y.drains, d.isMarking = true) ∨
      ∀ n ∈ y.queue.line, (y.queue.entry n).committed = true → ∃ m ∈ y.queue.line,
        Before y.queue.order m n ∧ (y.queue.entry m).committed = false := by
  refine h.blocked.imp (fun hb => ?_) fun hb n hn hcn => ?_
  · rw [hx, exists_mem_middle] at hb
    rw [hy, exists_mem_middle]
    exact hb.imp_left hm
  · rw [hc] at hcn
    obtain ⟨m, hml, hb, hcm⟩ := hb n (hl ▸ hn) hcn
    exact ⟨m, hl ▸ hml, ho ▸ hb, (hc m).trans hcm⟩

theorem keepOn (h : x.Keeping) (hx : x.drains = before ++ d :: behind)
    (hy : y.drains = before ++ e :: behind) (hexact : y.sequencer.Exact y.raised)
    (hq : y.queue = x.queue) (hw : ∀ n, e.won.count n = d.won.count n)
    (hs : ∀ n, (y.stored.map (·.entry)).count n + d.applied.count n =
      (x.stored.map (·.entry)).count n + e.applied.count n)
    (hl : ∀ n, (y.logged.map (·.entry)).count n + d.inserted.count n =
      (x.logged.map (·.entry)).count n + e.inserted.count n)
    (hheld : ∀ n ∈ e.held, x.queue.Firm n)
    (hlisted : ∀ us n vs, e.listed = us ++ n :: vs → x.queue.Clear us n)
    (hm : d.isMarking = true → e.isMarking = true) : y.Keeping := by
  refine h.goOn hx hy hexact (hq ▸ h.tidy) (h.ledger.goOn hx hy (fun n => ?_) (fun n => ?_)
    fun n => ?_) (hq ▸ .refl) hheld (fun n hn => .inl (hq ▸ hn)) (hq ▸ hlisted)
    (h.blocked_of hx hy hm (hq ▸ rfl) (hq ▸ rfl) fun _ => hq ▸ rfl)
  · rw [hq, hw]
  · rw [hq, hs]
  · rw [hq, hl]

theorem hand (h : x.Keeping) (hx : x.drains = before ++ d :: behind)
    (hy : y.drains = before ++ e :: behind) (hexact : y.sequencer.Exact y.raised)
    (hq : y.queue = x.queue) (hw : e.won = d.won)
    (hs : ∀ n, (y.stored.map (·.entry)).count n + d.applied.count n =
      (x.stored.map (·.entry)).count n + e.applied.count n)
    (hl : ∀ n, (y.logged.map (·.entry)).count n + d.inserted.count n =
      (x.logged.map (·.entry)).count n + e.inserted.count n)
    (he : e.listed = []) (hm : d.isMarking = false) : y.Keeping := by
  have hmem : d ∈ x.drains := by simp [hx]
  refine h.keepOn hx hy hexact hq (fun _ => by rw [hw]) hs hl (fun n hn => ?_)
    (fun us n vs hl => absurd hl (by simp [he])) fun hd => ?_
  · rw [Drain.held, he, List.append_nil, hw] at hn
    exact h.held d hmem n (Drain.held_of_won hn)
  · rw [hm] at hd
    cases hd

variable {before behind : List Drain} {won todo : List Nat} {done rest : List Delivery} {m : Nat}
  {now : Time}

theorem list (h : x.Keeping) (hx : x.drains = before ++ .idle :: behind) :
    (x.goOn before (.claiming [] x.sequencer.readyPrefix) behind).Keeping := by
  refine h.keepOn hx rfl h.exact rfl (fun _ => rfl) (fun _ => rfl) (fun _ => rfl) (fun n hn => ?_)
    (fun us n vs hl => ?_) (fun hm => nomatch hm)
  · exact ⟨List.mem_takeWhile_imp (p := fun n => (x.queue.entry n).ready) hn,
      h.tidy.queued n ((List.takeWhile_sublist _).subset hn)⟩
  · intro hn m hm hb
    have hsorted := h.exact.valid.sorted
    have hline : x.queue.line = us ++ n :: (vs ++ x.queue.line.dropWhile
        fun n => (x.queue.entry n).ready) := by
      have hp : x.queue.line.takeWhile (fun n => (x.queue.entry n).ready) = us ++ n :: vs := hl
      rw [← List.cons_append, ← List.append_assoc, ← hp, List.takeWhile_append_dropWhile]
    change x.queue.line.Pairwise _ at hsorted
    rw [hline] at hm hsorted
    refine .inr ((List.mem_append.mp hm).resolve_right fun hm => ?_)
    rcases List.mem_cons.mp hm with rfl | hm
    · exact hb.asymm hb
    · exact hb.asymm
        ((List.pairwise_cons.mp (List.pairwise_append.mp hsorted).2.1).1 m hm)

theorem claim (h : x.Keeping) (hx : x.drains = before ++ .claiming won (m :: todo) :: behind) :
    ((x.setQueue (x.queue.claim m).1).goOn before
      (.claiming (if (x.queue.claim m).2 then won ++ [m] else won) todo) behind).Keeping := by
  have hmem : .claiming won (m :: todo) ∈ x.drains := by simp [hx]
  have hheld (n) (hn : n ∈ won ++ m :: todo) : x.queue.Firm n := h.held _ hmem n hn
  have hfirm : x.queue.Firm m := hheld m (by simp)
  have hlt := Queue.lt_of_ready hfirm.1
  have hf : x.queue.Follows (x.queue.claim m).1 := Queue.claim_follows
  refine h.goOn hx rfl h.exact.claim h.tidy.claim (h.ledger.claim hx hlt) hf (fun n hn => ?_)
    (fun n hn => ?_) (fun us n vs hl => ?_) ?_
  · exact hheld n (Drain.held_of_claimed hn)
  · change ((x.queue.claim m).1.entry n).claimed = true at hn
    rw [Queue.claimed_claim hlt] at hn
    split at hn
    next hnm =>
      subst hnm
      exact .inr ⟨hfirm, hf.clear hfirm.1 (h.listed _ hmem [] n todo rfl)⟩
    next => exact .inl hn
  · obtain rfl : todo = us ++ n :: vs := hl
    have hclear := hf.clear (hheld n (by simp)).1 (h.listed _ hmem (m :: us) n vs rfl)
    intro hl k hk hb
    rcases hclear hl k hk hb with hc | hc
    · exact .inl hc
    · rcases List.mem_cons.mp hc with rfl | hc
      · exact .inl ((Queue.claimed_claim hlt).trans (if_pos rfl))
      · exact .inr hc
  · exact h.blocked_of hx rfl Bool.noConfusion rfl
      (funext fun n => Queue.update_keeps Entry.order fun _ => rfl)
      fun n => Queue.update_keeps Entry.committed fun _ => rfl

theorem mark (h : x.Keeping) (hx : x.drains = before ++ .marking (m :: todo) :: behind) :
    ((x.setQueue (x.queue.markCommitted m now)).goOn before (.marking todo) behind).Keeping := by
  have hmem : .marking (m :: todo) ∈ x.drains := by simp [hx]
  have hheld (n) (hn : n ∈ m :: todo) : x.queue.Firm n :=
    h.held _ hmem n (List.mem_append_left _ hn)
  have hlt := Queue.lt_of_ready (hheld m (List.mem_cons_self ..)).1
  refine h.goOn hx rfl h.exact.markCommitted (h.tidy.markCommitted hlt) (h.ledger.mark hx hlt)
    Queue.markCommitted_follows (fun n hn => ?_) (fun n hn => .inl ?_) (fun us n vs hl => ?_) ?_
  · refine hheld n (List.mem_cons_of_mem _ ?_)
    simpa [Drain.held, Drain.won, Drain.listed] using hn
  · rw [← hn]
    exact (Queue.update_keeps Entry.claimed fun _ =>
      Entry.markCommitted_keeps _ fun _ _ _ => rfl).symm
  · exact absurd hl (by simp [Drain.listed])
  · exact .inl ⟨.marking todo, by simp [Crew.goOn], rfl⟩

theorem detach (h : x.Keeping) (hx : x.drains = before ++ .marking [] :: behind) :
    (({ x with sequencer := (x.sequencer.detach now).1 } : Crew).goOn before .idle
      behind).Keeping := by
  have keeps {α : Type} (φ : Entry → α) (hφ : ∀ e k, φ (e.markReady k now) = φ e) (n) :
      φ ((x.queue.detach now).1.entry n) = φ (x.queue.entry n) := by
    refine h.exact.valid.detach_cases (motive := fun r => φ (r.entry n) = φ (x.queue.entry n))
      fun r hr => ?_
    rw [Queue.grantReady_keeps φ hφ, hr.kept]
    rfl
  have hclaimed := keeps Entry.claimed fun _ _ => Entry.claimed_markReady
  have hcommitted := keeps Entry.committed fun _ _ => Entry.committed_markReady
  refine h.goOn hx rfl h.exact.detach (h.exact.valid.detach_tidy h.tidy)
    (h.ledger.goOn hx rfl (fun n => ?_) (fun n => ?_) fun n => ?_)
    (h.exact.valid.detach_follows h.exact.exact) (fun n hn => absurd hn List.not_mem_nil)
    (fun n hn => .inl ((hclaimed n).symm.trans hn))
    (fun us n vs hl => absurd hl (by simp [Drain.listed]))
    (.inr h.exact.valid.detach_blocked)
  · change _ + ((x.queue.detach now).1.entry n).committed.toNat + _ =
      _ + _ + ((x.queue.detach now).1.entry n).claimed.toNat
    rw [hclaimed, hcommitted]
    simp [Drain.won]
  · change _ + _ + _ = _ + _ + ((x.queue.detach now).1.entry n).committed.toNat
    rw [hcommitted]
    rfl
  · change _ + _ + _ = _ + _ + ((x.queue.detach now).1.entry n).committed.toNat
    rw [hcommitted]
    rfl

section Calls

variable (h : x.Keeping)
include h

theorem prepare_yields {tx : Nat} (ht : tx < x.sequencer.inFlight.transactions.all.size)
    (hf : x.queue.find? (x.sequencer.transaction tx).id = none) :
    x.queue.Yields (x.sequencer.prepare tx now).1.queue := by
  rw [Sequencer.queue_prepare ht]
  exact h.exact.valid.prepare_yields h.exact.exact hf h.exact.order_lt_next

theorem settle_yields {g : TransactionId} {v : Version}
    (hu : ∀ n, x.queue.find? g = some n → (x.queue.entry n).received = false ∧
      x.queue.order n ≤ x.sequencer.position.seq v) :
    x.queue.Yields (x.sequencer.settle g v now).1.queue := by
  rw [Sequencer.queue_settle h.exact.valid]
  exact h.exact.valid.commit_yields h.exact.exact hu

theorem rollback_yields {g : TransactionId}
    (hu : ∀ n, x.queue.find? g = some n → (x.queue.entry n).received = false) :
    x.queue.Yields (x.sequencer.rollback g now).1.queue := by
  rw [Sequencer.queue_rollback h.exact.valid]
  exact h.exact.valid.rollback_yields h.exact.exact hu

end Calls

end Keeping

theorem Turn.follows (h : Turn x y) (hx : x.Keeping) : x.queue.Follows y.queue := by
  cases h with
  | prepare tx now ht hf => exact (hx.prepare_yields ht hf).follows
  | raise v => exact .refl
  | settle g v now hv hu => exact (hx.settle_yields hu).follows
  | rollback g now hu => exact (hx.rollback_yields hu).follows
  | transactions ts live => exact .refl
  | drain d h hd =>
    cases h with
    | claim before won n todo behind hc => exact Queue.claim_follows
    | mark before n todo behind now hc => exact Queue.markCommitted_follows
    | detach before behind now hc => exact hx.exact.valid.detach_follows hx.exact.exact
    | list | giveUp | win | record | finish | apply | insert => exact .refl
    | _ => exact absurd rfl hd

theorem Turn.keeping (h : Turn x y) (hx : x.Keeping) : y.Keeping := by
  have hv := hx.exact.valid
  have hxe := hx.exact.exact
  cases h with
  | prepare tx now ht hf =>
    refine hx.yields (hx.exact.prepare ht) ?_ (hx.prepare_yields ht hf) rfl rfl rfl
    rw [queue, Sequencer.queue_prepare ht]
    exact hv.prepare_tidy hx.tidy hf
  | raise v => exact hx.yields hx.exact.raise hx.tidy (.refl hxe) rfl rfl rfl
  | settle g v now hv' hu =>
    refine hx.yields ((hx.exact.settle hv' fun n hn => (hu n hn).1).congr rfl rfl (Nat.le_refl _)
      fun w hw => .inl (List.mem_of_mem_erase hw)) ?_ (hx.settle_yields hu) rfl rfl rfl
    rw [queue, Sequencer.queue_settle hv]
    exact hv.commit_tidy hx.tidy
  | rollback g now hu =>
    refine hx.yields hx.exact.rollback ?_ (hx.rollback_yields hu) rfl rfl rfl
    rw [queue, Sequencer.queue_rollback hv]
    exact hv.rollback_tidy hx.tidy hu
  | transactions ts live =>
    exact hx.yields (hx.exact.congr rfl rfl (Nat.le_refl _) fun w hw => .inl hw) hx.tidy
      (.refl hxe) rfl rfl rfl
  | drain d h hd =>
    cases h with
    | list before behind hc => exact hx.list hc
    | claim before won n todo behind hc => exact hx.claim hc
    | giveUp before behind hc =>
      exact hx.keepOn hc rfl hx.exact rfl (fun _ => rfl) (fun _ => rfl) (fun _ => rfl)
        (fun n hn => absurd hn List.not_mem_nil)
        (fun us n vs he => absurd he (by simp [Drain.listed])) fun hm => nomatch hm
    | win before won behind hc =>
      exact hx.hand hc rfl hx.exact rfl rfl (fun _ => rfl) (fun _ => rfl) rfl rfl
    | record before done n todo behind hc =>
      exact hx.hand hc rfl hx.exact rfl (by simp [Drain.won, delivery]) (fun _ => rfl)
        (fun _ => rfl) rfl rfl
    | finish before done behind hc =>
      exact hx.hand hc rfl hx.exact rfl (by simp [Drain.won]) (fun _ => rfl) (fun _ => rfl)
        rfl rfl
    | apply before done e todo behind hc =>
      refine hx.hand hc rfl hx.exact rfl (by simp [Drain.won]) (fun n => ?_) (fun _ => rfl)
        rfl rfl
      simp [goOn, applyOne, Drain.applied]
      omega
    | insert before done behind hc =>
      refine hx.hand hc rfl (hx.exact.congr rfl rfl (Nat.le_refl _) fun w hw => .inl hw) rfl
        (by simp [Drain.won]) (fun n => ?_) (fun n => ?_) rfl rfl
      · simp [goOn, insertBatch, Drain.applied]
      · simp [goOn, insertBatch, Drain.inserted]
    | mark before n todo behind now hc => exact hx.mark hc
    | detach before behind now hc => exact hx.detach hc
    | _ => exact absurd rfl hd

end Multiversion.Crew
