import Mathlib
import Multiversion.Proofs.Cluster.Members

/-!
Members that come and go. A node reads its own sequence at its place in the current view, and its
place is the number of members ahead of it. When one of these leaves, what the node has stamped
before is read at the place of another member.
-/

namespace Multiversion.Cluster

open Relation (ReflTransGen)

def Unknown (a : Address) (c : Cluster) : Prop :=
  a ∉ c.roster ∧ a ∉ c.view.members ∧ c.member? a = none

/-- Members of `away` may leave or be dropped, and those of `again` may register once more. -/
inductive Change (away again : Address → Prop) : Cluster → Cluster → Prop
  | join (c a m) (hu : Unknown a c) (hm : ∀ n, m = .node n → n.address = a) :
      Change away again c (c.add a m)
  | register (c a) (ha : again a) : Change away again c (c.register a)
  | install (c) : Change away again c c.install.1
  | leave (c a) (ha : away a) : Change away again c (c.leave a).1
  | drop (c a) (ha : away a) : Change away again c (c.drop a).1
  | work (c d) (hk : c.Keeps d) (hr : d.roster = c.roster)
      (ha : ∀ b n m, c.node? b = some n → d.node? b = some m → m.address = n.address) :
      Change away again c d

abbrev History := ReflTransGen (Change (fun _ => True) fun _ => True)

abbrev Stays (b : Address) := ReflTransGen (Change (· ≠ b) fun _ => True)

def ahead (b : Address) (l : List Address) : List Address := l.takeWhile (· ≠ b)

def place (c : Cluster) (b : Address) : Nat := (ahead b c.view.members).length

variable {a b : Address} {c d : Cluster} {n : Node} {m : Member} {away again P : Address → Prop}
  {l l' l'' : List Address}

theorem findIdx?_eq_ahead (hb : b ∈ l) : l.findIdx? (· = b) = some (ahead b l).length := by
  induction l with
  | nil => cases hb
  | cons a l ih =>
    rw [List.findIdx?_cons, ahead]
    by_cases ha : a = b
    · simp [ha]
    · rw [List.takeWhile_cons_of_pos (by simpa using ha), ← ahead,
        ih ((List.mem_cons.mp hb).resolve_left (Ne.symm ha))]
      simp [ha]

section Ahead

theorem ahead_filter (hab : a ≠ b) : ahead b (l.filter (· ≠ a)) = (ahead b l).filter (· ≠ a) := by
  induction l with
  | nil => rfl
  | cons u l ih =>
    rw [ahead, ahead] at ih ⊢
    by_cases hu : u = a
    · have hub : u ≠ b := hu ▸ hab
      rw [List.filter_cons_of_neg (by simp [hu]), List.takeWhile_cons_of_pos (by simp [hub]),
        List.filter_cons_of_neg (by simp [hu]), ih]
    · by_cases hub : u = b
      · simp [hub, hab.symm]
      · rw [List.filter_cons_of_pos (by simp [hu]), List.takeWhile_cons_of_pos (by simp [hub]),
          List.takeWhile_cons_of_pos (by simp [hub]), List.filter_cons_of_pos (by simp [hu]), ih]

theorem ahead_append (hb : b ∈ l) : ahead b (l ++ l') = ahead b l := by
  rw [ahead, ahead]
  induction l with
  | nil => cases hb
  | cons u l ih =>
    by_cases hu : u = b
    · simp [hu]
    · rw [List.cons_append, List.takeWhile_cons_of_pos (by simp [hu]),
        List.takeWhile_cons_of_pos (by simp [hu]),
        ih ((List.mem_cons.mp hb).resolve_left (Ne.symm hu))]

def Trimmed (P : Address → Prop) (l l' : List Address) : Prop :=
  ∃ gone : List Address, (∀ a ∈ gone, P a) ∧ l' = l.filter (· ∉ gone)

namespace Trimmed

theorem refl (P : Address → Prop) (l : List Address) : Trimmed P l l :=
  ⟨[], fun _ ha => absurd ha List.not_mem_nil, by simp⟩

theorem tail (h : Trimmed P l l') (ha : P a) : Trimmed P l (l'.filter (· ≠ a)) := by
  obtain ⟨gone, hg, rfl⟩ := h
  refine ⟨a :: gone, List.forall_mem_cons.mpr ⟨ha, hg⟩, ?_⟩
  rw [List.filter_filter]
  congr 1
  funext u
  simp

theorem eq (h : Trimmed P l l') (hl : ∀ a ∈ l, ¬ P a) : l' = l := by
  obtain ⟨gone, hg, rfl⟩ := h
  rw [List.filter_eq_self]
  intro a ha
  exact decide_eq_true fun hm => hl a ha (hg a hm)

end Trimmed

end Ahead

theorem mem_register : b ∈ (c.register a).roster ↔ b = a ∨ b ∈ c.roster := by
  by_cases hb : b = a <;> simp [register, hb]

section Nodes

theorem member?_install : c.install.1.member? b =
    (c.member? b).map fun m => if b ∈ c.roster then m.install ⟨c.nextView, c.roster⟩ else m := by
  rw [member?, member?, install]
  dsimp only
  induction c.members with
  | nil => rfl
  | cons e l ih =>
    obtain ⟨u, k⟩ := e
    rw [List.map_cons, List.lookup_cons, List.lookup_cons]
    by_cases hb : b = u
    · simp [hb]
    · rw [beq_eq_false_iff_ne.mpr hb]
      exact ih

theorem member?_add :
    (c.add a m).member? b = (c.member? b).or (if b = a then some m else none) := by
  rw [member?, member?, add, register, List.lookup_append, List.lookup_cons, List.lookup_nil]
  by_cases hb : b = a
  · simp [hb]
  · rw [beq_eq_false_iff_ne.mpr hb, if_neg hb]

theorem member?_drop : (c.drop a).1.member? b = if b = a then none else c.member? b :=
  lookup_filter

theorem node?_install : c.install.1.node? b =
    (c.node? b).map fun n => if b ∈ c.roster then n.install ⟨c.nextView, c.roster⟩ else n := by
  rw [node?_eq, node?_eq, member?_install]
  cases c.member? b with
  | none => rfl
  | some k => cases k <;> by_cases hr : b ∈ c.roster <;> simp [hr, Member.node?, Member.install]

theorem node?_add (hu : Unknown a c) :
    (c.add a m).node? b = if b = a then m.node? else c.node? b := by
  rw [node?_eq, node?_eq, member?_add]
  by_cases hb : b = a
  · rw [hb, hu.2.2, if_pos rfl, if_pos rfl]
    rfl
  · rw [if_neg hb, if_neg hb, Option.or_none]

theorem node?_drop : (c.drop a).1.node? b = if b = a then none else c.node? b := by
  rw [node?_eq, node?_eq, member?_drop]
  split <;> rfl

end Nodes

structure Placed (c : Cluster) : Prop where
  within : c.view.members ⊆ c.roster
  named : ∀ b n, c.node? b = some n → n.address = b
  position : ∀ b n, c.node? b = some n → b ∈ c.view.members →
    n.position = .of (c.place b) c.view.id c.view.members.length

theorem position_install {v : View} (hb : n.address ∈ v.members) :
    (n.install v).position = .of (ahead n.address v.members).length v.id v.members.length := by
  have hi : v.indexOf n.address = some (ahead n.address v.members).length := findIdx?_eq_ahead hb
  rw [Node.install, hi]
  dsimp only
  split <;> rfl

theorem address_install {v : View} : (n.install v).address = n.address := by
  rw [Node.install]
  dsimp only
  split <;> rfl

theorem Placed.install (h : ∀ b n, c.node? b = some n → n.address = b) : c.install.1.Placed := by
  refine ⟨List.Subset.refl _, fun b n hn => ?_, fun b n hn hb => ?_⟩
  all_goals
    rw [node?_install] at hn
    obtain ⟨k, hk, rfl⟩ := Option.map_eq_some_iff.mp hn
    obtain rfl := h b k hk
  · split
    · exact address_install
    · rfl
  · have hr : k.address ∈ c.roster := hb
    rw [if_pos hr]
    exact position_install hr

theorem Change.placed (h : Change away again c d) (hc : c.Placed) : d.Placed := by
  cases h with
  | join a m hu hm =>
    refine ⟨fun u hv => mem_register.mpr (.inr (hc.within hv)), fun b n hn => ?_,
      fun b n hn hb => ?_⟩
    · rw [node?_add hu] at hn
      split at hn
      next hb =>
        cases m with
        | node k =>
          cases hn
          rw [hb]
          exact hm n rfl
        | scripted k => cases hn
      next => exact hc.named b n hn
    · rw [node?_add hu] at hn
      split at hn
      next hba => exact absurd (hba ▸ hb) hu.2.1
      next => exact hc.position b n hn hb
  | register a ha =>
    exact ⟨fun u hv => mem_register.mpr (.inr (hc.within hv)), hc.named, hc.position⟩
  | install => exact .install hc.named
  | leave a ha => exact .install hc.named
  | drop a ha =>
    refine ⟨hc.within, fun b n hn => ?_, fun b n hn hb => ?_⟩
    all_goals
      rw [node?_drop] at hn
      split at hn
      · cases hn
    · exact hc.named b n hn
    · exact hc.position b n hn hb
  | work d hk hr ha =>
    refine ⟨by rw [hk.view, hr]; exact hc.within, fun b m hm => ?_, fun b m hm hb => ?_⟩
    all_goals obtain ⟨n, hn, hnm⟩ := hk.moves b m hm
    · exact (ha b n m hn hm).trans (hc.named b n hn)
    · have hp : m.position = n.position := by
        rcases hnm with rfl | hact
        · rfl
        · exact hact.later.position
      rw [hk.view] at hb
      rw [hp, hc.position b n hn hb, place, place, hk.view]

theorem History.placed (h : ReflTransGen (Change away again) c d) (hc : c.Placed) : d.Placed := by
  induction h with
  | refl => exact hc
  | tail _ hs ih => exact hs.placed ih

theorem placed_empty : ({} : Cluster).Placed :=
  ⟨List.Subset.refl _, fun _ _ hn => (nomatch hn), fun _ _ hn => (nomatch hn)⟩

structure Present (b : Address) (c : Cluster) : Prop where
  node : (c.node? b).isSome
  roster : b ∈ c.roster
  view : b ∈ c.view.members

theorem Change.present (h : Change away again c d) (hb : ¬ away b) (hc : c.Present b) :
    d.Present b := by
  have stays (a) (ha : away a) : b ≠ a := fun hba => hb (hba ▸ ha)
  cases h with
  | join a m hu hm =>
    have hba : b ≠ a := fun hba => hu.1 (hba ▸ hc.roster)
    refine ⟨?_, mem_register.mpr (.inr hc.roster), hc.view⟩
    rw [node?_add hu, if_neg hba]
    exact hc.node
  | register a ha => exact ⟨hc.node, mem_register.mpr (.inr hc.roster), hc.view⟩
  | install =>
    refine ⟨?_, hc.roster, hc.roster⟩
    rw [node?_install, Option.isSome_map]
    exact hc.node
  | leave a ha =>
    have hr : b ∈ (c.leave a).1.roster :=
      List.mem_filter.mpr ⟨hc.roster, decide_eq_true (stays a ha)⟩
    refine ⟨?_, hr, hr⟩
    rw [Cluster.leave, node?_install, Option.isSome_map]
    exact hc.node
  | drop a ha =>
    refine ⟨?_, hc.roster, hc.view⟩
    rw [node?_drop, if_neg (stays a ha)]
    exact hc.node
  | work d hk hr ha => exact ⟨hk.present b hc.node, hr ▸ hc.roster, hk.view ▸ hc.view⟩

theorem History.present (h : ReflTransGen (Change away again) c d) (hb : ¬ away b)
    (hc : c.Present b) : d.Present b := by
  induction h with
  | refl => exact hc
  | tail _ hs ih => exact hs.present hb ih

structure Before (P : Address → Prop) (b : Address) (l : List Address) (c : Cluster) : Prop where
  present : c.Present b
  roster : Trimmed P (ahead b l) (ahead b c.roster)
  view : Trimmed P (ahead b l) (ahead b c.view.members)

theorem Change.before (h : Change away again c d) (hb : ¬ away b) (hb' : ¬ again b)
    (hc : c.Before (fun a => away a ∨ again a) b l) : d.Before (fun a => away a ∨ again a) b l := by
  have hd : d.Present b := h.present hb hc.present
  have trim (a) (ha : away a ∨ again a) :
      Trimmed (fun a => away a ∨ again a) (ahead b l) (ahead b (c.roster.filter (· ≠ a))) := by
    have hab : a ≠ b := fun hab => ha.elim (fun h => hb (hab ▸ h)) fun h => hb' (hab ▸ h)
    rw [ahead_filter hab]
    exact hc.roster.tail ha
  have kept {a} (hab : a ≠ b) : b ∈ c.roster.filter (· ≠ a) :=
    List.mem_filter.mpr ⟨hc.present.roster, decide_eq_true hab.symm⟩
  cases h with
  | join a m hu hm =>
    have hab : a ≠ b := fun hab => hu.1 (hab ▸ hc.present.roster)
    have hf : c.roster.filter (· ≠ a) = c.roster :=
      List.filter_eq_self.mpr fun u hr => decide_eq_true fun hua => hu.1 (hua ▸ hr)
    refine ⟨hd, ?_, hc.view⟩
    change Trimmed _ _ (ahead b (c.roster.filter (· ≠ a) ++ [a]))
    rw [ahead_append (kept hab), hf]
    exact hc.roster
  | register a ha =>
    have hab : a ≠ b := fun hab => hb' (hab ▸ ha)
    refine ⟨hd, ?_, hc.view⟩
    change Trimmed _ _ (ahead b (c.roster.filter (· ≠ a) ++ [a]))
    rw [ahead_append (kept hab)]
    exact trim a (.inr ha)
  | install => exact ⟨hd, hc.roster, hc.roster⟩
  | leave a ha => exact ⟨hd, trim a (.inl ha), trim a (.inl ha)⟩
  | drop a ha => exact ⟨hd, hc.roster, hc.view⟩
  | work d hk hr ha => exact ⟨hd, hr ▸ hc.roster, hk.view ▸ hc.view⟩

theorem History.trimmed (h : ReflTransGen (Change away again) c d) (hb : ¬ away b) (hb' : ¬ again b)
    (hc : c.Present b) (hr : c.roster = c.view.members) :
    Trimmed (fun a => away a ∨ again a) (ahead b c.view.members) (ahead b d.view.members) := by
  have hbefore : d.Before (fun a => away a ∨ again a) b c.view.members := by
    induction h with
    | refl => exact ⟨hc, hr ▸ .refl .., .refl ..⟩
    | tail _ hs ih => exact hs.before hb hb' ih
  exact hbefore.view

/-- What a node has stamped it reads as stamped as long as its place stays, and else as the
    component of the member that has had its new place. Its place stays if nobody ahead of it
    leaves or registers again. -/
theorem seq_stamp_iff_place (hc : History {} c) (hn : c.node? b = some n)
    (hb : b ∈ c.view.members) (h : Stays b c d) :
    ∃ m, d.node? b = some m ∧
      (∀ base k, m.position.seq (n.position.stamp base k) =
        if d.place b = c.place b then k else base.component (d.place b)) ∧
      ((∀ v, m.position.seq v = n.position.seq v) ↔ d.place b = c.place b) ∧
      (c.roster = c.view.members →
        ReflTransGen (Change (· ∉ b :: ahead b c.view.members) (· ∉ b :: ahead b c.view.members)) c d →
        d.place b = c.place b) := by
  have hcp : c.Placed := History.placed hc placed_empty
  have hdp : d.Placed := History.placed h hcp
  have hpresent : c.Present b := ⟨Option.isSome_of_eq_some hn, hcp.within hb, hb⟩
  obtain ⟨hm, -, hbd⟩ := History.present h (by simp) hpresent
  obtain ⟨m, hm⟩ := Option.isSome_iff_exists.mp hm
  have hpn : n.position.index = c.place b := by rw [hcp.position b n hn hb]; rfl
  have hpm : m.position.index = d.place b := by rw [hdp.position b m hm hbd]; rfl
  refine ⟨m, hm, fun base k => ?_, ⟨fun hv => ?_, fun hp v => ?_⟩, fun hr hk => ?_⟩
  · rw [Position.seq, Position.stamp, Version.component_withComponent, hpn, hpm]
    rfl
  · -- a version that only the old place raises
    have hstamp := hv (n.position.stamp ⟨0, 0, []⟩ 1)
    rw [Position.seq_stamp, Position.seq, Position.stamp, Version.component_withComponent, hpn,
      hpm] at hstamp
    by_contra hne
    rw [if_neg hne] at hstamp
    cases hstamp
  · rw [Position.seq, Position.seq, hpn, hpm, hp]
  · have htrim := History.trimmed hk (by simp) (by simp) hpresent hr
    rw [place, place, htrim.eq]
    intro a ha
    simp [ha]

section Pair

def elder : Address := ⟨0⟩

def younger : Address := ⟨1⟩

def joined : Cluster := ((({} : Cluster).join elder {}).join younger {}).install.1

def prepared : Cluster :=
  ((joined.editNode younger (·.begin.2)).editNode younger (·.write 0 ⟨"k", some [1]⟩)).editNode
    younger (fun n => (n.prepare 0 0).1)

def bereft : Cluster := (prepared.leave elder).1

theorem Change.call {g : Node → Node} (hg : ∀ n : Node, n.Act (g n) ∧ (g n).address = n.address) :
    Change away again c (c.editNode a g) := by
  refine .work c _ (.editNode fun n _ => (hg n).1) rfl fun b n m hn hm => ?_
  rw [node?_editNode, hn] at hm
  cases hm
  split
  · exact (hg n).2
  · rfl

theorem history_prepared : History {} prepared := by
  have unknown (a : Address) (c : Cluster) (hr : a ∉ c.roster) (hv : a ∉ c.view.members)
      (hm : c.member? a = none) : History c (c.join a {}) :=
    .single (.join c a _ ⟨hr, hv, hm⟩ fun n hn => by cases hn; rfl)
  have called (c : Cluster) (g : Node → Node)
      (hg : ∀ n : Node, n.Act (g n) ∧ (g n).address = n.address) :
      History c (c.editNode younger g) := .single (.call hg)
  refine (unknown elder {} (by decide) (by decide) rfl).trans
    ((unknown younger _ (by decide) (by decide) rfl).trans (.head (.install _) ?_))
  exact (called _ _ fun n => ⟨.begin n, rfl⟩).trans
    ((called _ _ fun n => ⟨.write n _ _, rfl⟩).trans (called _ _ fun n => ⟨.prepare n _ _, rfl⟩))

theorem stays_bereft : Stays younger prepared bereft := .single (.leave _ elder (by decide))

theorem seq_stamp_iff_place_bereft : prepared.place younger = 1 ∧ bereft.place younger = 0 ∧
    ∃ m, bereft.node? younger = some m ∧
      ∀ base k, m.position.seq ((Position.of 1 1 2).stamp base k) = base.component 0 := by
  have hn : prepared.node? younger =
      some ((prepared.node? younger).getD (Node.create younger {})) := rfl
  have hp : prepared.place younger = 1 := by decide +kernel
  have hq : bereft.place younger = 0 := by decide +kernel
  obtain ⟨m, hm, hv, -⟩ := seq_stamp_iff_place history_prepared hn (by decide +kernel) stays_bereft
  refine ⟨hp, hq, m, hm, fun base k => ?_⟩
  have hk := hv base k
  rwa [hp, hq, if_neg (by decide)] at hk

/-- What the younger member has stamped as its first sequence it reads as zero once it stands
    first. -/
theorem stamp_misread : History {} prepared ∧ Stays younger prepared bereft ∧
    (prepared.node? younger).map (fun n => ((n.transaction 0).version,
      n.position.seq (n.transaction 0).version)) = some (⟨0, 1, [0, 1]⟩, 1) ∧
    (bereft.node? younger).map (fun n => ((n.transaction 0).version,
      n.position.seq (n.transaction 0).version)) = some (⟨0, 1, [0, 1]⟩, 0) :=
  ⟨history_prepared, stays_bereft, by decide +kernel, by decide +kernel⟩

end Pair

end Multiversion.Cluster
