import Mathlib
import Multiversion.Proofs.Cluster.Heard
import Multiversion.Proofs.Cluster.Membership

namespace Multiversion.Cluster

inductive Call where
  | join (a : Address) (config : Config)
  | register (a : Address)
  | leave (a : Address)
  | drop (a : Address)
  | setFault (a : Address) (f : Fault)
  | clearFault (a : Address)
  | install
  deriving DecidableEq

namespace Call

def act (c : Cluster) : Call → Cluster
  | join a config => c.join a config
  | register a => c.register a
  | leave a => (c.leave a).1
  | drop a => (c.drop a).1
  | setFault a f => c.setFault a f
  | clearFault a => c.clearFault a
  | install => c.install.1

def enters : Call → Option Address
  | join a _ | register a => some a
  | _ => none

def ends : Call → Option Address
  | join a _ | register a | leave a => some a
  | _ => none

def installs : Call → Bool
  | leave _ | install => true
  | _ => false

end Call

def after (calls : List Call) : Cluster := calls.foldl Call.act {}

/-- Who is registered, in the order in which the registrations were made that still hold. -/
def registered : List Call → List Address
  | [] => []
  | k :: calls =>
    match k.enters with
    | some a => if calls.any (·.ends = some a) then registered calls else a :: registered calls
    | none => registered calls

variable {c d : Cluster} {a b : Address} {n : Node} {m : Member} {k : Call} {calls : List Call}

theorem registered_append : registered (calls ++ [k]) =
    (registered calls).filter (fun a => k.ends ≠ some a) ++ k.enters.toList := by
  induction calls with
  | nil =>
    simp only [List.nil_append, registered, List.any_nil, List.filter_nil]
    cases k.enters <;> rfl
  | cons j calls ih =>
    rw [List.cons_append, registered, registered]
    cases j.enters with
    | none => exact ih
    | some a =>
      dsimp only
      rw [List.any_append]
      cases calls.any (·.ends = some a) with
      | true => exact ih
      | false =>
        by_cases hk : k.ends = some a
        · simp [hk, ih]
        · simp [hk, ih]

theorem roster_act : (k.act c).roster =
    c.roster.filter (fun a => k.ends ≠ some a) ++ k.enters.toList := by
  have same (l : List Address) : l = l.filter (fun a => none ≠ some a) ++ none.toList := by simp
  have other (a : Address) (l : List Address) :
      l.filter (· ≠ a) = l.filter (fun b => some a ≠ some b) := by
    refine List.filter_congr fun b _ => ?_
    simp [eq_comm]
  cases k with
  | join a config => exact congrArg (· ++ [a]) (other a c.roster)
  | register a => exact congrArg (· ++ [a]) (other a c.roster)
  | leave a => exact (other a c.roster).trans (List.append_nil _).symm
  | _ => exact same c.roster

theorem after_append : after (calls ++ [k]) = k.act (after calls) := List.foldl_concat ..

theorem roster_after : (after calls).roster = registered calls := by
  induction calls using List.reverseRecOn with
  | nil => rfl
  | append_singleton calls k ih => rw [after_append, roster_act, registered_append, ih]

section Nodes

theorem views_install {v : View} : (n.install v).views = n.views.install v := by
  rw [Node.install]
  dsimp only
  split <;> rfl

end Nodes

structure Regular (c : Cluster) : Prop where
  plain : c.Plain
  distinct : c.roster.Nodup
  view_lt : c.view.id < c.nextView
  named : ∀ b n, c.node? b = some n → n.address = b
  records : ∀ b n, c.node? b = some n →
    ∃ vs, ViewRegistry.Records vs n.views ∧ ∀ v ∈ vs, v.id < c.nextView

namespace Regular

theorem install (h : c.Regular) : c.install.1.Regular := by
  have newer : c.nextView < c.install.1.nextView := Nat.lt_succ_self _
  refine ⟨fun b m hm => ?_, h.distinct, newer, (Placed.install h.named).named, fun b n hn => ?_⟩
  · rw [member?_install] at hm
    obtain ⟨k, hk, rfl⟩ := Option.map_eq_some_iff.mp hm
    obtain ⟨n, rfl⟩ := h.plain b k hk
    split <;> exact ⟨_, rfl⟩
  · rw [node?_install] at hn
    obtain ⟨k, hk, rfl⟩ := Option.map_eq_some_iff.mp hn
    obtain ⟨vs, hvs, hlt⟩ := h.records b k hk
    have hlt' (v) (hv : v ∈ vs) : v.id < c.install.1.nextView := (hlt v hv).trans newer
    split
    · rw [views_install]
      refine ⟨_, hvs.install _, fun v hv => ?_⟩
      rcases List.mem_append.mp hv with hv | hv
      · exact hlt' v hv
      · rwa [List.mem_singleton.mp hv]
    · exact ⟨vs, hvs, hlt'⟩

theorem register (h : c.Regular) (a : Address) : (c.register a).Regular := by
  refine ⟨h.plain, ?_, h.view_lt, h.named, h.records⟩
  refine List.Nodup.append (h.distinct.filter _) (List.nodup_singleton a) ?_
  simp [List.disjoint_singleton]

theorem join (h : c.Regular) (a : Address) (config : Config) : (c.join a config).Regular := by
  have member {b m} (hm : (c.join a config).member? b = some m) :
      c.member? b = some m ∨ b = a ∧ m = .node (.create a config) := by
    rw [Cluster.join, member?_add] at hm
    rcases Option.or_eq_some_iff.mp hm with hm | ⟨-, hm⟩
    · exact .inl hm
    · split at hm
      next hb => exact .inr ⟨hb, (Option.some.inj hm).symm⟩
      next => cases hm
  have node {b n} (hn : (c.join a config).node? b = some n) :
      c.node? b = some n ∨ b = a ∧ n = .create a config := by
    rw [node?_eq] at hn ⊢
    obtain ⟨m, hm, hmn⟩ := Option.bind_eq_some_iff.mp hn
    rcases member hm with hm | ⟨hb, rfl⟩
    · exact .inl (Option.bind_eq_some_iff.mpr ⟨m, hm, hmn⟩)
    · exact .inr ⟨hb, (Option.some.inj hmn).symm⟩
  refine ⟨fun b m hm => ?_, (h.register a).distinct, h.view_lt, fun b n hn => ?_, fun b n hn => ?_⟩
  · rcases member hm with hm | ⟨-, rfl⟩
    · exact h.plain b m hm
    · exact ⟨_, rfl⟩
  · rcases node hn with hn | ⟨rfl, rfl⟩
    · exact h.named b n hn
    · rfl
  · rcases node hn with hn | ⟨-, rfl⟩
    · exact h.records b n hn
    · exact ⟨[], .empty, List.forall_mem_nil _⟩

theorem drop (h : c.Regular) (a : Address) : (c.drop a).1.Regular := by
  have node {b n} (hn : (c.drop a).1.node? b = some n) : c.node? b = some n := by
    rw [node?_drop] at hn
    split at hn
    · cases hn
    · exact hn
  refine ⟨fun b m hm => ?_, h.distinct, h.view_lt, fun b n hn => h.named b n (node hn),
    fun b n hn => h.records b n (node hn)⟩
  rw [member?_drop] at hm
  split at hm
  · cases hm
  · exact h.plain b m hm

theorem of_frame (h : c.Regular) (hf : Frame c d)
    (hnode : ∀ b n, c.node? b = some n → ∃ m, d.node? b = some m ∧ m.address = n.address ∧
      (m.views = n.views ∨ ∃ least, m.views = (n.views.purge least).1)) : d.Regular := by
  have node {b m} (hm : d.node? b = some m) : ∃ n, c.node? b = some n ∧ m.address = n.address ∧
      (m.views = n.views ∨ ∃ least, m.views = (n.views.purge least).1) := by
    cases hn : c.node? b with
    | none => cases (hf.absent b hn).symm.trans hm
    | some n =>
      obtain ⟨k, hk, hnk⟩ := hnode b n hn
      obtain rfl : k = m := Option.some.inj (hk.symm.trans hm)
      exact ⟨n, rfl, hnk⟩
  refine ⟨hf.plain h.plain, hf.roster ▸ h.distinct, ?_, fun b m hm => ?_, fun b m hm => ?_⟩
  · rw [hf.view, hf.nextView]
    exact h.view_lt
  · obtain ⟨n, hn, ha, -⟩ := node hm
    exact ha.trans (h.named b n hn)
  · obtain ⟨n, hn, -, hv⟩ := node hm
    obtain ⟨vs, hvs, hlt⟩ := h.records b n hn
    rw [hf.nextView]
    rcases hv with hv | ⟨least, hv⟩
    · exact ⟨vs, hv ▸ hvs, hlt⟩
    · exact ⟨vs, hv ▸ hvs.purge least, hlt⟩

theorem editNode {f : Node → Node} (h : c.Regular)
    (hf : ∀ n, c.node? a = some n → (f n).address = n.address ∧ (f n).views = n.views) :
    (c.editNode a f).Regular := by
  refine h.of_frame (.editNode f) fun b n hn => ?_
  refine exists_editNode hn (fun hb => ?_) fun _ => ⟨rfl, .inl rfl⟩
  exact (hf n (hb ▸ hn)).imp_right .inl

theorem left (h : c.Regular) (a : Address) :
    ({ c with roster := c.roster.filter (· ≠ a) }.clearFault a).Regular :=
  ⟨h.plain, h.distinct.filter _, h.view_lt, h.named, h.records⟩

theorem act (h : c.Regular) (k : Call) : (k.act c).Regular := by
  cases k with
  | join a config => exact h.join a config
  | register a => exact h.register a
  | leave a => exact (h.left a).install
  | drop a => exact h.drop a
  | setFault a f => exact ⟨h.plain, h.distinct, h.view_lt, h.named, h.records⟩
  | clearFault a => exact ⟨h.plain, h.distinct, h.view_lt, h.named, h.records⟩
  | install => exact h.install

theorem after (calls : List Call) : (after calls).Regular := by
  induction calls using List.reverseRecOn with
  | nil =>
    exact ⟨fun _ _ hm => (nomatch hm), List.nodup_nil, Nat.zero_lt_one, fun _ _ hn => (nomatch hn),
      fun _ _ hn => (nomatch hn)⟩
  | append_singleton calls k ih =>
    rw [after_append]
    exact ih.act k

end Regular

theorem nextView_act : c.nextView ≤ (k.act c).nextView := by
  cases k with
  | leave a => exact Nat.le_succ _
  | install => exact Nat.le_succ _
  | _ => exact le_rfl

theorem nextView_after {earlier : List Call} (h : earlier <+: calls) :
    (after earlier).nextView ≤ (after calls).nextView := by
  obtain ⟨later, rfl⟩ := h
  induction later using List.reverseRecOn with
  | nil => rw [List.append_nil]
  | append_singleton later k ih =>
    rw [← List.append_assoc, after_append]
    exact ih.trans nextView_act

structure Agrees (v : View) (b : Address) (n : Node) : Prop where
  index : v.indexOf b = some n.position.index
  view : n.position.view = v.id
  members : n.position.members = v.members.length
  current : n.views.current? = some v

theorem getElem?_of_indexOf {v : View} {i : Nat} (h : v.indexOf b = some i) :
    v.members[i]? = some b := by
  obtain ⟨hi, hb, -⟩ := List.findIdx?_eq_some_iff_getElem.mp h
  rw [List.getElem?_eq_getElem hi, of_decide_eq_true hb]

theorem coordinates_iff : c.coordinates b = true ↔ c.view.indexOf b = some 0 := by
  rw [coordinates, View.indexOf, decide_eq_true_eq]
  cases c.view.members with
  | nil => simp
  | cons a l => by_cases ha : a = b <;> simp [List.findIdx?_cons, ha]

theorem coordinates_of_notMem (h : b ∉ c.view.members) : c.coordinates b = false := by
  by_contra hc
  rw [Bool.not_eq_false, coordinates, decide_eq_true_eq] at hc
  exact h (List.mem_of_head? hc)

namespace Agrees

variable {v : View} {n n' : Node}

theorem index_lt (h : Agrees v b n) : n.position.index < v.members.length :=
  (List.getElem?_eq_some_iff.mp (getElem?_of_indexOf h.index)).1

theorem unique {b' : Address} (h : Agrees v b n) (h' : Agrees v b' n')
    (hi : n.position.index = n'.position.index) : b = b' := by
  have hget := getElem?_of_indexOf h.index
  rw [hi, getElem?_of_indexOf h'.index] at hget
  exact (Option.some.inj hget).symm

theorem coordinates_iff (h : Agrees c.view b n) :
    c.coordinates b = true ↔ n.position.index = 0 := by
  rw [Cluster.coordinates_iff, h.index, Option.some.injEq]

end Agrees

theorem Regular.agrees (h : c.Regular) (hb : b ∈ c.roster) (hn : c.install.1.node? b = some n) :
    Agrees c.install.1.view b n := by
  have hposition := (Placed.install h.named).position b n hn hb
  have hindex : c.install.1.view.indexOf b = some n.position.index := by
    rw [hposition]
    exact findIdx?_eq_ahead hb
  have hlt : n.position.index < c.install.1.view.members.length :=
    (List.getElem?_eq_some_iff.mp (getElem?_of_indexOf hindex)).1
  refine ⟨hindex, by rw [hposition]; rfl, ?_, ?_⟩
  · rw [hposition] at hlt ⊢
    exact Nat.max_eq_left hlt
  · rw [node?_install] at hn
    obtain ⟨k, hk, rfl⟩ := Option.map_eq_some_iff.mp hn
    obtain ⟨vs, hvs, hnew⟩ := h.records b k hk
    rw [if_pos hb, views_install]
    refine hvs.valid.current?_install fun w hw => ?_
    rcases hvs.current? with ⟨-, hc⟩ | ⟨v, hv, hc⟩
    · cases hc.symm.trans hw
    · obtain rfl : v = w := Option.some.inj (hc.symm.trans hw)
      exact (hnew v hv.mem).le

theorem exists_install {k : Call} (hk : k.installs = true) (calls : List Call) :
    ∃ d : Cluster, after (calls ++ [k]) = d.install.1 ∧ d.nextView = (after calls).nextView ∧
      d.Regular := by
  rw [after_append]
  cases k with
  | leave a => exact ⟨_, rfl, rfl, (Regular.after calls).left a⟩
  | install => exact ⟨_, rfl, rfl, .after calls⟩
  | _ => cases hk

/-- Whoever has come, left or gone before, the members agree on their positions once a view is
    installed. -/
theorem positions_agree (calls : List Call) (k : Call) (hk : k.installs = true) :
    let c := after (calls ++ [k])
    (∀ earlier, earlier <+: calls → (after earlier).view.id < c.view.id) ∧
    (c.view.members = registered (calls ++ [k]) ∧ c.view.members.Nodup) ∧
    (∀ b ∈ c.view.members, ∀ n, c.node? b = some n → Agrees c.view b n ∧
      n.position.index < c.view.members.length ∧
      (c.coordinates b = true ↔ n.position.index = 0) ∧
      ∀ b' ∈ c.view.members, ∀ n', c.node? b' = some n' → n.position.index = n'.position.index →
        b = b') ∧
    ∀ b, (c.coordinates b = true ↔ c.view.indexOf b = some 0) ∧
      (b ∉ registered (calls ++ [k]) → c.coordinates b = false) := by
  intro c
  obtain ⟨d, hd, hnext, hregular⟩ := exists_install hk calls
  have hc : c = d.install.1 := hd
  have hmembers : c.view.members = registered (calls ++ [k]) := by
    rw [← roster_after, hd, hc]
    rfl
  have agrees {b n} (hb : b ∈ c.view.members) (hn : c.node? b = some n) : Agrees c.view b n := by
    rw [hc] at hb hn ⊢
    exact hregular.agrees hb hn
  refine ⟨fun earlier he => ?_, ⟨hmembers, ?_⟩, fun b hb n hn => ?_, fun b => ⟨coordinates_iff, ?_⟩⟩
  · have hid : c.view.id = (after calls).nextView := by rw [hc, ← hnext]; rfl
    rw [hid]
    exact (Regular.after earlier).view_lt.trans_le (nextView_after he)
  · rw [hc]
    exact hregular.distinct
  · have hagrees := agrees hb hn
    exact ⟨hagrees, hagrees.index_lt, hagrees.coordinates_iff,
      fun b' hb' n' hn' => hagrees.unique (agrees hb' hn')⟩
  · rw [← hmembers]
    exact coordinates_of_notMem

section Comings

def latecomer : Address := ⟨2⟩

def comings : List Call :=
  [.join elder {}, .join younger {}, .join latecomer {}, .install, .drop younger, .register elder,
    .setFault latecomer .departed]

theorem positions_agree_comings : (Call.leave latecomer).installs = true ∧
    let c := after (comings ++ [.leave latecomer])
    c.view = ⟨2, [younger, elder]⟩ ∧ (after comings).view.id = 1 ∧
    (c.node? younger).isNone ∧
    (∃ n, c.node? elder = some n ∧ Agrees c.view elder n ∧ n.position.index = 1) ∧
    c.coordinates younger = true ∧ c.coordinates latecomer = false := by
  refine ⟨rfl, ?_⟩
  intro c
  obtain ⟨-, -, hnode, hcoordinates⟩ := positions_agree comings (.leave latecomer) rfl
  have hn : c.node? elder = some ((c.node? elder).getD (Node.create elder {})) := rfl
  have hindex : c.view.indexOf elder = some 1 := by decide +kernel
  have hagrees := (hnode elder (by decide +kernel) _ hn).1
  refine ⟨by decide +kernel, by decide +kernel, by decide +kernel, ⟨_, hn, hagrees, ?_⟩,
    (hcoordinates younger).1.mpr (by decide +kernel),
    (hcoordinates latecomer).2 (by decide +kernel)⟩
  exact Option.some.inj (hagrees.index.symm.trans hindex)

end Comings

end Multiversion.Cluster
