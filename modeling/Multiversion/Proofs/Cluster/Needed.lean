import Mathlib
import Multiversion.Proofs.Cluster.Purge

/-!
What becomes of a view in the long run. A cycle takes it when no log refers to it any more, and a
transaction that was stamped in it may still be on its way to a log.
-/

namespace Multiversion

open Relation (ReflTransGen)

namespace Node

abbrev Works : Node → Node → Prop :=
  ReflTransGen fun n m => n.Act m ∧ m.address = n.address ∧ m.views = n.views

variable {n m : Node}

theorem Works.frame (h : n.Works m) :
    m.address = n.address ∧ m.views = n.views ∧ n.log.current.Grows m.log.current := by
  induction h with
  | refl => exact ⟨rfl, rfl, .refl⟩
  | tail _ hs ih =>
    obtain ⟨hact, ha, hv⟩ := hs
    exact ⟨ha.trans ih.1, hv.trans ih.2.1, ih.2.2.trans hact.grows⟩

theorem works_publish (n : Node) (txs : List Committed) (won : List Nat) (now : Time) :
    n.Works (n.publish txs won now).1 := by
  rw [publish_eq]
  refine .head ⟨.insert n txs, rfl, rfl⟩ (.head ⟨.mark _ won now, rfl, rfl⟩ ?_)
  refine .single ⟨.detach .., ?_⟩
  simp only [detachBatch, notifyCommitted]
  split <;> exact ⟨rfl, rfl⟩

theorem works_applyReady (n : Node) (now : Time) : n.Works (n.applyReady now).1 := by
  have hclaim : n.Works n.claimReady.1 := .single ⟨.claim n, rfl, rfl⟩
  have happly (txs : List Committed) (l : Node) : l.Works (txs.foldl applyOne l) := by
    induction txs generalizing l with
    | nil => exact .refl
    | cons tx txs ih => exact .head ⟨.apply l tx, rfl, rfl⟩ (ih _)
  obtain ⟨⟨l, won⟩, hc⟩ : ∃ c, n.claimReady = c := ⟨_, rfl⟩
  rw [hc] at hclaim
  rw [applyReady, hc]
  cases won with
  | nil => exact hclaim
  | cons e won =>
    have happlied := happly (l.sequencer.records (e :: won)) l
    exact hclaim.trans (happlied.trans (works_publish _ _ (e :: won) now))

end Node

namespace Cluster

/-- Members of `away` may be dropped. -/
inductive Turn (away : Address → Prop) : Cluster → Cluster → Prop
  | change (c) (k : Call) (hk : ∀ a, k = .drop a → away a) : Turn away c (k.act c)
  | call (c a g) (hg : ∀ n, c.node? a = some n → n.Works (g n)) : Turn away c (c.editNode a g)
  | versionGc (c a ms) (ha : (c.node? a).isSome) : Turn away c (c.versionGc a ms).1
  | viewGc (c a ms) (ha : (c.node? a).isSome) : Turn away c (c.viewGc a ms).1

abbrev Turns (away : Address → Prop) := ReflTransGen (Turn away)

variable {c d : Cluster} {a b : Address} {n : Node} {k : Call} {v : View}
  {away : Address → Prop}

section Nodes

theorem log_install : (n.install v).log = n.log := by
  rw [Node.install]
  dsimp only
  split <;> cases v.indexOf n.address <;> rfl

theorem Regular.kept_install (h : c.Regular) (hn : c.node? b = some n) :
    ∃ m, c.install.1.node? b = some m ∧ m.log = n.log ∧ ∀ v ∈ n.views.views, v ∈ m.views.views := by
  rw [node?_install, hn]
  refine ⟨_, rfl, ?_⟩
  split
  · obtain ⟨vs, hvs, hlt⟩ := h.records b n hn
    refine ⟨log_install, fun v hv => ?_⟩
    rw [views_install]
    refine (ViewRegistry.mem_insert hvs.valid.sorted).mpr (.inr ⟨hv, ?_⟩)
    exact (hlt v (hvs.mem hv)).ne
  · exact ⟨rfl, fun v hv => hv⟩

theorem Regular.kept_act (h : c.Regular) (hk : k ≠ .drop b) (hn : c.node? b = some n) :
    ∃ m, (k.act c).node? b = some m ∧ m.log = n.log ∧ ∀ v ∈ n.views.views, v ∈ m.views.views := by
  have same {d : Cluster} (hd : d.node? b = c.node? b) :
      ∃ m, d.node? b = some m ∧ m.log = n.log ∧ ∀ v ∈ n.views.views, v ∈ m.views.views :=
    ⟨n, hd.trans hn, rfl, fun v hv => hv⟩
  cases k with
  | join a config =>
    refine same ?_
    rw [node?_eq] at hn
    obtain ⟨m, hm, -⟩ := Option.bind_eq_some_iff.mp hn
    change (c.add a _).node? b = _
    rw [node?_eq, node?_eq, member?_add, hm]
    rfl
  | drop a =>
    refine same ?_
    change (c.drop a).1.node? b = _
    rw [node?_drop, if_neg fun hb => hk (by rw [hb])]
  | leave a => exact (h.left a).kept_install hn
  | install => exact h.kept_install hn
  | _ => exact same rfl

theorem versionGc_nodes (ha : (c.node? a).isSome) (ms : Nat) : Frame c (c.versionGc a ms).1 ∧
    ∀ b n, c.node? b = some n → ∃ m, (c.versionGc a ms).1.node? b = some m ∧ n.Spares m := by
  obtain ⟨n, hn⟩ := Option.isSome_iff_exists.mp ha
  refine Cycle.versions_induct (P := fun d => Frame c d ∧
    ∀ b n, c.node? b = some n → ∃ m, d.node? b = some m ∧ n.Spares m)
    ⟨.refl c, fun b n hn => ⟨n, hn, .refl n⟩⟩ (fun d ⟨hf, hd⟩ => ?_) (fun d f ⟨hf, hd⟩ hs => ?_) ms
  · have hheard : Heard .minimumVersion (d.view.members.filter (· ≠ a)) d
        ((transport a).ask d .minimumVersion).1 := heard_deliverAll
    refine ⟨hf.trans hheard.toFrame, fun b n hn => ?_⟩
    obtain ⟨m, hm, hnm⟩ := hd b n hn
    obtain ⟨k, hk, hmk⟩ := hheard.asked (fun _ => rfl) hm
    exact ⟨k, hk, hnm.trans hmk.spares⟩
  · refine ⟨hf.trans (.editNode f), fun b n hn => ?_⟩
    obtain ⟨m, hm, hnm⟩ := hd b n hn
    refine exists_editNode hm (fun hb => ?_) fun _ => hnm
    subst hb
    rw [node_transport hm] at hs
    exact hnm.trans hs

theorem viewGc_nodes (hp : c.Plain) (ha : (c.node? a).isSome) (ms : Nat)
    (hn : c.node? b = some n) : ∃ m, (c.viewGc a ms).1.node? b = some m ∧
      (Node.Sees n.views n m ∨ ∃ least, TakesPart c a b ∧ IsLeast (c.referred a) least ∧
        Node.Sees (n.views.purge least).1 n m) := by
  obtain ⟨l, hl⟩ := Option.isSome_iff_exists.mp ha
  cases hc : c.coordinates a with
  | false => exact ((viewGc_of_not_coordinates hc ms).2 b n hn).imp fun m h => h.imp_right .inl
  | true =>
    rcases viewGc_plain hp hl hc ms with ⟨e, -, -, hsees⟩ | ⟨least, -, -, hleast, hsees⟩
    · exact (hsees b n hn).imp fun m h => h.imp_right .inl
    · obtain ⟨m, hm, ⟨hpart, hnm⟩ | ⟨-, hnm⟩⟩ := hsees b n hn
      · exact ⟨m, hm, .inr ⟨least, hpart, hleast, hnm⟩⟩
      · exact ⟨m, hm, .inl hnm⟩

end Nodes

theorem Turn.regular (h : Turn away c d) (hc : c.Regular) : d.Regular := by
  cases h with
  | change k hk => exact hc.act k
  | call a g hg =>
    refine hc.editNode fun n hn => ?_
    obtain ⟨ha, hv, -⟩ := (hg n hn).frame
    exact ⟨ha, hv⟩
  | versionGc a ms ha =>
    obtain ⟨hf, hnodes⟩ := versionGc_nodes ha ms
    refine hc.of_frame hf fun b n hn => ?_
    obtain ⟨m, hm, haddress, hviews, -⟩ := hnodes b n hn
    exact ⟨m, hm, haddress, .inl hviews⟩
  | viewGc a ms ha =>
    refine hc.of_frame (frame_viewGc ms) fun b n hn => ?_
    obtain ⟨m, hm, hnm | ⟨least, -, -, hnm⟩⟩ := viewGc_nodes hc.plain ha ms hn
    · exact ⟨m, hm, hnm.address, .inl hnm.views⟩
    · exact ⟨m, hm, hnm.address, .inr ⟨least, hnm.views⟩⟩

theorem Turns.regular (h : Turns away c d) (hc : c.Regular) : d.Regular := by
  induction h with
  | refl => exact hc
  | tail _ hs ih => exact hs.regular ih

/-- A cycle takes `v` from the member at `b`. No log of those who take part in it refers to `v`, nor
    to an older view. -/
def Takes (b : Address) (v : View) (c d : Cluster) : Prop :=
  ∃ a ms n m, d = (c.viewGc a ms).1 ∧ TakesPart c a b ∧ c.node? b = some n ∧ d.node? b = some m ∧
    v ∈ n.views.views ∧ v ∉ m.views.views ∧ ∀ id ∈ c.referred a, v.id < id

theorem Turn.kept (h : Turn away c d) (hc : c.Regular) (hb : ¬ away b) (hn : c.node? b = some n) :
    ∃ m, d.node? b = some m ∧ n.log.current.view ≤ m.log.current.view ∧
      ∀ v ∈ n.views.views, v ∈ m.views.views ∨
        Takes b v c d ∧ ∀ w ∈ m.log.versions, v.id < w.view := by
  cases h with
  | change k hk =>
    obtain ⟨m, hm, hlog, hviews⟩ := hc.kept_act (fun hd => hb (hk b hd)) hn
    exact ⟨m, hm, by rw [hlog], fun v hv => .inl (hviews v hv)⟩
  | call a g hg =>
    refine exists_editNode hn (fun hba => ?_) fun _ => ⟨le_rfl, fun v hv => .inl hv⟩
    obtain ⟨-, hviews, hgrows⟩ := (hg n (hba ▸ hn)).frame
    exact ⟨hgrows.le.2, fun v hv => .inl (hviews ▸ hv)⟩
  | versionGc a ms ha =>
    obtain ⟨m, hm, -, hviews, hcurrent⟩ := (versionGc_nodes ha ms).2 b n hn
    exact ⟨m, hm, by rw [hcurrent], fun v hv => .inl (hviews ▸ hv)⟩
  | viewGc a ms ha =>
    obtain ⟨m, hm, hnm⟩ := viewGc_nodes hc.plain ha ms hn
    have hlog : m.log = n.log := by
      rcases hnm with hnm | ⟨_, -, -, hnm⟩ <;> exact congrArg Sequencer.log hnm.sequencer
    refine ⟨m, hm, by rw [hlog], fun v hv => ?_⟩
    rcases hnm with hnm | ⟨least, hpart, hleast, hnm⟩
    · exact .inl (hnm.views ▸ hv)
    · by_cases hkept : v ∈ m.views.views
      · exact .inl hkept
      · have hlt : v.id < least := by
          by_contra hle
          rw [hnm.views] at hkept
          exact hkept (List.mem_filter.mpr ⟨hv, by simp [Nat.le_of_not_lt hle]⟩)
        have hfar (id) (hid : id ∈ c.referred a) : v.id < id := hlt.trans_le (hleast.2 hid)
        refine .inr ⟨⟨a, ms, n, m, rfl, hpart, hn, hm, hv, hkept, hfar⟩, fun w hw => ?_⟩
        rw [hlog] at hw
        exact hfar _ ⟨b, n, w, hpart, hn, hw, rfl⟩

/-- What reaches the history of the member at `b` is of its current view at that time, or of a
    later. -/
def InOrder (b : Address) (c d : Cluster) : Prop :=
  Turn (· ≠ b) c d ∧ ∀ n m, c.node? b = some n → d.node? b = some m → ∀ e ∈ m.log.history,
    e ∈ n.log.history ∨ n.log.current.view ≤ e.version.view

theorem Turns.kept (h : Turns (· ≠ b) c d) (hc : c.Regular) (hn : c.node? b = some n)
    (hv : v ∈ n.views.views) : ∃ m, d.node? b = some m ∧
      (v ∈ m.views.views ∨ v.id < m.log.current.view ∧
        ∃ c₁ d₁, Turns (· ≠ b) c c₁ ∧ Takes b v c₁ d₁ ∧ Turns (· ≠ b) d₁ d) := by
  induction h with
  | refl => exact ⟨n, hn, .inl hv⟩
  | @tail d e hd hs ih =>
    obtain ⟨m, hm, hkept⟩ := ih
    obtain ⟨k, hk, hle, hviews⟩ := hs.kept (Turns.regular hd hc) (by simp) hm
    refine ⟨k, hk, ?_⟩
    rcases hkept with hkept | ⟨hlt, c₁, d₁, h₁, htakes, h₂⟩
    · refine (hviews v hkept).imp_right fun ⟨htakes, hfar⟩ => ?_
      exact ⟨hfar _ (List.mem_cons_self ..), d, e, hd, htakes, .refl⟩
    · exact .inr ⟨hlt.trans_le hle, c₁, d₁, h₁, htakes, h₂.tail hs⟩

theorem Turns.kept_inOrder (h : ReflTransGen (InOrder b) c d) (hc : c.Regular)
    (hn : c.node? b = some n) (hv : v ∈ n.views.views) : d.Regular ∧ ∃ m, d.node? b = some m ∧
      (v ∈ m.views.views ∨ ∀ w ∈ m.log.versions, v.id < w.view) := by
  induction h with
  | refl => exact ⟨hc, n, hn, .inl hv⟩
  | tail _ hs ih =>
    obtain ⟨hd, m, hm, hkept⟩ := ih
    obtain ⟨hturn, horder⟩ := hs
    obtain ⟨k, hk, hle, hviews⟩ := hturn.kept hd (by simp) hm
    refine ⟨hturn.regular hd, k, hk, ?_⟩
    rcases hkept with hkept | hfar
    · exact (hviews v hkept).imp_right (·.2)
    · right
      have hcurrent : v.id < m.log.current.view := hfar _ (List.mem_cons_self ..)
      refine List.forall_mem_cons.mpr ⟨hcurrent.trans_le hle, ?_⟩
      refine List.forall_mem_map.mpr fun e he => ?_
      rcases horder m k hm hk e he with he | he
      · exact hfar _ (List.mem_cons_of_mem _ (List.mem_map_of_mem he))
      · exact hcurrent.trans_le he

/-- A view that a member has been told of stays with it unless a cycle takes it when no log of those
    who take part refers to it or to an older one. So the view of the current version is always
    there, and so are those of the history unless a version reaches it that was stamped in an older
    view than the current version then has. -/
theorem view_kept_while_referred (hc : Turns (fun _ => True) {} c) (hn : c.node? b = some n)
    (hv : v ∈ n.views.views) (h : Turns (· ≠ b) c d) : ∃ m, d.node? b = some m ∧
      (v ∈ m.views.views ∨
        ∃ c₁ d₁, Turns (· ≠ b) c c₁ ∧ Takes b v c₁ d₁ ∧ Turns (· ≠ b) d₁ d) ∧
      (m.log.current.view ≤ v.id → v ∈ m.views.views) ∧
      (ReflTransGen (InOrder b) c d → ∀ w ∈ m.log.versions, w.view ≤ v.id → v ∈ m.views.views) := by
  have hregular : c.Regular := hc.regular (.after [])
  obtain ⟨m, hm, hkept⟩ := h.kept hregular hn hv
  refine ⟨m, hm, hkept.imp_right (·.2), fun hle => ?_, fun ho w hw hle => ?_⟩
  · exact hkept.resolve_right fun hlt => Nat.not_lt.mpr hle hlt.1
  · obtain ⟨-, k, hk, hkept⟩ := Turns.kept_inOrder ho hregular hn hv
    obtain rfl : m = k := Option.some.inj (hm.symm.trans hk)
    exact hkept.resolve_right fun hfar => Nat.not_lt.mpr hle (hfar w hw)

section Late

def pending : Cluster :=
  ((((after [.join elder {}, .install]).editNode elder (·.learn ⟨1, 0, [1]⟩)).editNode elder
    (·.begin.2)).editNode elder (·.write 0 ⟨"k", some [1]⟩)).editNode elder
      fun n => (n.prepare 0 0).1

def collected : Cluster :=
  (((Call.install.act pending).editNode elder (·.learn ⟨2, 0, [3]⟩)).viewGc elder 0).1

def late : Cluster :=
  (collected.editNode elder fun n =>
    (n.commit ⟨elder, 1⟩ (n.transaction 0).version 0).1).editNode elder fun n => (n.applyReady 0).1

theorem Turns.call {g : Node → Node} (hg : ∀ n : Node, n.Act (g n) ∧
    (g n).address = n.address ∧ (g n).views = n.views) : Turns away c (c.editNode a g) :=
  .single (.call c a g fun n _ => .single (hg n))

theorem turns_pending : Turns away {} pending := by
  have change (c) (k : Call) (hk : ∀ a, k ≠ .drop a) : Turns away c (k.act c) :=
    .single (.change c k fun a ha => absurd ha (hk a))
  refine (change {} (.join elder {}) (by simp)).trans ((change _ .install (by simp)).trans ?_)
  refine (Turns.call fun n => ⟨.learn n _, rfl, rfl⟩).trans
    ((Turns.call fun n => ⟨.begin n, rfl, rfl⟩).trans
      ((Turns.call fun n => ⟨.write n _ _, rfl, rfl⟩).trans (Turns.call fun n => ?_)))
  exact ⟨.prepare n 0 0, rfl, rfl⟩

theorem turns_late : Turns away pending late := by
  have install : Turns away pending (Call.install.act pending) :=
    .single (.change pending .install fun a ha => nomatch ha)
  have collect : Turns away pending collected :=
    (install.trans (Turns.call fun n => ⟨.learn n _, rfl, rfl⟩)).tail
      (.viewGc _ elder 0 (by decide +kernel))
  refine (collect.tail (.call _ elder _ fun n _ => ?_)).tail (.call _ elder _ fun n _ => ?_)
  · exact .head ⟨.raise n _, rfl, rfl⟩ (.single ⟨.settle .., rfl, rfl⟩)
  · exact n.works_applyReady 0

theorem view_kept_while_referred_late :
    Turns (fun _ => True) {} pending ∧ Turns (· ≠ elder) pending late ∧
      ∃ c d, Turns (· ≠ elder) pending c ∧ Takes elder ⟨1, [elder]⟩ c d ∧
        Turns (· ≠ elder) d late := by
  have hn : pending.node? elder = some ((pending.node? elder).getD (Node.create elder {})) := rfl
  have hm : late.node? elder = some ((late.node? elder).getD (Node.create elder {})) := rfl
  have hlate : Turns (· ≠ elder) pending late := turns_late
  obtain ⟨m, hm', hkept, -⟩ := view_kept_while_referred (v := ⟨1, [elder]⟩) turns_pending hn
    (by decide +kernel) hlate
  obtain rfl := Option.some.inj (hm.symm.trans hm')
  exact ⟨turns_pending, hlate, hkept.resolve_left (by decide +kernel)⟩

/-- The version that was prepared in the first view has reached the history, the member is where it
    was, and the first view is gone. -/
theorem referred_view_missing :
    Turns (fun _ => True) {} pending ∧ Turns (· ≠ elder) pending late ∧
    (pending.node? elder).map (fun n => (n.views.views.map (·.id), n.position.index)) =
      some ([1], 0) ∧
    (late.node? elder).map (fun n => (n.log.history.map (·.version), n.views.views.map (·.id),
      n.position.index)) = some ([⟨1, 0, [2]⟩], [2], 0) :=
  ⟨turns_pending, turns_late, by decide +kernel, by decide +kernel⟩

end Late

end Cluster

end Multiversion
