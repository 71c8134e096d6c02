import Mathlib
import Multiversion.Proofs.Gc.Cycle

namespace Multiversion.Cycle

variable {σ : Type} {t : Transport σ} {I : σ → Prop} {s : σ} {n : Node} {e : GcError}
  {replies : List (Address × Reply)} {stops : Bool}

/-- What the first round comes to at node `n`, `stops` telling whether it is stopped meanwhile. -/
def least? (n : Node) (replies : List (Address × Reply)) (stops : Bool) : Except GcError Nat :=
  if n.stopped then .error .interrupted
  else
    match (Gather.answers Response.view? n.config.rpcTimeoutMs replies).1 with
    | .error e => .error e
    | .ok ids => if stops then .error .interrupted else .ok (ids.foldl min n.log.oldestView)

theorem least?_ok {least : Nat} (h : least? n replies stops = .ok least) :
    n.stopped = false ∧ stops = false ∧ (∀ e ∈ replies, Gather.Passes Response.view? e.2) ∧
      least = (Gather.found Response.view? replies).foldl min n.log.oldestView := by
  rw [least?] at h
  cases hn : n.stopped with
  | true =>
    rw [hn] at h
    cases h
  | false =>
    rw [hn, if_neg Bool.false_ne_true] at h
    cases ha : (Gather.answers Response.view? n.config.rpcTimeoutMs replies).1 with
    | error e =>
      rw [ha] at h
      cases h
    | ok ids =>
      obtain ⟨hp, rfl⟩ := Gather.answers_ok ha
      rw [ha] at h
      cases stops with
      | true => cases h
      | false =>
        cases h
        exact ⟨rfl, rfl, hp, rfl⟩

theorem least?_of_passes (hn : n.stopped = false)
    (hp : ∀ e ∈ replies, Gather.Passes Response.view? e.2) : least? n replies false =
      .ok ((Gather.found Response.view? replies).foldl min n.log.oldestView) := by
  rw [least?, hn, if_neg Bool.false_ne_true, Gather.answers_of_passes hp]
  rfl

theorem least?_error (h : least? n replies stops = .error e) :
    e = .interrupted ∧
      (n.stopped = true ∨ stops = true ∧ ∀ e ∈ replies, Gather.Passes Response.view? e.2) ∨
    n.stopped = false ∧ Gather.Fails Response.view? n.config.rpcTimeoutMs replies e := by
  rw [least?] at h
  cases hn : n.stopped with
  | true =>
    rw [hn] at h
    cases h
    exact .inl ⟨rfl, .inl rfl⟩
  | false =>
    rw [hn, if_neg Bool.false_ne_true] at h
    cases ha : (Gather.answers Response.view? n.config.rpcTimeoutMs replies).1 with
    | error e =>
      rw [ha] at h
      cases h
      exact .inr ⟨rfl, Gather.answers_error ha⟩
    | ok ids =>
      rw [ha] at h
      cases stops with
      | true =>
        cases h
        exact .inl ⟨rfl, .inr ⟨rfl, (Gather.answers_ok ha).1⟩⟩
      | false => cases h

def purged (t : Transport σ) (s : σ) (least : Nat) : σ :=
  t.update s fun _ => ((t.node s).purgeViews least).1

def closed (t : Transport σ) (s : σ) (retry : Bool) (notices : List Notice) : σ :=
  t.update (t.update s fun n => { n with retryView := retry }) (·.count notices)

theorem closeViews_eq (ms : Nat) (result : Except GcError (Nat × Nat)) (heard : List Notice) :
    (closeViews t s ms result heard).2.1 = result.map (fun r => .views r.1 r.2) ∧
      ∃ retry notices, (closeViews t s ms result heard).1 = closed t s retry notices := by
  cases result with
  | ok r => exact ⟨rfl, _, _, rfl⟩
  | error e => exact ⟨rfl, _, _, rfl⟩

theorem node_closed (ht : t.Lawful I) (hs : I s) (retry : Bool) (notices : List Notice) :
    I (closed t s retry notices) ∧ ∃ metrics,
      t.node (closed t s retry notices) = { t.node s with retryView := retry, metrics } := by
  obtain ⟨hi, hn⟩ := ht.update s (fun n => { n with retryView := retry }) hs
  obtain ⟨hi', hn'⟩ := ht.update _ (·.count notices) hi
  refine ⟨hi', (t.node s).metrics.noteAll notices, hn'.trans ?_⟩
  rw [hn]
  rfl

theorem node_purged (ht : t.Lawful I) (hs : I s) (least : Nat) :
    I (purged t s least) ∧
      t.node (purged t s least) = { t.node s with views := ((t.node s).views.purge least).1 } :=
  ht.update s _ hs

theorem leastView_eq (ht : t.Lawful I) (hs : I s) (hn : (t.node s).stopped = false) :
    (leastView t s).1 = (t.ask s .minimumView).1 ∧
      (leastView t s).2.1 = least? (t.node s) (t.ask s .minimumView).2.1
        (t.node (t.ask s .minimumView).1).stopped := by
  obtain ⟨⟨u, replies, asked⟩, hu⟩ : ∃ u, t.ask s .minimumView = u := ⟨_, rfl⟩
  obtain ⟨-, stopped, workers, hnu⟩ := ht.ask s .minimumView hs
  rw [hu] at hnu ⊢
  have hconfig : (t.node u).config = (t.node s).config := by rw [hnu]
  obtain ⟨⟨found, heard⟩, hf⟩ : ∃ f, Gather.answers Response.view? (t.node s).config.rpcTimeoutMs
    replies = f := ⟨_, rfl⟩
  rw [least?, hn]
  simp only [leastView, hu, hconfig, hf]
  cases found with
  | error e => exact ⟨rfl, rfl⟩
  | ok ids => cases (t.node u).stopped <;> exact ⟨rfl, rfl⟩

theorem purgeAll_eq (ht : t.Lawful I) (hs : I s) (least : Nat) :
    (purgeAll t s least).1 = (t.ask (purged t s least) (.purge least)).1 ∧
      (purgeAll t s least).2.1 =
        (Gather.answers Response.acknowledged? (t.node s).config.rpcTimeoutMs
          (t.ask (purged t s least) (.purge least)).2.1).1.map
          fun _ => ((t.node s).views.purge least).2 := by
  obtain ⟨⟨u, replies, told⟩, hu⟩ : ∃ u, t.ask (purged t s least) (.purge least) = u := ⟨_, rfl⟩
  obtain ⟨hi, hn⟩ := node_purged ht hs least
  obtain ⟨-, stopped, workers, hnu⟩ := ht.ask _ (.purge least) hi
  have hask : t.ask (t.update s fun _ => ((t.node s).purgeViews least).1) (.purge least) =
    (u, replies, told) := hu
  rw [hu] at hnu ⊢
  have hconfig : (t.node u).config = (t.node s).config := by rw [hnu, hn]
  obtain ⟨⟨found, heard⟩, hf⟩ : ∃ f, Gather.answers Response.acknowledged?
    (t.node s).config.rpcTimeoutMs replies = f := ⟨_, rfl⟩
  simp only [purgeAll, hask, hconfig, hf]
  cases found <;> exact ⟨rfl, rfl⟩

theorem purgeUnreferenced_eq (ht : t.Lawful I) (hs : I s) :
    let n := t.node s
    let first := t.ask s .minimumView
    match least? n first.2.1 (t.node first.1).stopped with
    | .error e => (purgeUnreferenced t s).1 = (if n.stopped then s else first.1) ∧
        (purgeUnreferenced t s).2.1 = .error e
    | .ok least =>
      let second := t.ask (purged t first.1 least) (.purge least)
      (purgeUnreferenced t s).1 = second.1 ∧
        (purgeUnreferenced t s).2.1 =
          (Gather.answers Response.acknowledged? n.config.rpcTimeoutMs second.2.1).1.map
            fun _ => (least, (n.views.purge least).2) := by
  intro n first
  rw [purgeUnreferenced]
  cases hstop : n.stopped with
  | true => simp [least?, hstop]
  | false =>
    obtain ⟨hstate, hresult⟩ := leastView_eq ht hs hstop
    obtain ⟨hi, stopped, workers, hn⟩ := ht.ask s .minimumView hs
    obtain ⟨⟨u, result, heard⟩, hl⟩ : ∃ l, leastView t s = l := ⟨_, rfl⟩
    rw [hl] at hstate hresult
    obtain rfl : u = first.1 := hstate
    have hleast : least? n first.2.1 (t.node first.1).stopped = result := hresult.symm
    rw [if_neg Bool.false_ne_true, hleast]
    simp only [hl]
    cases result with
    | error e => exact ⟨rfl, rfl⟩
    | ok least =>
      obtain ⟨hs', hr'⟩ := purgeAll_eq ht hi least
      refine ⟨hs', ?_⟩
      have hviews : (t.node first.1).views = n.views := by rw [hn]
      have hconfig : (t.node first.1).config = n.config := by rw [hn]
      change (purgeAll t first.1 least).2.1.map (least, ·) = _
      rw [hr', hviews, hconfig]
      cases (Gather.answers Response.acknowledged? _ _).1 <;> rfl

theorem views_eq (hc : t.coordinates s = true) (ms : Nat) :
    (views t ms s).2.1 = (purgeUnreferenced t s).2.1.map (fun r => .views r.1 r.2) ∧
      ∃ retry notices, (views t ms s).1 = closed t (purgeUnreferenced t s).1 retry notices := by
  rw [views, if_pos hc]
  exact closeViews_eq ms (purgeUnreferenced t s).2.1 (purgeUnreferenced t s).2.2

theorem views_induct {P : σ → Prop} (hs : P s) (hask : ∀ s r, P s → P (t.ask s r).1)
    (hupdate : ∀ s f, P s → P (t.update s f)) (ms : Nat) : P (views t ms s).1 := by
  have hleast (s) (hs : P s) : P (leastView t s).1 := by
    unfold leastView
    dsimp only
    split
    · exact hask _ _ hs
    · split <;> exact hask _ _ hs
  have hpurge (s least) (hs : P s) : P (purgeAll t s least).1 := by
    unfold purgeAll
    dsimp only
    split <;> exact hask _ _ (hupdate _ _ hs)
  have hall (s) (hs : P s) : P (purgeUnreferenced t s).1 := by
    unfold purgeUnreferenced
    split
    · exact hs
    · have hu := hleast s hs
      obtain ⟨⟨u, result, heard⟩, hl⟩ : ∃ l, leastView t s = l := ⟨_, rfl⟩
      rw [hl] at hu ⊢
      cases result with
      | error e => exact hu
      | ok least => exact hpurge u least hu
  by_cases hc : t.coordinates s = true
  · obtain ⟨-, retry, notices, hclosed⟩ := views_eq hc ms
    rw [hclosed]
    exact hupdate _ _ (hupdate _ _ (hall s hs))
  · rw [views, if_neg hc]
    exact hupdate _ _ hs

theorem views_error (ht : t.Lawful I) (hs : I s) (hc : t.coordinates s = true) (ms : Nat)
    (hl : least? (t.node s) (t.ask s .minimumView).2.1 (t.node (t.ask s .minimumView).1).stopped =
      .error e) :
    (views t ms s).2.1 = .error e ∧ ∃ retry notices, (views t ms s).1 =
      closed t (if (t.node s).stopped then s else (t.ask s .minimumView).1) retry notices := by
  have hspec := purgeUnreferenced_eq ht hs
  simp only [hl] at hspec
  obtain ⟨hr, retry, notices, hclosed⟩ := views_eq hc ms
  rw [hspec.2] at hr
  rw [hspec.1] at hclosed
  exact ⟨hr, retry, notices, hclosed⟩

theorem views_ok (ht : t.Lawful I) (hs : I s) (hc : t.coordinates s = true) (ms : Nat) {least : Nat}
    (hl : least? (t.node s) (t.ask s .minimumView).2.1 (t.node (t.ask s .minimumView).1).stopped =
      .ok least) :
    let n := t.node s
    let second := t.ask (purged t (t.ask s .minimumView).1 least) (.purge least)
    (views t ms s).2.1 =
        (Gather.answers Response.acknowledged? n.config.rpcTimeoutMs second.2.1).1.map
          (fun _ => .views least (n.views.purge least).2) ∧
      ∃ retry notices, (views t ms s).1 = closed t second.1 retry notices := by
  intro n second
  have hspec := purgeUnreferenced_eq ht hs
  simp only [hl] at hspec
  obtain ⟨hr, retry, notices, hclosed⟩ := views_eq hc ms
  rw [hspec.1] at hclosed
  refine ⟨hr.trans ?_, retry, notices, hclosed⟩
  rw [hspec.2]
  cases (Gather.answers Response.acknowledged? _ _).1 <;> rfl

end Multiversion.Cycle
