import Mathlib
import Multiversion.Observe.Line
import Multiversion.Proofs.Json.Quoted
import Multiversion.Proofs.Text.Bytes

namespace Multiversion.Line

variable {l : Line} {fs gs : List (String × String)} {f : String × String} {k x : String}

section Fields

def Ascending (fs : List (String × String)) : Prop := fs.Pairwise fun f g => f.1 < g.1

theorem mem_insertField (h : Ascending fs) :
    f ∈ insertField k x fs ↔ f = (k, x) ∨ f.1 ≠ k ∧ f ∈ fs := by
  induction fs with
  | nil => simp [insertField]
  | cons g fs ih =>
    obtain ⟨hg, hfs⟩ := List.pairwise_cons.mp h
    rw [insertField]
    split_ifs with hlt heq
    · have hne : f ∈ g :: fs → f.1 ≠ k := by
        rintro hf rfl
        rcases List.mem_cons.mp hf with rfl | hf
        · exact lt_irrefl _ hlt
        · exact lt_asymm hlt (hg f hf)
      rw [List.mem_cons, and_iff_right_of_imp hne]
    · subst heq
      have hne : f ∈ fs → f.1 ≠ g.1 := fun hf => (hg f hf).ne'
      rw [List.mem_cons, List.mem_cons, and_or_left, and_iff_right_of_imp hne]
      have hnot : ¬ (f.1 ≠ g.1 ∧ f = g) := fun ⟨hk, hf⟩ => hk (hf ▸ rfl)
      rw [or_iff_right hnot]
    · have hne : f = g → f.1 ≠ k := by
        rintro rfl
        exact fun hk => heq hk.symm
      rw [List.mem_cons, List.mem_cons, ih hfs, and_or_left, and_iff_right_of_imp hne, or_left_comm]

theorem ascending_insertField (h : Ascending fs) : Ascending (insertField k x fs) := by
  induction fs with
  | nil => exact List.pairwise_singleton _ _
  | cons g fs ih =>
    obtain ⟨hg, hfs⟩ := List.pairwise_cons.mp h
    rw [insertField]
    split_ifs with hlt heq
    · refine List.pairwise_cons.mpr ⟨fun f hf => ?_, h⟩
      rcases List.mem_cons.mp hf with rfl | hf
      · exact hlt
      · exact hlt.trans (hg f hf)
    · subst heq
      exact List.pairwise_cons.mpr ⟨hg, hfs⟩
    · have hgt : g.1 < k := lt_of_le_of_ne (not_lt.mp hlt) (Ne.symm heq)
      refine List.pairwise_cons.mpr ⟨fun f hf => ?_, ih hfs⟩
      rcases (mem_insertField hfs).mp hf with rfl | ⟨-, hf⟩
      · exact hgt
      · exact hg f hf

def collected (fs : List (String × String)) : List (String × String) :=
  fs.foldl (fun fs f => insertField f.1 f.2 fs) []

theorem collected_append : collected (fs ++ [f]) = insertField f.1 f.2 (collected fs) := by
  rw [collected, List.foldl_append]
  rfl

theorem ascending_collected : Ascending (collected fs) := by
  induction fs using List.reverseRecOn with
  | nil => exact .nil
  | append_singleton fs g ih =>
    rw [collected_append]
    exact ascending_insertField ih

theorem mem_collected : f ∈ collected fs ↔ (fs.filter (·.1 = f.1)).getLast? = some f := by
  induction fs using List.reverseRecOn with
  | nil => simp [collected]
  | append_singleton fs g ih =>
    rw [collected_append, mem_insertField ascending_collected, ih, List.filter_append, Prod.mk.eta]
    by_cases hk : g.1 = f.1
    · simp [hk, eq_comm]
    · have hne : f ≠ g := fun hf => hk (hf ▸ rfl)
      simp [hk, hne, Ne.symm hk]

theorem mem_sortedFields : f ∈ l.sortedFields ↔
    reserved f.1 = false ∧ (l.fields.filter (·.1 = f.1)).getLast? = some f := by
  have hs : l.sortedFields = collected (l.fields.filter fun f => !reserved f.1) := rfl
  have hp (g : String × String) : (decide (g.1 = f.1) && !reserved g.1) =
      (!reserved f.1 && decide (g.1 = f.1)) := by
    by_cases hk : g.1 = f.1 <;> simp [hk]
  rw [hs, mem_collected, List.filter_filter]
  simp only [hp]
  cases reserved f.1 <;> simp

end Fields

theorem toList_quote : (Json.quote x).toList = Json.quoteChars x.toList := String.toList_ofList

theorem flatMap_escape_name (v : Severity) : v.name.toList.flatMap Json.escape = v.name.toList := by
  cases v <;> decide

theorem toList_render : l.render.toList =
    Json.objectChars ("event", l.event) (("severity", l.severity.name) :: l.sortedFields) ++
      ['\n'] := by
  have hjoin : (String.join (l.sortedFields.map fun f =>
      "," ++ Json.quote f.1 ++ ":" ++ Json.quote f.2)).toList =
        l.sortedFields.flatMap (',' :: Json.memberChars ·) := by
    simp [Json.memberChars, toList_quote, List.flatMap_map]
  simp only [render, String.toList_append, hjoin, toList_quote, Json.objectChars, Json.membersChars]
  simp [Json.memberChars, Json.quoteChars, Json.escape, flatMap_escape_name]

theorem exists_body {s : String} {cs : List Char} (hs : s.toList = cs ++ ['\n'])
    (hc : '\n' ∉ cs) : ∃ body, s = body ++ "\n" ∧ '\n' ∉ body.toList := by
  refine ⟨String.ofList cs, String.toList_inj.mp ?_, ?_⟩
  · rw [hs, String.toList_append, String.toList_ofList]
    rfl
  · rwa [String.toList_ofList]

theorem decodable (l : Line) :
    (∃ body, l.render = body ++ "\n" ∧ '\n' ∉ body.toList) ∧
    ∃ v fs, Json.parse? l.render = some v ∧
      Json.texts? v = some (("event", l.event) :: ("severity", l.severity.name) :: fs) ∧
      (fs.Pairwise fun f g => Text.bytes f.1 < Text.bytes g.1) ∧
      ∀ f, f ∈ fs ↔ f.1 ≠ "event" ∧ f.1 ≠ "severity" ∧
        (l.fields.filter (·.1 = f.1)).getLast? = some f := by
  refine ⟨exists_body toList_render Json.newline_notMem_objectChars, _, l.sortedFields,
    Json.parse?_objectChars toList_render rfl, Json.texts?_texts, ?_, fun f => ?_⟩
  · exact ascending_collected.imp Text.bytes_lt
  · rw [mem_sortedFields, reserved, ← and_assoc]
    simp

example : render ⟨.warn, "DONE", [("b", "1"), ("a", "\"\x01"), ("event", "x"), ("b", "2")]⟩ =
    "\x7b\"event\":\"DONE\",\"severity\":\"WARN\",\"a\":\"\\\"\\u0001\",\"b\":\"2\"\x7d\n" := by
  decide +kernel

end Multiversion.Line
