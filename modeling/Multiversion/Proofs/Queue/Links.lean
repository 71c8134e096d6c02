import Mathlib
import Multiversion.Proofs.Lists
import Multiversion.Queue.Arena

namespace Multiversion.Arena

variable {a : Arena} {i j k p n : Nat} {A B : List Nat}

theorem slot_modify (f : Slot → Slot) (h : i < a.slots.size) :
    (a.slots.modify i f).getD k default = if k = i then f (a.slot k) else a.slot k :=
  getD_modify fun hk => hk ▸ h

@[simp] theorem size_setNext : (a.setNext i j).slots.size = a.slots.size := by simp [setNext]

@[simp] theorem size_setPrev : (a.setPrev i j).slots.size = a.slots.size := by simp [setPrev]

theorem next_setNext (h : i < a.slots.size) :
    (a.setNext i j).next k = if k = i then j else a.next k := by
  rw [next, slot, setNext, slot_modify _ h]
  split <;> rfl

theorem next_setPrev (h : i < a.slots.size) : (a.setPrev i j).next k = a.next k := by
  rw [next, slot, setPrev, slot_modify _ h]
  split <;> rfl

theorem prev_setNext (h : i < a.slots.size) : (a.setNext i j).prev k = a.prev k := by
  rw [prev, slot, setNext, slot_modify _ h]
  split <;> rfl

theorem prev_setPrev (h : i < a.slots.size) :
    (a.setPrev i j).prev k = if k = i then j else a.prev k := by
  rw [prev, slot, setPrev, slot_modify _ h]
  split <;> rfl

theorem content_modify (f : Slot → Slot) (hf : ∀ s, (f s).content = s.content) :
    ((a.slots.modify i f).getD k default).content = a.content k := by
  simp only [content, slot, Array.getD_eq_getD_getElem?, Array.getElem?_modify]
  split
  · cases a.slots[k]? <;> simp [hf]
  · rfl

@[simp] theorem content_setNext : (a.setNext i j).content k = a.content k :=
  content_modify _ fun _ => rfl

@[simp] theorem content_setPrev : (a.setPrev i j).content k = a.content k :=
  content_modify _ fun _ => rfl

def Joined (a : Arena) (i j : Nat) : Prop := a.next i = j ∧ a.prev j = i

section Slots

variable {b : Arena} (h : a.slots = b.slots)
include h

theorem next_of_slots : a.next k = b.next k := by rw [next, next, slot, slot, h]

theorem prev_of_slots : a.prev k = b.prev k := by rw [prev, prev, slot, slot, h]

theorem content_of_slots : a.content k = b.content k := by rw [content, content, slot, slot, h]

end Slots

theorem slots_unlink (a : Arena) (i : Nat) :
    (a.unlink i).slots = ((((a.setNext (a.prev i) (a.next i)).setPrev (a.next i)
      (a.prev i)).setPrev i i).setNext i i).slots := by
  simp only [unlink]

theorem slots_linkBefore (a : Arena) (i j : Nat) :
    (a.linkBefore i j).slots = ((((a.setPrev i (a.prev j)).setNext i j).setNext (a.prev j)
      i).setPrev j i).slots := by
  simp only [linkBefore]

@[simp] theorem size_unlink : (a.unlink i).slots.size = a.slots.size := by
  simp [slots_unlink]

@[simp] theorem size_linkBefore : (a.linkBefore i j).slots.size = a.slots.size := by
  simp [slots_linkBefore]

@[simp] theorem content_unlink : (a.unlink i).content k = a.content k := by
  simp [content_of_slots (slots_unlink a i)]

@[simp] theorem content_linkBefore : (a.linkBefore i j).content k = a.content k := by
  simp [content_of_slots (slots_linkBefore a i j)]

section Unlink

variable (hi : i < a.slots.size) (hp : a.prev i < a.slots.size) (hn : a.next i < a.slots.size)
include hi hp hn

theorem next_unlink :
    (a.unlink i).next k = if k = i then i else if k = a.prev i then a.next i else a.next k := by
  rw [next_of_slots (slots_unlink a i), next_setNext (by simpa), next_setPrev (by simpa),
    next_setPrev (by simpa), next_setNext hp]

theorem prev_unlink :
    (a.unlink i).prev k = if k = i then i else if k = a.next i then a.prev i else a.prev k := by
  rw [prev_of_slots (slots_unlink a i), prev_setNext (by simpa), prev_setPrev (by simpa),
    prev_setPrev (by simpa), prev_setNext hp]

theorem unlink_joined (h : (A ++ p :: i :: n :: B).IsChain a.Joined)
    (hd : (A ++ p :: i :: n :: B).Nodup) : (A ++ p :: n :: B).IsChain (a.unlink i).Joined := by
  obtain ⟨hl, ⟨hpi, ep⟩, hr⟩ := List.isChain_append_cons_cons.mp h
  obtain ⟨⟨en, hni⟩, hr⟩ := List.isChain_cons_cons.mp hr
  have hip : i ∉ A ++ [p] := by simp [List.nodup_append] at hd ⊢; grind
  have hnp : n ∉ A ++ [p] := by simp [List.nodup_append] at hd ⊢; grind
  have hib : i ∉ n :: B := by simp [List.nodup_append] at hd ⊢; grind
  have hpb : p ∉ n :: B := by simp [List.nodup_append] at hd ⊢; grind
  have next_eq {u} (h1 : u ≠ i) (h2 : u ≠ p) : (a.unlink i).next u = a.next u := by
    rw [next_unlink hi hp hn, if_neg h1, if_neg (ep ▸ h2)]
  have prev_eq {v} (h1 : v ≠ i) (h2 : v ≠ n) : (a.unlink i).prev v = a.prev v := by
    rw [prev_unlink hi hp hn, if_neg h1, if_neg (en ▸ h2)]
  rw [List.isChain_append_cons_cons]
  refine ⟨?_, ⟨?_, ?_⟩, ?_⟩
  · apply hl.imp_of_mem_imp
    rintro u v hu hv ⟨huv, hvu⟩
    have h1 : u ≠ p := by
      rintro rfl
      rw [← huv, hpi] at hv
      exact hip hv
    refine ⟨?_, ?_⟩
    · rw [next_eq (ne_of_mem_of_not_mem hu hip) h1, huv]
    · rw [prev_eq (ne_of_mem_of_not_mem hv hip) (ne_of_mem_of_not_mem hv hnp), hvu]
  · rw [next_unlink hi hp hn, if_neg (fun e => hip (by simp [e])), if_pos ep.symm, en]
  · rw [prev_unlink hi hp hn, if_neg (fun e => hib (by simp [e])), if_pos en.symm, ep]
  · apply hr.imp_of_mem_imp
    rintro u v hu hv ⟨huv, hvu⟩
    have h1 : v ≠ n := by
      rintro rfl
      rw [← hvu, hni] at hu
      exact hib hu
    refine ⟨?_, ?_⟩
    · rw [next_eq (ne_of_mem_of_not_mem hu hib) (ne_of_mem_of_not_mem hu hpb), huv]
    · rw [prev_eq (ne_of_mem_of_not_mem hv hib) h1, hvu]

end Unlink

section LinkBefore

variable (hi : i < a.slots.size) (hj : j < a.slots.size) (hp : a.prev j < a.slots.size)
include hi hj hp

theorem next_linkBefore :
    (a.linkBefore i j).next k = if k = a.prev j then i else if k = i then j else a.next k := by
  rw [next_of_slots (slots_linkBefore a i j), next_setPrev (by simpa), next_setNext (by simpa),
    next_setNext (by simpa), next_setPrev hi]

theorem prev_linkBefore :
    (a.linkBefore i j).prev k = if k = j then i else if k = i then a.prev j else a.prev k := by
  rw [prev_of_slots (slots_linkBefore a i j), prev_setPrev (by simpa), prev_setNext (by simpa),
    prev_setNext (by simpa), prev_setPrev hi]

theorem linkBefore_joined (h : (A ++ p :: j :: B).IsChain a.Joined)
    (hd : (A ++ p :: j :: B).Nodup) (hi' : i ∉ A ++ p :: j :: B) :
    (A ++ p :: i :: j :: B).IsChain (a.linkBefore i j).Joined := by
  obtain ⟨hl, ⟨hpj, ep⟩, hr⟩ := List.isChain_append_cons_cons.mp h
  have hjp : j ∉ A ++ [p] := by simp [List.nodup_append] at hd ⊢; grind
  have hpb : p ∉ j :: B := by simp [List.nodup_append] at hd ⊢; grind
  have hip : i ∉ A ++ [p] := fun h' => hi' (by simp at h' ⊢; grind)
  have hib : i ∉ j :: B := fun h' => hi' (by simp at h' ⊢; grind)
  have next_eq {u} (h1 : u ≠ p) (h2 : u ≠ i) : (a.linkBefore i j).next u = a.next u := by
    rw [next_linkBefore hi hj hp, ep, if_neg h1, if_neg h2]
  have prev_eq {v} (h1 : v ≠ j) (h2 : v ≠ i) : (a.linkBefore i j).prev v = a.prev v := by
    rw [prev_linkBefore hi hj hp, if_neg h1, if_neg h2]
  rw [List.isChain_append_cons_cons, List.isChain_cons_cons]
  refine ⟨?_, ⟨?_, ?_⟩, ⟨?_, ?_⟩, ?_⟩
  · apply hl.imp_of_mem_imp
    rintro u v hu hv ⟨huv, hvu⟩
    have h1 : u ≠ p := by
      rintro rfl
      rw [← huv, hpj] at hv
      exact hjp hv
    refine ⟨?_, ?_⟩
    · rw [next_eq h1 (ne_of_mem_of_not_mem hu hip), huv]
    · rw [prev_eq (ne_of_mem_of_not_mem hv hjp) (ne_of_mem_of_not_mem hv hip), hvu]
  · rw [next_linkBefore hi hj hp, if_pos ep.symm]
  · rw [prev_linkBefore hi hj hp, if_neg (fun e => hib (by simp [e])), if_pos rfl, ep]
  · rw [next_linkBefore hi hj hp, if_neg (fun e => hip (by simp [e, ep])), if_pos rfl]
  · rw [prev_linkBefore hi hj hp, if_pos rfl]
  · apply hr.imp_of_mem_imp
    rintro u v hu hv ⟨huv, hvu⟩
    have h1 : v ≠ j := by
      rintro rfl
      rw [← hvu, ep] at hu
      exact hpb hu
    refine ⟨?_, ?_⟩
    · rw [next_eq (ne_of_mem_of_not_mem hu hpb) (ne_of_mem_of_not_mem hu hib), huv]
    · rw [prev_eq h1 (ne_of_mem_of_not_mem hv hib), hvu]

end LinkBefore

end Multiversion.Arena
