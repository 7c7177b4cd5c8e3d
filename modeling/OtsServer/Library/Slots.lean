import Mathlib.Data.List.TakeDrop

/-!
# Slots of a file

A file of fixed-size slots is a list; a slot is the `size` elements at its index, fewer when the
list ends in it and none when it ends before. A slot that is whole stays what it is whatever is
appended, and a write inside one slot leaves the others.
-/

namespace Slots

variable {α : Type*}

def slot (size : Nat) (file : List α) (idx : Nat) : List α := (file.drop (idx * size)).take size

section Slots

variable {size idx : Nat} {file file' more before record : List α}

theorem slot_getElem? (size : Nat) (file : List α) (idx k : Nat) :
    (slot size file idx)[k]? = if k < size then file[idx * size + k]? else none := by
  rw [slot, List.getElem?_take, List.getElem?_drop]

/-- A slot is whole when the list goes on to its end. -/
theorem slot_length_eq :
    (slot size file idx).length = size ↔ idx * size + size ≤ file.length ∨ size = 0 := by
  rw [slot, List.length_take, List.length_drop]
  omega

/-- Two lists that agree inside a slot have the same slot. -/
theorem slot_congr (h : ∀ p, idx * size ≤ p → p < idx * size + size → file[p]? = file'[p]?) :
    slot size file idx = slot size file' idx := by
  refine List.ext_getElem? fun k => ?_
  rw [slot_getElem?, slot_getElem?]
  split_ifs with hk
  · exact h _ (Nat.le_add_right ..) (by omega)
  · rfl

theorem slot_append (h : idx * size + size ≤ file.length) :
    slot size (file ++ more) idx = slot size file idx := by
  refine slot_congr fun p _ hp => ?_
  exact List.getElem?_append_left (by omega)

/-- What is appended at a boundary is the slot there. -/
theorem slot_concat (hbefore : before.length = idx * size) (hrecord : record.length = size) :
    slot size (before ++ record) idx = record := by
  rw [slot, List.drop_left' hbefore, ← hrecord, List.take_length]

/-- While a record is being appended at a boundary, its slot is a first part of it. -/
theorem slot_of_partial (hbefore : before.length = idx * size) (hrecord : record.length = size)
    (h : file ++ more = before ++ record) (hwhole : (slot size file idx).length = size) :
    slot size file idx = record := by
  obtain hle | rfl := slot_length_eq.mp hwhole
  · have happend : slot size (file ++ more) idx = slot size file idx := slot_append hle
    rw [← happend, h, slot_concat hbefore hrecord]
  · rw [List.length_eq_zero_iff.mp hrecord, List.length_eq_zero_iff.mp hwhole]

end Slots

end Slots
