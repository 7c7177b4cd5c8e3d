import Mathlib.Data.List.Lex
import Mathlib.Data.List.Pairwise
import Mathlib.Order.Lattice

/-!
# Directories

A directory holds a value under each of finitely many names and lists its names in their
order. It is kept as the list of its entries, in order and without repetition, so that two
directories which hold the same are equal.
-/

structure Directory (κ β : Type*) [LinearOrder κ] where
  entries : List (κ × β)
  sorted : entries.Pairwise fun x y => x.1 < y.1

namespace Directory

variable {κ β γ : Type*} [LinearOrder κ]

/-! ## Entries -/

/-- The value under a name. -/
def find (k : κ) : List (κ × β) → Option β
  | [] => none
  | (k', b) :: es => if k' = k then some b else find k es

/-- The entries with one more, or with another value under a name that is there. -/
def insert (k : κ) (b : β) : List (κ × β) → List (κ × β)
  | [] => [(k, b)]
  | (k', b') :: es =>
      if k < k' then (k, b) :: (k', b') :: es
      else if k' = k then (k, b) :: es
      else (k', b') :: insert k b es

theorem mem_of_find {k : κ} {b : β} {es : List (κ × β)} (h : find k es = some b) : (k, b) ∈ es := by
  induction es with
  | nil => exact nomatch h
  | cons e es ih =>
      rw [find] at h
      split_ifs at h with hk
      · obtain rfl := Option.some.inj h
        exact hk ▸ List.mem_cons_self ..
      · exact List.mem_cons_of_mem _ (ih h)

theorem find_of_mem {k : κ} {b : β} {es : List (κ × β)} (hs : es.Pairwise fun x y => x.1 < y.1)
    (h : (k, b) ∈ es) : find k es = some b := by
  induction es with
  | nil => exact absurd h List.not_mem_nil
  | cons e es ih =>
      obtain ⟨hhead, htail⟩ := List.pairwise_cons.mp hs
      obtain rfl | hmem := List.mem_cons.mp h
      · exact if_pos rfl
      · rw [find, if_neg (hhead _ hmem).ne]
        exact ih htail hmem

theorem mem_insert {k : κ} {b : β} {es : List (κ × β)} {e : κ × β} (h : e ∈ insert k b es) :
    e = (k, b) ∨ e ∈ es := by
  induction es with
  | nil => exact .inl (List.mem_singleton.mp h)
  | cons e' es ih =>
      rw [insert] at h
      split_ifs at h
      · exact List.mem_cons.mp h
      · exact (List.mem_cons.mp h).imp_right (List.mem_cons_of_mem _)
      · obtain rfl | h := List.mem_cons.mp h
        · exact .inr (List.mem_cons_self ..)
        · exact (ih h).imp_right (List.mem_cons_of_mem _)

theorem insert_sorted {es : List (κ × β)} (h : es.Pairwise fun x y => x.1 < y.1) (k : κ) (b : β) :
    (insert k b es).Pairwise fun x y => x.1 < y.1 := by
  induction es with
  | nil => exact List.pairwise_singleton _ _
  | cons e es ih =>
      obtain ⟨hhead, htail⟩ := List.pairwise_cons.mp h
      rw [insert]
      split_ifs with hlt heq
      · refine List.pairwise_cons.mpr ⟨fun e' he' => ?_, h⟩
        obtain rfl | he' := List.mem_cons.mp he'
        · exact hlt
        · exact hlt.trans (hhead e' he')
      · exact List.pairwise_cons.mpr ⟨fun e' he' => heq ▸ hhead e' he', htail⟩
      · refine List.pairwise_cons.mpr ⟨fun e' he' => ?_, ih htail⟩
        obtain rfl | he' := mem_insert he'
        · exact lt_of_le_of_ne (not_lt.mp hlt) heq
        · exact hhead e' he'

theorem find_insert_self (k : κ) (b : β) (es : List (κ × β)) : find k (insert k b es) = some b := by
  induction es with
  | nil => exact if_pos rfl
  | cons e es ih =>
      rw [insert]
      split_ifs with hlt heq
      · exact if_pos rfl
      · exact if_pos rfl
      · rw [find, if_neg heq, ih]

theorem find_insert_of_ne {k k' : κ} (h : k' ≠ k) (b : β) (es : List (κ × β)) :
    find k' (insert k b es) = find k' es := by
  induction es with
  | nil => exact if_neg (Ne.symm h)
  | cons e es ih =>
      rw [insert]
      split_ifs with hlt heq
      · rw [find, if_neg (Ne.symm h)]
      · rw [find, find, if_neg (Ne.symm h), if_neg (heq ▸ Ne.symm h)]
      · rw [find, find, ih]

/-! ## Directories -/

def empty : Directory κ β := ⟨[], .nil⟩

def get (d : Directory κ β) (k : κ) : Option β := find k d.entries

def put (d : Directory κ β) (k : κ) (b : β) : Directory κ β :=
  ⟨insert k b d.entries, insert_sorted d.sorted k b⟩

def erase (d : Directory κ β) (k : κ) : Directory κ β :=
  ⟨d.entries.filter fun e => e.1 ≠ k, d.sorted.sublist List.filter_sublist⟩

/-- The names, in order. -/
def names (d : Directory κ β) : List κ := d.entries.map Prod.fst

variable {d e : Directory κ β} {k k' : κ} {b : β}

theorem mem_entries_iff : (k, b) ∈ d.entries ↔ d.get k = some b :=
  ⟨find_of_mem d.sorted, mem_of_find⟩

theorem mem_names_iff : k ∈ d.names ↔ ∃ b, d.get k = some b := by
  simp only [names, List.mem_map, Prod.exists, exists_and_right, exists_eq_right, mem_entries_iff]

theorem names_sorted (d : Directory κ β) : d.names.Pairwise (· < ·) :=
  List.pairwise_map.mpr d.sorted

@[simp] theorem get_empty (k : κ) : (empty : Directory κ β).get k = none := rfl

@[simp] theorem get_put_self (d : Directory κ β) (k : κ) (b : β) : (d.put k b).get k = some b :=
  find_insert_self k b d.entries

theorem get_put_of_ne (d : Directory κ β) (h : k' ≠ k) (b : β) : (d.put k b).get k' = d.get k' :=
  find_insert_of_ne h b d.entries

theorem get_put (d : Directory κ β) (k k' : κ) (b : β) :
    (d.put k b).get k' = if k' = k then some b else d.get k' := by
  split_ifs with h
  · rw [h, get_put_self]
  · exact d.get_put_of_ne h b

theorem get_erase (d : Directory κ β) (k k' : κ) :
    (d.erase k).get k' = if k' = k then none else d.get k' := by
  refine Option.ext fun b => ?_
  rw [← mem_entries_iff, erase, List.mem_filter, mem_entries_iff]
  by_cases h : k' = k <;> simp [h]

@[simp] theorem get_erase_self (d : Directory κ β) (k : κ) : (d.erase k).get k = none := by
  rw [get_erase, if_pos rfl]

theorem get_erase_of_ne (d : Directory κ β) (h : k' ≠ k) : (d.erase k).get k' = d.get k' := by
  rw [get_erase, if_neg h]

end Directory
