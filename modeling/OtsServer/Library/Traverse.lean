/-!
# Calls that may raise, one after the other

A sequence returns when every call does. `mapM` gives their values in order. A loop that carries
what it came past asks something of each element and of the elements before it.
-/

theorem Except.exists_of_bind_ok {ε α β : Type} {x : Except ε α} {f : α → Except ε β}
    {b : β} (h : (x >>= f) = .ok b) : ∃ a, x = .ok a ∧ f a = .ok b := by
  cases x with
  | error e => cases h
  | ok a => exact ⟨a, rfl, h⟩

namespace Traverse

variable {α β ε : Type}

/-- What is asked of each element behind those before it, by the first of them. -/
theorem forall_behind_cons {P : List α → α → Prop} {front l : List α} {a : α} :
    (∀ middle b rest, a :: l = middle ++ b :: rest → P (front ++ middle) b) ↔
      P front a ∧ ∀ middle b rest, l = middle ++ b :: rest → P (front ++ [a] ++ middle) b := by
  constructor
  · intro h
    refine ⟨?_, fun middle b rest hsplit => ?_⟩
    · rw [← List.append_nil front]
      exact h [] a l rfl
    · rw [← List.append_cons]
      exact h (a :: middle) b rest (by rw [hsplit, List.cons_append])
  · rintro ⟨hfirst, hrest⟩ middle b rest hsplit
    cases middle with
    | nil =>
        obtain ⟨rfl, -⟩ := List.cons.inj hsplit
        rwa [List.append_nil]
    | cons first middle =>
        obtain ⟨rfl, htail⟩ := List.cons.inj hsplit
        rw [List.append_cons]
        exact hrest middle b rest htail

theorem mapM_cons_ok {f : α → Except ε β} {a : α} {l : List α} {r : List β} :
    (a :: l).mapM f = .ok r ↔ ∃ b bs, f a = .ok b ∧ l.mapM f = .ok bs ∧ r = b :: bs := by
  rw [List.mapM_cons]
  constructor
  · intro h
    cases ha : f a with
    | error e => rw [ha] at h; exact nomatch h
    | ok b =>
        cases hl : l.mapM f with
        | error e => rw [ha, hl] at h; exact nomatch h
        | ok bs =>
            rw [ha, hl] at h
            exact ⟨b, bs, rfl, rfl, (Except.ok.inj h).symm⟩
  · rintro ⟨b, bs, ha, hl, rfl⟩
    rw [ha, hl]
    rfl

/-- A run through a list raises nothing when no element does. -/
theorem mapM_ok_iff {f : α → Except ε β} {l : List α} :
    (∃ r, l.mapM f = .ok r) ↔ ∀ a ∈ l, ∃ b, f a = .ok b := by
  induction l with
  | nil => exact ⟨fun _ _ ha => absurd ha List.not_mem_nil, fun _ => ⟨[], rfl⟩⟩
  | cons a l ih =>
      rw [List.forall_mem_cons, ← ih]
      constructor
      · rintro ⟨r, hr⟩
        obtain ⟨b, bs, ha, hl, _⟩ := mapM_cons_ok.mp hr
        exact ⟨⟨b, ha⟩, bs, hl⟩
      · rintro ⟨⟨b, ha⟩, bs, hl⟩
        exact ⟨b :: bs, mapM_cons_ok.mpr ⟨b, bs, ha, hl, rfl⟩⟩

theorem mapM_congr {f g : α → Except ε β} {l : List α} (h : ∀ a ∈ l, f a = g a) :
    l.mapM f = l.mapM g := by
  induction l with
  | nil => rfl
  | cons a l ih =>
      rw [List.mapM_cons, List.mapM_cons, h a (List.mem_cons_self ..),
        ih fun a' ha' => h a' (List.mem_cons_of_mem _ ha')]

theorem mem_of_mapM_ok {f : α → Except ε β} {l : List α} {r : List β}
    (h : l.mapM f = .ok r) (b : β) : b ∈ r ↔ ∃ a ∈ l, f a = .ok b := by
  induction l generalizing r with
  | nil =>
      obtain rfl : [] = r := Except.ok.inj h
      simp
  | cons a l ih =>
      obtain ⟨b', bs, ha, hl, rfl⟩ := mapM_cons_ok.mp h
      rw [List.mem_cons, ih hl]
      simp [ha, eq_comm]

end Traverse
