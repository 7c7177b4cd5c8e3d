import Mathlib.Data.List.SplitBy

/-!
# Streaks of a history

A history is a list of values, the newest first. Its streaks are its maximal blocks of equal
values. A value is confirmed when it is that of the most recent streak to have reached a given
length; a shorter streak after it does not change that.
-/

namespace Streaks

variable {α : Type*} [DecidableEq α]

/-- The maximal blocks of equal values, the newest first. -/
def streaks (history : List α) : List (List α) := history.splitBy (· == ·)

/-- The value of the most recent maximal streak to have reached length `need`. -/
def confirmed (need : Nat) (history : List α) : Option α :=
  ((streaks history).find? fun streak => need ≤ streak.length).bind List.head?

/-- How many of the newest values are `v` in a row. -/
def current (v : α) (history : List α) : Nat := (history.takeWhile (· == v)).length

@[simp] theorem current_nil (v : α) : current v [] = 0 := rfl

@[simp] theorem current_cons_self (v : α) (history : List α) :
    current v (v :: history) = current v history + 1 := by
  simp [current]

theorem current_cons_of_ne {v w : α} (h : w ≠ v) (history : List α) :
    current v (w :: history) = 0 := by
  simp [current, h]

/-- The newest streak and those before it. -/
theorem streaks_cons (v : α) (history : List α) :
    streaks (v :: history) =
      (v :: history.takeWhile (· == v)) :: streaks (history.dropWhile (· == v)) := by
  have hsplit : v :: history = (v :: history.takeWhile (· == v)) ++ history.dropWhile (· == v) := by
    rw [List.cons_append, List.takeWhile_append_dropWhile]
  have hall : ∀ w ∈ v :: history.takeWhile (· == v), w = v := by
    intro w hw
    obtain rfl | hw := List.mem_cons.mp hw
    · rfl
    · exact eq_of_beq (List.all_eq_true.mp List.all_takeWhile w hw)
  have hchain : (v :: history.takeWhile (· == v)).IsChain fun a b => a == b := by
    refine (List.pairwise_of_forall_mem_list fun a ha b hb => ?_).isChain
    rw [hall a ha, hall b hb, beq_self_eq_true]
  have hone := List.splitBy_of_isChain (List.cons_ne_nil _ _) hchain
  rw [streaks, hsplit, List.splitBy_append, hone]
  · rfl
  · intro a ha b hb
    rw [hall a (List.mem_of_getLast? ha)]
    have hne := List.head?_dropWhile_not (· == v) history
    rw [Option.mem_def.mp hb] at hne
    exact beq_false_of_ne fun heq => by simp [heq] at hne

theorem streaks_head_length (v : α) (history : List α) :
    (v :: history.takeWhile (· == v)).length = current v (v :: history) := by
  simp [current]

/-- A value is confirmed when its streak reaches the length; until then what was confirmed
stands. -/
theorem confirmed_cons (need : Nat) (v : α) (history : List α) :
    confirmed need (v :: history) = if need ≤ current v (v :: history) then
      some v else confirmed need history := by
  rw [← streaks_head_length]
  by_cases hneed : need ≤ (v :: history.takeWhile (· == v)).length
  · rw [if_pos hneed, confirmed, streaks_cons, List.find?_cons_of_pos (by simpa using hneed)]
    rfl
  · rw [if_neg hneed, confirmed, streaks_cons, List.find?_cons_of_neg (by simpa using hneed)]
    cases history with
    | nil => rfl
    | cons w older =>
        by_cases hw : w = v
        · -- the streak before was shorter still
          subst hw
          rw [confirmed, streaks_cons, List.find?_cons_of_neg]
          · rw [List.dropWhile_cons_of_pos (by simp)]
          · simp only [List.takeWhile_cons, beq_self_eq_true, if_true, List.length_cons] at hneed ⊢
            simp only [decide_eq_true_eq]
            omega
        · rw [List.dropWhile_cons_of_neg (by simpa using hw)]
          rfl

@[simp] theorem confirmed_nil (need : Nat) : confirmed need ([] : List α) = none := rfl

/-- The newest streak is confirmed when it has the length. -/
theorem confirmed_of_le_current {need : Nat} (hneed : 0 < need) {v : α} {history : List α}
    (h : need ≤ current v history) : confirmed need history = some v := by
  cases history with
  | nil => exact absurd (hneed.trans_le h) (Nat.lt_irrefl 0)
  | cons w older =>
      by_cases hw : w = v
      · subst hw
        rw [confirmed_cons, if_pos h]
      · rw [current_cons_of_ne hw] at h
        exact absurd (hneed.trans_le h) (Nat.lt_irrefl 0)

end Streaks
