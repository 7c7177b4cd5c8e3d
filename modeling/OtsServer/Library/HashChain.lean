import Mathlib.Tactic.Linarith

/-!
# Chains bound by their hash links

Every element of a chain carries the hash of the element before it. Reading the
links backwards from an element whose hash is known, each element is a preimage of
the link that follows it, so two chains that agree on one hash agree on everything
before it, or disagree somewhere on two preimages of one hash. Positions are
integers; the element and hash types are arbitrary.
-/

namespace HashChain

variable {α β : Type*}

/-- Between `low` and `high`, every element links to the one before it. -/
def LinkedOn (hash link : α → β) (chain : Int → α) (low high : Int) : Prop :=
  ∀ k, low ≤ k → k < high → link (chain (k + 1)) = hash (chain k)

/-- Two different elements with one hash stand at position `k` of two chains. -/
def CollideAt (hash : α → β) (c d : Int → α) (k : Int) : Prop :=
  c k ≠ d k ∧ hash (c k) = hash (d k)

/-- One link back: equal hashes are a collision, or give equal elements and so equal
hashes one position lower. -/
theorem hash_eq_pred {hash link : α → β} {c d : Int → α} {low high k : Int}
    (hc : LinkedOn hash link c low high) (hd : LinkedOn hash link d low high)
    (hlow : low ≤ k) (hhigh : k < high) (h : hash (c (k + 1)) = hash (d (k + 1))) :
    CollideAt hash c d (k + 1) ∨ hash (c k) = hash (d k) := by
  by_cases heq : c (k + 1) = d (k + 1)
  · right
    rw [← hc k hlow hhigh, ← hd k hlow hhigh, heq]
  · exact .inl ⟨heq, h⟩

/-- Two linked chains with the same hash at `high` have the same elements from `low`
up, or collide at one of these positions. -/
theorem eq_or_collideAt {hash link : α → β} {c d : Int → α} {low high : Int}
    (hc : LinkedOn hash link c low high) (hd : LinkedOn hash link d low high)
    (hle : low ≤ high) (htop : hash (c high) = hash (d high)) :
    c low = d low ∨ ∃ k, low ≤ k ∧ k ≤ high ∧ CollideAt hash c d k := by
  obtain ⟨n, hn⟩ : ∃ n : Nat, high = low + n := ⟨(high - low).toNat, by omega⟩
  induction n generalizing high with
  | zero =>
      obtain rfl : high = low := by simpa using hn
      by_cases heq : c high = d high
      · exact .inl heq
      · exact .inr ⟨high, le_refl _, le_refl _, heq, htop⟩
  | succ n ih =>
      obtain ⟨k, rfl⟩ : ∃ k, high = k + 1 := ⟨high - 1, by omega⟩
      have hlow : low ≤ k := by push_cast at hn; omega
      rcases hash_eq_pred hc hd hlow (by omega) htop with hcol | hk
      · exact .inr ⟨k + 1, hle, le_refl _, hcol⟩
      · have hc' : LinkedOn hash link c low k := fun j hj hjk => hc j hj (by omega)
        have hd' : LinkedOn hash link d low k := fun j hj hjk => hd j hj (by omega)
        rcases ih hc' hd' hlow hk (by push_cast at hn; omega) with heq | ⟨j, hj, hjk, hcol⟩
        · exact .inl heq
        · exact .inr ⟨j, hj, by omega, hcol⟩

end HashChain
