import Mathlib.Data.Nat.Size
import Mathlib.Algebra.Group.Nat.Defs

/-!
# Rounding down to a short significand

A number is written with a significand of at most `w` bits and an exponent that counts steps of `b`
bits. `Rounding.down` is the largest such number below a given one that has its exponent: it drops
as few steps as leave `w` bits. It keeps the length of the number, so it is idempotent, monotone,
and off by less than one part in `2 ^ (w - b)`.
-/

namespace Rounding

/-- The steps of `b` bits without which `t` has at most `w` bits. -/
def steps (w b t : Nat) : Nat := (t.size - w + (b - 1)) / b

/-- `t` without the bits of its `steps`. -/
def down (w b t : Nat) : Nat := t / 2 ^ (b * steps w b t) * 2 ^ (b * steps w b t)

variable {w b t u x : Nat}

theorem size_le_steps (hb : 0 < b) (w t : Nat) : t.size ≤ w + b * steps w b t := by
  have hdiv := Nat.div_add_mod (t.size - w + (b - 1)) b
  have hmod := Nat.mod_lt (t.size - w + (b - 1)) hb
  unfold steps
  omega

theorem lt_pow_steps (hb : 0 < b) (w t : Nat) : t < 2 ^ (w + b * steps w b t) :=
  Nat.size_le.mp (size_le_steps hb w t)

/-- No step is dropped that could stay. -/
theorem steps_lt_size (hbw : b ≤ w) (h : 0 < steps w b t) : w - b + b * steps w b t < t.size := by
  have hb : 0 < b := Nat.pos_of_ne_zero fun hzero => by
    rw [steps, hzero, Nat.div_zero] at h
    exact Nat.lt_irrefl 0 h
  have hdiv := Nat.div_add_mod (t.size - w + (b - 1)) b
  have hfirst : b * 1 ≤ b * steps w b t := Nat.mul_le_mul_left b h
  unfold steps at hfirst ⊢
  omega

theorem steps_mono (w b : Nat) (h : t ≤ u) : steps w b t ≤ steps w b u :=
  Nat.div_le_div_right (Nat.add_le_add_right (Nat.sub_le_sub_right (Nat.size_le_size h) w) (b - 1))

theorem down_le (w b t : Nat) : down w b t ≤ t := Nat.div_mul_le_self ..

theorem dvd_down (w b t : Nat) : 2 ^ (b * steps w b t) ∣ down w b t := Nat.dvd_mul_left ..

theorem sub_down_lt (w b t : Nat) : t - down w b t < 2 ^ (b * steps w b t) := by
  have hdiv := Nat.div_add_mod' t (2 ^ (b * steps w b t))
  have hmod := Nat.mod_lt t (Nat.two_pow_pos (b * steps w b t))
  unfold down
  omega

/-- It is the largest number below `t` without these bits. -/
theorem le_down (hdvd : 2 ^ (b * steps w b t) ∣ x) (h : x ≤ t) : x ≤ down w b t := by
  obtain ⟨q, rfl⟩ := hdvd
  rw [down, Nat.mul_comm]
  exact Nat.mul_le_mul_right _
    ((Nat.le_div_iff_mul_le (Nat.two_pow_pos _)).mpr (Nat.mul_comm .. ▸ h))

theorem down_of_steps_eq_zero (h : steps w b t = 0) : down w b t = t := by
  rw [down, h, Nat.mul_zero, Nat.pow_zero, Nat.div_one, Nat.mul_one]

theorem size_down (hbw : b ≤ w) (ht : 0 < t) : (down w b t).size = t.size := by
  refine Nat.le_antisymm (Nat.size_le_size (down_le w b t)) ?_
  have hsize : 0 < t.size := Nat.size_pos.mpr ht
  have hfits : b * steps w b t ≤ t.size - 1 := by
    obtain hzero | hpos := Nat.eq_zero_or_pos (steps w b t)
    · rw [hzero]
      exact Nat.zero_le _
    · have := steps_lt_size hbw hpos
      omega
  have htop : 2 ^ (t.size - 1) ≤ down w b t :=
    le_down (Nat.pow_dvd_pow 2 hfits) (Nat.lt_size.mp (Nat.sub_lt hsize Nat.one_pos))
  have := Nat.lt_size.mpr htop
  omega

theorem down_pos (hbw : b ≤ w) (ht : 0 < t) : 0 < down w b t := by
  rw [← Nat.size_pos, size_down hbw ht]
  exact Nat.size_pos.mpr ht

/-- What is dropped is less than one part in `2 ^ (w - b)`. -/
theorem sub_down_mul_lt (hbw : b ≤ w) (ht : 0 < t) : (t - down w b t) * 2 ^ (w - b) < t := by
  obtain hzero | hpos := Nat.eq_zero_or_pos (steps w b t)
  · rw [down_of_steps_eq_zero hzero, Nat.sub_self, Nat.zero_mul]
    exact ht
  · calc (t - down w b t) * 2 ^ (w - b) < 2 ^ (b * steps w b t) * 2 ^ (w - b) :=
          Nat.mul_lt_mul_of_pos_right (sub_down_lt w b t) (Nat.two_pow_pos _)
      _ = 2 ^ (w - b + b * steps w b t) := by rw [← Nat.pow_add, Nat.add_comm]
      _ ≤ t := Nat.lt_size.mp (steps_lt_size hbw hpos)

theorem down_mono (hb : 0 < b) (hbw : b ≤ w) (h : t ≤ u) : down w b t ≤ down w b u := by
  obtain hlt | heq := Nat.lt_or_eq_of_le (steps_mono w b h)
  · have hpow : 2 ^ (w - b + b * steps w b u) ≤ down w b u :=
      le_down (Nat.pow_dvd_pow 2 (Nat.le_add_left ..))
        (Nat.lt_size.mp (steps_lt_size hbw (Nat.zero_lt_of_lt hlt)))
    have hsteps : b * (steps w b t + 1) ≤ b * steps w b u := Nat.mul_le_mul_left b hlt
    have hexponent : w + b * steps w b t ≤ w - b + b * steps w b u := by
      rw [Nat.mul_add, Nat.mul_one] at hsteps
      omega
    calc down w b t ≤ t := down_le w b t
      _ ≤ 2 ^ (w + b * steps w b t) := Nat.le_of_lt (lt_pow_steps hb w t)
      _ ≤ 2 ^ (w - b + b * steps w b u) := Nat.pow_le_pow_right Nat.two_pos hexponent
      _ ≤ down w b u := hpow
  · exact le_down (heq ▸ dvd_down w b t) (Nat.le_trans (down_le w b t) h)

end Rounding
