import OtsServer.Library.Rounding
import OtsServer.VerifyClaim.Headers

/-!
# The compact target codec

A compact target is a significand of 23 bits and a count of bytes. Encoding a target and decoding it
again rounds it down to such a significand; `check_target` takes what `encode_bits` gives for any
target within the limit of the network, and what `next_bits` demands after a period whose target is
at least 4.
-/

namespace OtsServer.VerifyClaim

/-- The bytes of a target, with one more where the first would carry the sign. -/
def signedBytes (target : Nat) : Nat := target.size / 8 + 1

/-- The three bytes from the byte `size` down, zeros where the target has none. -/
def leadingBytes (target size : Nat) : Nat :=
  if size ≤ 3 then target <<< (8 * (3 - size)) else target >>> (8 * (size - 3))

section Encode

variable {target : Nat}

theorem pow_le_leadingBytes (h : 0 < target) (i size : Nat) :
    2 ^ i ≤ leadingBytes target size ↔ i + 8 * size < target.size + 24 := by
  unfold leadingBytes
  split_ifs with hsize
  · rw [← Nat.lt_size, Nat.size_shiftLeft h.ne']
    omega
  · rw [Nat.shiftRight_eq_div_pow, Nat.le_div_iff_mul_le (Nat.two_pow_pos _),
      ← Nat.pow_add, ← Nat.lt_size]
    omega

theorem leadingBytes_shiftRight (target size : Nat) :
    leadingBytes target size >>> 8 = leadingBytes target (size + 1) := by
  unfold leadingBytes
  split_ifs with h h' h'
  · rw [show 8 * (3 - size) = 8 * (3 - (size + 1)) + 8 by omega, Nat.shiftLeft_add,
      Nat.shiftLeft_shiftRight]
  · obtain rfl : size = 3 := by omega
    rfl
  · omega
  · rw [← Nat.shiftRight_add]
    congr 1
    omega

/-- The sign bit of three bytes. -/
theorem and_signBit_ne_zero {compact : Nat} (h : compact < 2 ^ 24) :
    compact &&& 0x800000 ≠ 0 ↔ 2 ^ 23 ≤ compact := by
  have hbit : compact.testBit 23 = true ↔ 2 ^ 23 ≤ compact := by
    rw [Nat.testBit_eq_decide_div_mod_eq, decide_eq_true_iff]
    omega
  rw [← hbit]
  constructor
  · intro hne
    by_contra hclear
    refine hne (Nat.eq_of_testBit_eq fun i => ?_)
    rw [Nat.testBit_and, show (0x800000 : Nat) = 2 ^ 23 from rfl, Nat.testBit_two_pow,
      Nat.zero_testBit]
    by_cases hi : 23 = i
    · rw [← hi, Bool.eq_false_iff.mpr hclear, Bool.false_and]
    · rw [decide_eq_false hi, Bool.and_false]
  · intro hset hzero
    have hand : (compact &&& 0x800000).testBit 23 = true := by
      rw [Nat.testBit_and, hset]
      rfl
    rw [hzero] at hand
    exact nomatch hand

theorem leadingBytes_signedBytes_lt (h : 0 < target) :
    leadingBytes target (signedBytes target) < 2 ^ 23 := by
  rw [← Nat.not_le, pow_le_leadingBytes h, signedBytes]
  omega

/-- The encoding: three bytes below the sign bit, and the bytes of the target. -/
theorem encodeBits_eq (h : 0 < target) :
    encodeBits target = leadingBytes target (signedBytes target) + signedBytes target * 2 ^ 24 := by
  have hpack : ∀ {compact size : Nat}, compact < 2 ^ 23 →
      compact ||| size <<< 24 = compact + size * 2 ^ 24 := by
    intro compact size hcompact
    rw [Nat.or_comm, ← Nat.shiftLeft_add_eq_or_of_lt (by omega), Nat.shiftLeft_eq, Nat.add_comm]
  have hsmall := leadingBytes_signedBytes_lt h
  have hbytes : leadingBytes target ((target.size + 7) / 8) < 2 ^ 24 := by
    rw [← Nat.not_le, pow_le_leadingBytes h]
    omega
  have hsign := and_signBit_ne_zero hbytes
  rw [pow_le_leadingBytes h] at hsign
  have hsize := Nat.size_pos.mpr h
  change (if leadingBytes target ((target.size + 7) / 8) &&& 0x800000 ≠ 0 then
      (leadingBytes target ((target.size + 7) / 8) >>> 8) ||| (((target.size + 7) / 8 + 1) <<< 24)
    else leadingBytes target ((target.size + 7) / 8) ||| (((target.size + 7) / 8) <<< 24)) = _
  split_ifs with hset
  · have hbytes : (target.size + 7) / 8 + 1 = signedBytes target := by
      have := hsign.mp hset
      unfold signedBytes
      omega
    rw [leadingBytes_shiftRight, hbytes, hpack hsmall]
  · have hbytes : (target.size + 7) / 8 = signedBytes target := by
      have := hsign.not.mp hset
      unfold signedBytes
      omega
    rw [hbytes, hpack hsmall]

/-- A significand below the sign bit and its count of bytes are read apart. -/
theorem decodeBits_add {mantissa : Nat} (h : mantissa < 2 ^ 23) (size : Nat) :
    decodeBits (mantissa + size * 2 ^ 24) =
      if size ≤ 3 then mantissa >>> (8 * (3 - size)) else mantissa <<< (8 * (size - 3)) := by
  have hexponent : (mantissa + size * 2 ^ 24) >>> 24 = size := by
    rw [Nat.shiftRight_eq_div_pow]
    omega
  have hmantissa : (mantissa + size * 2 ^ 24) &&& 0x7fffff = mantissa := by
    rw [show (0x7fffff : Nat) = 2 ^ 23 - 1 from rfl, Nat.and_two_pow_sub_one_eq_mod]
    omega
  simp only [decodeBits, hexponent, hmantissa]

theorem steps_eq (target : Nat) : Rounding.steps 23 8 target = signedBytes target - 3 := by
  unfold Rounding.steps signedBytes
  omega

/-- Decoding an encoded target rounds it down to 23 bits, in steps of a byte. -/
theorem decodeBits_encodeBits (h : 0 < target) :
    decodeBits (encodeBits target) = Rounding.down 23 8 target := by
  rw [encodeBits_eq h, decodeBits_add (leadingBytes_signedBytes_lt h), Rounding.down,
    steps_eq, leadingBytes]
  split_ifs with hsize
  · rw [Nat.shiftLeft_shiftRight, Nat.sub_eq_zero_of_le hsize, Nat.mul_zero,
      Nat.pow_zero, Nat.div_one, Nat.mul_one]
  · rw [Nat.shiftRight_eq_div_pow, Nat.shiftLeft_eq]

/-- The encoding is not negative. -/
theorem encodeBits_sign (h : 0 < target) : encodeBits target &&& 0x800000 = 0 := by
  have hsmall := leadingBytes_signedBytes_lt h
  have hlow : encodeBits target % 2 ^ 24 = leadingBytes target (signedBytes target) := by
    rw [encodeBits_eq h]
    omega
  have hmask : encodeBits target &&& 0x800000 = encodeBits target % 2 ^ 24 &&& 0x800000 := by
    rw [← Nat.and_two_pow_sub_one_eq_mod, Nat.and_assoc]
    rfl
  by_contra hne
  rw [hmask, hlow] at hne
  have := (and_signBit_ne_zero (by omega)).mp hne
  omega

/-- `check_target` takes the encoding of a target within the limit, and returns it rounded down. -/
theorem checkTarget_encodeBits {network : Network} (h : 0 < target)
    (hlimit : target ≤ network.powLimit) :
    checkTarget (encodeBits target) network = .ok (Rounding.down 23 8 target) :=
  (checkTarget_eq_ok_iff ..).mpr
    { value := decodeBits_encodeBits h
      sign := .inr (encodeBits_sign h)
      positive := Rounding.down_pos (by decide) h
      limit := (Rounding.down_le ..).trans hlimit }

theorem encodeBits_down (h : 0 < target) :
    encodeBits (Rounding.down 23 8 target) = encodeBits target := by
  have hbytes : signedBytes (Rounding.down 23 8 target) = signedBytes target := by
    rw [signedBytes, Rounding.size_down (by decide) h, signedBytes]
  rw [encodeBits_eq h, encodeBits_eq (Rounding.down_pos (by decide) h), hbytes]
  congr 1
  unfold leadingBytes
  split_ifs with hsize
  · rw [Rounding.down_of_steps_eq_zero ((steps_eq target).trans (Nat.sub_eq_zero_of_le hsize))]
  · rw [Nat.shiftRight_eq_div_pow, Nat.shiftRight_eq_div_pow, Rounding.down, steps_eq,
      Nat.mul_div_cancel _ (Nat.two_pow_pos _)]

end Encode

/-! ## The retarget -/

/-- The target after a period, before it is held to the limit and encoded. -/
def retargeted (firstHeader lastHeader : Bytes) : Nat :=
  let actual : Int := ((headerFields lastHeader).time : Int) - (headerFields firstHeader).time
  decodeBits (headerBits lastHeader) *
    (max ((targetTimespan / 4 : Nat) : Int) (min ((targetTimespan * 4 : Nat) : Int) actual)).toNat /
      targetTimespan

theorem nextBits_eq (firstHeader lastHeader : Bytes) (network : Network) :
    nextBits firstHeader lastHeader network =
      encodeBits (min (retargeted firstHeader lastHeader) network.powLimit) :=
  rfl

/-- A period changes the target by a factor of four at most, either way. -/
theorem retargeted_bounds (firstHeader lastHeader : Bytes) :
    decodeBits (headerBits lastHeader) / 4 ≤ retargeted firstHeader lastHeader ∧
      retargeted firstHeader lastHeader ≤ 4 * decodeBits (headerBits lastHeader) := by
  unfold retargeted
  dsimp only
  generalize decodeBits (headerBits lastHeader) = old
  generalize ((headerFields lastHeader).time : Int) - (headerFields firstHeader).time = actual
  generalize hclamped : (max ((targetTimespan / 4 : Nat) : Int)
      (min ((targetTimespan * 4 : Nat) : Int) actual)).toNat = span
  have hspan : targetTimespan / 4 ≤ span ∧ span ≤ targetTimespan * 4 := by
    unfold targetTimespan at hclamped ⊢
    omega
  constructor
  · calc old / 4 = old * (targetTimespan / 4) / targetTimespan := by
          unfold targetTimespan
          omega
      _ ≤ old * span / targetTimespan := Nat.div_le_div_right (Nat.mul_le_mul_left old hspan.1)
  · calc old * span / targetTimespan ≤ old * (targetTimespan * 4) / targetTimespan :=
          Nat.div_le_div_right (Nat.mul_le_mul_left old hspan.2)
      _ = 4 * old := by
          unfold targetTimespan
          omega

theorem Network.powLimit_pos (network : Network) : 0 < network.powLimit := by
  cases network <;> norm_num [Network.powLimit]

/-- The codec of compact targets and the retarget over it. -/
theorem compact_targets_round_trip (network : Network) :
    (∀ target, 0 < target → target ≤ network.powLimit →
      ∃ decoded, checkTarget (encodeBits target) network = .ok decoded ∧ decoded ≤ target ∧
        (target - decoded) * 2 ^ 15 < target ∧ encodeBits decoded = encodeBits target) ∧
    (∀ target target' decoded decoded', 0 < target → target ≤ target' → target' ≤ network.powLimit →
      checkTarget (encodeBits target) network = .ok decoded →
        checkTarget (encodeBits target') network = .ok decoded' → decoded ≤ decoded') ∧
    (∀ firstHeader lastHeader old, checkTarget (headerBits lastHeader) network = .ok old → 4 ≤ old →
      ∃ next, checkTarget (nextBits firstHeader lastHeader network) network = .ok next ∧
        next ≤ network.powLimit ∧ next ≤ 4 * old) := by
  refine ⟨fun target hpos hlimit => ?_,
    fun target target' decoded decoded' hpos hle hlimit hdecoded hdecoded' => ?_,
    fun firstHeader lastHeader old hold hfour => ?_⟩
  · exact ⟨_, checkTarget_encodeBits hpos hlimit, Rounding.down_le ..,
      Rounding.sub_down_mul_lt (by decide) hpos, encodeBits_down hpos⟩
  · obtain rfl :=
      Except.ok.inj ((checkTarget_encodeBits hpos (hle.trans hlimit)).symm.trans hdecoded)
    obtain rfl := Except.ok.inj
      ((checkTarget_encodeBits (hpos.trans_le hle) hlimit).symm.trans hdecoded')
    exact Rounding.down_mono (by decide) (by decide) hle
  · obtain rfl := ((checkTarget_eq_ok_iff ..).mp hold).value
    obtain ⟨hlow, hhigh⟩ := retargeted_bounds firstHeader lastHeader
    have hpos : 0 < min (retargeted firstHeader lastHeader) network.powLimit :=
      lt_min (by omega) network.powLimit_pos
    have hdown := Rounding.down_le 23 8 (min (retargeted firstHeader lastHeader) network.powLimit)
    refine ⟨_, ?_, hdown.trans (min_le_right ..), hdown.trans ((min_le_left ..).trans hhigh)⟩
    rw [nextBits_eq]
    exact checkTarget_encodeBits hpos (min_le_right ..)

/-- The limit of the network is not a compact target: its encoding is of a smaller one. -/
theorem mainnet_limit_rounds :
    encodeBits Network.mainnet.powLimit = 0x1d00ffff ∧
    ∃ decoded, checkTarget (encodeBits Network.mainnet.powLimit) .mainnet = .ok decoded ∧
      decoded ≤ Network.mainnet.powLimit ∧ (Network.mainnet.powLimit - decoded) * 2 ^ 15 <
        Network.mainnet.powLimit ∧ encodeBits decoded = encodeBits Network.mainnet.powLimit :=
  ⟨by decide +kernel, (compact_targets_round_trip .mainnet).1 _ Network.mainnet.powLimit_pos le_rfl⟩

end OtsServer.VerifyClaim
