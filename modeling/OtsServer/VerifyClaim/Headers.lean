import OtsServer.Library.Sha256
import Mathlib.Data.Nat.Size

/-!
# Block headers and their targets

The fields of an 80-byte header, the compact target encoding and the rules that one
header meets by itself or with the headers of its difficulty period. Times are
unsigned 32-bit fields, so a period's length is an integer and may be negative
before it is clamped.

`checkTarget` refuses an encoding over 256 bits before it decodes the value; the
decoded value is not truncated, so that rule is implied by the limit of the network
(`checkTarget_eq_ok_iff`).
-/

namespace OtsServer.VerifyClaim

/-- The entries of `NETWORKS`. -/
inductive Network
  | mainnet | regtest
deriving DecidableEq

namespace Network

def name : Network → String
  | mainnet => "mainnet"
  | regtest => "regtest"

/-- The genesis block's hash, as it is displayed. -/
def genesis : Network → List Char
  | mainnet => "000000000019d6689c085ae165831e934ff763ae46a2a6c172b3f1b60a8ce26f".toList
  | regtest => "0f9188f13cb7b2c71f2a335e3a4fc328bf5beb436012afca590b1a11466e2206".toList

def powLimit : Network → Nat
  | mainnet => 2 ^ 224 - 1
  | regtest => 2 ^ 255 - 1

def retarget : Network → Bool
  | mainnet => true
  | regtest => false

end Network

def retargetInterval : Nat := 2016
def targetTimespan : Nat := 14 * 24 * 60 * 60
def headerSize : Nat := 80

def sha256d (data : Bytes) : Bytes := Sha256.digest (Sha256.digest data)

/-- A hash as it is displayed: its bytes backwards, in hex. -/
def display (hash : Bytes) : List Char := Bytes.hexText hash.reverse

structure HeaderFields where
  version : Int
  prev : Bytes
  merkleRoot : Bytes
  time : Nat
  bits : Nat
  nonce : Nat
deriving DecidableEq

/-- The two's complement reading of a 32-bit field. -/
def signed32 (n : Nat) : Int := if n < 2 ^ 31 then n else (n : Int) - 2 ^ 32

def headerFields (header : Bytes) : HeaderFields where
  version := signed32 (Bytes.natLE (header.take 4))
  prev := (header.drop 4).take 32
  merkleRoot := (header.drop 36).take 32
  time := Bytes.natLE ((header.drop 68).take 4)
  bits := Bytes.natLE ((header.drop 72).take 4)
  nonce := Bytes.natLE ((header.drop 76).take 4)

/-- `header_bits`. -/
def headerBits (header : Bytes) : Nat := Bytes.natLE ((header.drop 72).take 4)

@[simp] theorem headerFields_bits (header : Bytes) :
    (headerFields header).bits = headerBits header := rfl

/-- The value of a compact target, sign and size rules aside. -/
def decodeBits (bits : Nat) : Nat :=
  let exponent := bits >>> 24
  let mantissa := bits &&& 0x7fffff
  if exponent ≤ 3 then mantissa >>> (8 * (3 - exponent)) else mantissa <<< (8 * (exponent - 3))

/-- The rules by which `check_target` refuses. -/
inductive TargetError
  | negative
  | overflow
  | zero
  | aboveLimit (network : Network)
deriving DecidableEq

def checkTarget (bits : Nat) (network : Network) : Except TargetError Nat :=
  let exponent := bits >>> 24
  let mantissa := bits &&& 0x7fffff
  if mantissa ≠ 0 ∧ bits &&& 0x800000 ≠ 0 then .error .negative
  else if mantissa ≠ 0 ∧ (exponent > 34 ∨ (mantissa > 0xff ∧ exponent > 33) ∨
      (mantissa > 0xffff ∧ exponent > 32)) then .error .overflow
  else if decodeBits bits = 0 then .error .zero
  else if decodeBits bits > network.powLimit then .error (.aboveLimit network)
  else .ok (decodeBits bits)

def encodeBits (target : Nat) : Nat :=
  let size := (target.size + 7) / 8
  let compact := if size ≤ 3 then target <<< (8 * (3 - size)) else target >>> (8 * (size - 3))
  if compact &&& 0x800000 ≠ 0 then (compact >>> 8) ||| ((size + 1) <<< 24)
  else compact ||| (size <<< 24)

/-- The bits that the retarget after a period demands. -/
def nextBits (firstHeader lastHeader : Bytes) (network : Network) : Nat :=
  let actual : Int := ((headerFields lastHeader).time : Int) - (headerFields firstHeader).time
  let actual := max ((targetTimespan / 4 : Nat) : Int)
    (min ((targetTimespan * 4 : Nat) : Int) actual)
  let target := decodeBits (headerBits lastHeader) * actual.toNat / targetTimespan
  encodeBits (min target network.powLimit)

/-- The target rules: the encoding is not negative, and its value is positive and
within the limit of the network. -/
structure IsTarget (network : Network) (bits target : Nat) : Prop where
  value : decodeBits bits = target
  sign : bits &&& 0x7fffff = 0 ∨ bits &&& 0x800000 = 0
  positive : 0 < target
  limit : target ≤ network.powLimit

theorem Network.powLimit_lt (network : Network) : network.powLimit < 2 ^ 256 := by
  cases network <;> norm_num [Network.powLimit]

/-- An encoding that `check_target` calls an overflow has a value over 256 bits. -/
theorem overflow_le_decodeBits {bits : Nat} (hm : bits &&& 0x7fffff ≠ 0)
    (h : bits >>> 24 > 34 ∨ (bits &&& 0x7fffff > 0xff ∧ bits >>> 24 > 33) ∨
      (bits &&& 0x7fffff > 0xffff ∧ bits >>> 24 > 32)) :
    2 ^ 256 ≤ decodeBits bits := by
  generalize he : bits >>> 24 = exponent at h
  generalize hx : bits &&& 0x7fffff = mantissa at h hm
  have hlarge : ¬exponent ≤ 3 := by omega
  have hshift : ∀ low size, 2 ^ (8 * low) ≤ mantissa → size ≤ exponent →
      256 ≤ 8 * low + 8 * (size - 3) → 2 ^ 256 ≤ mantissa <<< (8 * (exponent - 3)) := by
    intro low size hlow hsize htotal
    rw [Nat.shiftLeft_eq]
    calc 2 ^ 256 ≤ 2 ^ (8 * low + 8 * (size - 3)) := Nat.pow_le_pow_right (by norm_num) htotal
      _ = 2 ^ (8 * low) * 2 ^ (8 * (size - 3)) := pow_add ..
      _ ≤ mantissa * 2 ^ (8 * (exponent - 3)) :=
          Nat.mul_le_mul hlow (Nat.pow_le_pow_right (by norm_num) (by omega))
  simp only [decodeBits, he, hx, if_neg hlarge]
  rcases h with h | ⟨hb, h⟩ | ⟨hb, h⟩
  · exact hshift 0 35 (by omega) h (by norm_num)
  · exact hshift 1 34 (by omega) h (by norm_num)
  · exact hshift 2 33 (by omega) h (by norm_num)

/-- `check_target` returns the value of the encoding exactly under the target rules. -/
theorem checkTarget_eq_ok_iff (network : Network) (bits target : Nat) :
    checkTarget bits network = .ok target ↔ IsTarget network bits target := by
  have hlimit := network.powLimit_lt
  constructor
  · intro h
    simp only [checkTarget] at h
    split_ifs at h with hneg hover hzero habove
    obtain rfl := Except.ok.inj h
    exact ⟨rfl, by tauto, Nat.pos_of_ne_zero hzero, Nat.le_of_not_gt habove⟩
  · rintro ⟨rfl, hsign, hpos, hle⟩
    have hneg : ¬(bits &&& 0x7fffff ≠ 0 ∧ bits &&& 0x800000 ≠ 0) := by tauto
    have hover : ¬(bits &&& 0x7fffff ≠ 0 ∧ (bits >>> 24 > 34 ∨
        (bits &&& 0x7fffff > 0xff ∧ bits >>> 24 > 33) ∨
        (bits &&& 0x7fffff > 0xffff ∧ bits >>> 24 > 32))) := by
      rintro ⟨hm, h⟩
      have := overflow_le_decodeBits hm h
      omega
    simp only [checkTarget, if_neg hneg, if_neg hover, if_neg hpos.ne', if_neg (Nat.not_lt.mpr hle)]

end OtsServer.VerifyClaim
