import Mathlib.Data.List.Basic
import Mathlib.Tactic.Linarith

/-!
# Byte strings and their integer readings

A byte string is a list of bytes. The big-endian and little-endian readings are
the ones `struct` uses for fixed-width fields; `hexText` is the lowercase hex of
`bytes.hex`. Nothing here depends on a file format: formats are built on top of
these readings in their own modules.
-/

abbrev Bytes := List UInt8

namespace Bytes

instance : LawfulBEq Bytes := List.instLawfulBEq

/-- The little-endian value of a field of any width. -/
def natLE : Bytes → Nat
  | [] => 0
  | b :: bs => b.toNat + 256 * natLE bs

/-- The big-endian value of a field of any width. -/
def natBE (bs : Bytes) : Nat := bs.foldl (fun acc b => 256 * acc + b.toNat) 0

/-- `width` bytes of `n`, most significant first. -/
def ofNatBE (width n : Nat) : Bytes :=
  (List.range width).map fun i => UInt8.ofNat (n / 256 ^ (width - 1 - i))

@[simp] theorem ofNatBE_length (width n : Nat) : (ofNatBE width n).length = width := by
  simp [ofNatBE]

/-- One lowercase hex digit, as its ASCII byte. -/
def hexDigit (n : Nat) : Char := if n < 10 then Char.ofNat (48 + n) else Char.ofNat (87 + n)

/-- `bytes.hex`. -/
def hexText (bs : Bytes) : List Char :=
  bs.flatMap fun b => [hexDigit (b.toNat / 16), hexDigit (b.toNat % 16)]

theorem hexText_length (bs : Bytes) : (hexText bs).length = 2 * bs.length := by
  induction bs with
  | nil => rfl
  | cons b bs ih =>
      change (hexText bs).length + 2 = _
      rw [ih, List.length_cons]
      omega

/-- Hex text holds hex digits only. -/
theorem exists_of_mem_hexText {c : Char} {bs : Bytes} (h : c ∈ hexText bs) :
    ∃ n < 16, c = hexDigit n := by
  obtain ⟨b, -, hb⟩ := List.mem_flatMap.mp h
  have hlt := b.toNat_lt
  obtain rfl | hb := List.mem_cons.mp hb
  · exact ⟨b.toNat / 16, by omega, rfl⟩
  · exact ⟨b.toNat % 16, by omega, List.mem_singleton.mp hb⟩

theorem hexDigit_inj {i j : Nat} (hi : i < 16) (hj : j < 16) (h : hexDigit i = hexDigit j) :
    i = j := by
  have hall : ∀ i : Fin 16, ∀ j : Fin 16, hexDigit i = hexDigit j → i = j := by decide
  exact congrArg Fin.val (hall ⟨i, hi⟩ ⟨j, hj⟩ h)

theorem hexText_injective : Function.Injective hexText := by
  intro bs
  induction bs with
  | nil =>
      intro cs h
      cases cs with
      | nil => rfl
      | cons c cs => exact nomatch h
  | cons b bs ih =>
      intro cs h
      cases cs with
      | nil => exact nomatch h
      | cons c cs =>
          obtain ⟨hhigh, htail⟩ := List.cons.inj h
          obtain ⟨hlow, htail⟩ := List.cons.inj htail
          have hb := b.toNat_lt
          have hc := c.toNat_lt
          have hhigh := hexDigit_inj (by omega) (by omega) hhigh
          have hlow := hexDigit_inj (by omega) (by omega) hlow
          have hsame : b = c := UInt8.toNat_inj.mp (by omega)
          rw [hsame, ih htail]

end Bytes
