import OtsServer.Library.Bytes

/-!
# Numbers and bytes from text

The readings of Python's `int` and `bytes.fromhex`. A text is a list of characters.
`int` takes the decimal digits of every script, single underscores between digits,
one sign, and white space around the whole; `fromhex` takes ASCII white space between
pairs of digits.
-/

abbrev Text := List Char

namespace Text

/-- The zeros of the decimal digits, each followed by its one to nine. -/
def decimalZeros : List Nat :=
  [0x30, 0x660, 0x6f0, 0x7c0, 0x966, 0x9e6, 0xa66, 0xae6, 0xb66, 0xbe6, 0xc66, 0xce6, 0xd66, 0xde6,
   0xe50, 0xed0, 0xf20, 0x1040, 0x1090, 0x17e0, 0x1810, 0x1946, 0x19d0, 0x1a80, 0x1a90, 0x1b50,
   0x1bb0, 0x1c40, 0x1c50, 0xa620, 0xa8d0, 0xa900, 0xa9d0, 0xa9f0, 0xaa50, 0xabf0, 0xff10, 0x104a0,
   0x10d30, 0x11066, 0x110f0, 0x11136, 0x111d0, 0x112f0, 0x11450, 0x114d0, 0x11650, 0x116c0,
   0x11730, 0x118e0, 0x11950, 0x11c50, 0x11d50, 0x11da0, 0x16a60, 0x16ac0, 0x16b50, 0x1d7ce,
   0x1d7d8, 0x1d7e2, 0x1d7ec, 0x1d7f6, 0x1e140, 0x1e2f0, 0x1e950, 0x1fbf0]

def decimalDigit (c : Char) : Option Nat :=
  (decimalZeros.find? fun z => z ≤ c.toNat && c.toNat < z + 10).map (c.toNat - ·)

/-- The white space that may stand around a number. -/
def isSpace (c : Char) : Bool :=
  (0x09 ≤ c.toNat && c.toNat ≤ 0x0d) || (0x2000 ≤ c.toNat && c.toNat ≤ 0x200a) ||
    [0x20, 0x85, 0xa0, 0x1680, 0x2028, 0x2029, 0x202f, 0x205f, 0x3000].contains c.toNat

def strip (text : Text) : Text :=
  ((text.dropWhile isSpace).reverse.dropWhile isSpace).reverse

/-- The digits after `value`; an underscore stands only between two of them. -/
def digits (value : Nat) (afterDigit : Bool) : Text → Option Nat
  | [] => if afterDigit then some value else none
  | c :: cs =>
      if c = '_' then if afterDigit then digits value false cs else none
      else
        match decimalDigit c with
        | some d => digits (10 * value + d) true cs
        | none => none

/-- The number of digits `int` takes at most. -/
def maxDigits : Nat := 4300

def natural (text : Text) : Option Nat :=
  if (text.filter fun c => (decimalDigit c).isSome).length > maxDigits then none
  else digits 0 false text

/-- `int(text)`, `none` for a `ValueError`. -/
def int (text : Text) : Option Int :=
  match strip text with
  | '-' :: rest => (natural rest).map fun n => -(n : Int)
  | '+' :: rest => (natural rest).map Int.ofNat
  | rest => (natural rest).map Int.ofNat

def hexValue (c : Char) : Option Nat :=
  if '0' ≤ c ∧ c ≤ '9' then some (c.toNat - '0'.toNat)
  else if 'a' ≤ c ∧ c ≤ 'f' then some (c.toNat - 'a'.toNat + 10)
  else if 'A' ≤ c ∧ c ≤ 'F' then some (c.toNat - 'A'.toNat + 10)
  else none

def isAsciiSpace (c : Char) : Bool := (0x09 ≤ c.toNat && c.toNat ≤ 0x0d) || c.toNat == 0x20

/-- `bytes.fromhex(text)`, `none` for a `ValueError`. -/
def fromHex : Text → Option Bytes
  | [] => some []
  | [c] => if isAsciiSpace c then some [] else none
  | c :: d :: rest =>
      if isAsciiSpace c then fromHex (d :: rest)
      else
        match hexValue c, hexValue d with
        | some high, some low => (fromHex rest).map (UInt8.ofNat (16 * high + low) :: ·)
        | _, _ => none

example : int [' ', '-', '1', '_', '0', '\n'] = some (-10) := by decide

end Text
