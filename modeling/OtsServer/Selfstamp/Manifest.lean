import OtsServer.Library.JsonValue
import OtsServer.Selfstamp.Foreign

/-!
# Manifests

The one validator of `ops/selfstamp.py`, what a manifest is known by, and the name of the copy
that is kept of another box's manifest. `loads` is `json.loads`.
-/

namespace OtsServer.Selfstamp

abbrev Items := List (Str × JsonValue)

namespace Str

def ofString (text : String) : Str := text.toList.map Char.toNat

def isDigit (c : Nat) : Bool := 0x30 ≤ c && c ≤ 0x39

/-- A letter of `[A-Za-z0-9._-]`. -/
def isSafe (c : Nat) : Bool :=
  isDigit c || (0x41 ≤ c && c ≤ 0x5a) || (0x61 ≤ c && c ≤ 0x7a) || c == 0x2e ||
    c == 0x5f || c == 0x2d

end Str

def schema1 : Str := Str.ofString "selfstamp/1"
def schema2 : Str := Str.ofString "selfstamp/2"

/-- `SCHEMA`. -/
def schema3 : Str := Str.ofString "selfstamp/3"

def schemas : List Str := [schema1, schema2, schema3]

def keySchema : Str := Str.ofString "schema"
def keySeq : Str := Str.ofString "seq"
def keyPeriod : Str := Str.ofString "period"
def keyChain : Str := Str.ofString "chain"
def keyHost : Str := Str.ofString "host"

/-! ## Dates -/

/-- The value of decimal digits. -/
def digits? (text : Str) : Option Nat :=
  if text.all Str.isDigit then some (text.foldl (fun n c => 10 * n + (c - 0x30)) 0) else none

def isLeap (year : Nat) : Bool := year % 4 = 0 && (year % 100 ≠ 0 || year % 400 = 0)

def daysInMonth (year month : Nat) : Nat :=
  if month = 2 then (if isLeap year then 29 else 28) else if month ∈ [4, 6, 9, 11] then 30 else 31

/-- A year of 53 weeks: its last day, or the one before it, is a Thursday. -/
def isLong (year : Nat) : Bool :=
  let lastDay (y : Nat) := (y + y / 4 - y / 100 + y / 400) % 7
  lastDay year = 4 || lastDay (year - 1) = 3

/-- `datetime.date.fromisoformat` takes a text of ten characters: `YYYY-MM-DD`, or the week form
`YYYY-Www-D`. -/
def isDate (text : Str) : Bool :=
  match text with
  | [y₁, y₂, y₃, y₄, 0x2d, 0x57, w₁, w₂, 0x2d, d] =>
      match digits? [y₁, y₂, y₃, y₄], digits? [w₁, w₂], digits? [d] with
      | some year, some week, some day =>
          1 ≤ year && 1 ≤ week && (week ≤ 52 || (week = 53 && isLong year)) && 1 ≤ day && day ≤ 7 &&
            !(year = 9999 && week = 52 && 5 < day)
      | _, _, _ => false
  | [y₁, y₂, y₃, y₄, 0x2d, m₁, m₂, 0x2d, d₁, d₂] =>
      match digits? [y₁, y₂, y₃, y₄], digits? [m₁, m₂], digits? [d₁, d₂] with
      | some year, some month, some day =>
          1 ≤ year && 1 ≤ month && month ≤ 12 && 1 ≤ day && day ≤ daysInMonth year month
      | _, _, _ => false
  | _ => false

/-! ## The validator -/

/-- What a decoding raises. -/
def faultOf : Undecodable → Fault
  | .valueError _ => .valueError
  | .recursionError => .recursionError

/-- `LABEL`. -/
def isLabel (text : Str) : Bool :=
  text.length = 32 && text.all fun c => Str.isDigit c || (0x61 ≤ c && c ≤ 0x66)

/-- `_label`. -/
def label (m : Items) : Option Str :=
  match JsonValue.item m keyChain with
  | .str chain => if isLabel chain then some chain else none
  | _ => none

/-- `_parse_foreign_manifest`. -/
def parseForeignManifest (loads : Loads) (raw : Bytes) : Except Undecodable Items :=
  match loads raw with
  | .error e => .error e
  | .ok (.obj m) =>
      match JsonValue.item m keySchema with
      | .str schema =>
          if schema ∉ schemas then .error (.valueError "not a selfstamp manifest")
          else
            match JsonValue.item m keySeq with
            | .int seq =>
                if seq < 1 then .error (.valueError "seq is not a positive integer")
                else
                  match JsonValue.item m keyPeriod with
                  | .str period =>
                      if period.length ≠ 10 || !isDate period then
                        .error (.valueError "period is not a date")
                      else if schema = schema3 then
                        if label m = none then
                          .error (.valueError "chain label is not 32 hex digits") else .ok m
                      else
                        match JsonValue.item m keyHost with
                        | .str _ => .ok m
                        | _ => .error (.valueError "manifest lacks host")
                  | _ => .error (.valueError "period is not a date")
            | _ => .error (.valueError "seq is not a positive integer")
      | _ => .error (.valueError "not a selfstamp manifest")
  | .ok _ => .error (.valueError "not a selfstamp manifest")

/-! ## Names of copies -/

/-- `re.sub(r'[^A-Za-z0-9._-]+', '_', text)`. -/
def cleaned : Str → Str
  | [] => []
  | c :: cs => if Str.isSafe c then c :: cleaned cs else 0x5f :: skip cs
where
  /-- Past the rest of a run of other characters. -/
  skip : Str → Str
    | [] => []
    | c :: cs => if Str.isSafe c then c :: cleaned cs else skip cs

/-- `str.strip('._-')`. -/
def stripped (text : Str) : Str :=
  let outer (c : Nat) := c == 0x2e || c == 0x5f || c == 0x2d
  ((text.dropWhile outer).reverse.dropWhile outer).reverse

/-- `safe_name`. -/
def safeName (text : Str) : Str :=
  let name := stripped (cleaned text)
  (if name = [] then Str.ofString "unknown" else name).take 64

/-- The period of a manifest that the validator let through. -/
def period (m : Items) : Str :=
  match JsonValue.item m keyPeriod with
  | .str period => period
  | _ => []

/-- `_copy_name` of a manifest with the bytes `raw`. -/
def copyName (m : Items) (raw : Bytes) : Str :=
  ((label m).elim (Str.ofString "legacy") safeName) ++ 0x2d :: (safeName (period m)) ++
    0x2d :: hexPrefix raw ++ Str.json

end OtsServer.Selfstamp
