import OtsServer.Library.JsonValue
import OtsServer.Service.Json
import OtsServer.Service.ReceiptSteps

/-!
# Foreign lines in the receipts file

The search of `_receipt_on_file` decodes every complete line that comes before the one it looks for.
A line that is not JSON is passed over; a line of JSON that is no object, or that is nested too
deeply, ends the search with an exception.
-/

namespace OtsServer.Service

/-- What `json.loads` raises. -/
def Exc.ofUndecodable : Undecodable → Exc
  | .valueError _ => .valueError
  | .recursionError => .other

/-- A string's code points. -/
def codePoints (text : Text) : List Nat := text.map Char.toNat

def keyTxid : List Nat := codePoints Json.txidName

section Search

variable (loads : Loads)

/-- `json.loads(line).get('txid') == txid`; what is no object has no `get`. -/
def lineNames (txid : List Nat) (line : Bytes) : Except Exc Bool :=
  match loads line with
  | .error e => .error (.ofUndecodable e)
  | .ok (.obj items) =>
      match JsonValue.item items keyTxid with
      | .str found => .ok (found = txid)
      | _ => .ok false
  | .ok _ => .error .attributeError

/-- The loop of `_receipt_on_file` over the complete lines. -/
def searchLines (txid : List Nat) : List Bytes → Except Exc Bool
  | [] => .ok false
  | line :: rest =>
      match lineNames loads txid line with
      | .ok true => .ok true
      | .ok false => searchLines txid rest
      | .error .valueError => searchLines txid rest
      | .error e => .error e

/-- The line decodes to an object with this txid. -/
def Names (txid : List Nat) (line : Bytes) : Prop :=
  ∃ items, loads line = .ok (.obj items) ∧ JsonValue.item items keyTxid = .str txid

/-- A line that the search can read or pass over: an object, or a text that raises a
`ValueError`. -/
def Passable (line : Bytes) : Prop :=
  (∃ text, loads line = .error (.valueError text)) ∨ ∃ items, loads line = .ok (.obj items)

/-- Every line before the first with the txid is passable; without such a line, every line. -/
def Searchable (txid : List Nat) (lines : List Bytes) : Prop :=
  ∀ front line rest, lines = front ++ line :: rest → (∀ line ∈ front, ¬Names loads txid line) →
    Passable loads line

/-- What the search should say: whether some line has the txid. -/
def Answers (txid : List Nat) (lines : List Bytes) (r : Except Exc Bool) : Prop :=
  ∃ found, r = .ok found ∧ (found = true ↔ ∃ line ∈ lines, Names loads txid line)

variable {loads} {txid : List Nat} {line : Bytes} {lines : List Bytes}

end Search

/-! ## The service's search -/

theorem ofNat_codePoints (text : Text) : (codePoints text).map Char.ofNat = text := by
  rw [codePoints, List.map_map]
  conv_rhs => rw [← List.map_id text]
  exact List.map_congr_left fun c _ => Char.ofNat_toNat c

/-- The txid that a text shows, which is written as `b2lx` writes it. -/
def shownTxid (text : List Nat) : Option Bytes :=
  match Text.fromHex (text.map Char.ofNat) with
  | some data => if codePoints (txidText data.reverse) = text then some data.reverse else none
  | none => none

theorem shownTxid_eq_some_iff {text : List Nat} {txid : Bytes} :
    shownTxid text = some txid ↔ text = codePoints (txidText txid) := by
  unfold shownTxid
  constructor
  · intro h
    split at h
    · split_ifs at h with htext
      obtain rfl := Option.some.inj h
      exact htext.symm
    · exact nomatch h
  · rintro rfl
    rw [ofNat_codePoints, txidText, Json.fromHex_hexText]
    dsimp only
    rw [List.reverse_reverse]
    exact if_pos rfl

/-- What `json.loads` makes of the lines that a codec reads. -/
structure Decoder (codec : Codec) where
  loads : Loads
  lineTxid_eq : ∀ line, codec.lineTxid line =
    match loads line with
    | .error e => .error (.ofUndecodable e)
    | .ok (.obj items) =>
        match JsonValue.item items keyTxid with
        | .str found => .ok (shownTxid found)
        | _ => .ok none
    | .ok _ => .error .attributeError

section Service

variable {codec : Codec}

/-- The search for a txid is the search for the text that shows it. -/
theorem findReceipt_eq_searchLines (decoder : Decoder codec) (txid : Bytes) (lines : List Bytes) :
    findReceipt codec txid lines =
      searchLines decoder.loads (codePoints (txidText txid)) lines := by
  induction lines with
  | nil => rfl
  | cons line lines ih =>
      rw [findReceipt, searchLines, decoder.lineTxid_eq, lineNames, ih]
      cases decoder.loads line with
      | error e => cases e <;> rfl
      | ok value =>
          cases value with
          | obj items =>
              dsimp only
              cases JsonValue.item items keyTxid with
              | str found =>
                  dsimp only
                  by_cases hfound : found = codePoints (txidText txid)
                  · rw [if_pos (shownTxid_eq_some_iff.mpr hfound), decide_eq_true hfound]
                  · rw [if_neg (mt shownTxid_eq_some_iff.mp hfound), decide_eq_false hfound]
              | _ => rfl
          | _ => rfl

end Service

end OtsServer.Service
