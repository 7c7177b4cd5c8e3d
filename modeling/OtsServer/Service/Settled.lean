import OtsServer.Service.Foreign

/-!
# Markers of any body

`__settle_marker` sets a marker aside that raises what a spoiled body is expected to raise. Any
other exception, of its body or of the lines that its search comes to, leaves it standing.
-/

namespace OtsServer.Service

/-! ## Reading a marker -/

abbrev Items := List (List Nat × JsonValue)

def keyReceipt : List Nat := codePoints Json.receiptName

/-- `lx`: hexadecimal digits, the last byte first. -/
def lx (text : List Nat) : Except Exc Bytes :=
  let chars := text.map Char.ofNat
  if chars.any Text.isAsciiSpace then .error .valueError
  else
    match Text.fromHex chars with
    | some data => .ok data.reverse
    | none => .error .valueError

/-- What a marker holds: its receipt, the txid there and the probe made from it. -/
structure Marker where
  receipt : Items
  text : List Nat
  txid : Bytes

/-- `json.loads(body)['receipt']`, its `['txid']` and the probe: what is no object has no such
members, and a txid that is no text cannot be encoded. -/
def readMarker (loads : Loads) (body : Bytes) : Except Exc Marker :=
  match loads body with
  | .error e => .error (.ofUndecodable e)
  | .ok (.obj members) =>
      match members.lookup keyReceipt with
      | none => .error .keyError
      | some (.obj receipt) =>
          match receipt.lookup keyTxid with
          | none => .error .keyError
          | some (.str text) => (lx text).map fun txid => ⟨receipt, text, txid⟩
          | some _ => .error .attributeError
      | some _ => .error .typeError
  | .ok _ => .error .typeError

section Settle

variable (env : Env) (loads : Loads) (dumps : Items → Option Bytes)

/-- `_append_anchor_receipt` of any object; without a text `json.dumps` raises, of values nested too
deeply. -/
def appendReceipt (receipt : Items) : M Unit :=
  match dumps receipt with
  | some text => appendLine env text
  | none => Prog.raise .other

def Marker.due (marker : Marker) : Due where
  txid := marker.txid
  search := searchLines loads marker.text
  append := appendReceipt env dumps marker.receipt

/-- `__settle_marker` of a marker with any body. -/
def settleAnyMarker (name : Bytes) : M Unit :=
  settleBy env (fun body => (readMarker loads body).map (Marker.due env loads dumps)) name

end Settle

/-! ## Deciding -/

/-- A marker is decided: it is gone, or a call failed, or the storage contradicts itself. -/
def Decided (name : Bytes) (r : Except Exc Unit × World) : Prop :=
  match r with
  | (.ok (), w) => name ∉ w.disk.markers
  | (.error e, _) => IsFileError e ∨ e = .levelDb ∨ e = .receiptsAheadOfDatabase

/-- The search for the marker's receipt can be answered, and a receipt that is owed can be
written. -/
structure Answerable (loads : Loads) (dumps : Items → Option Bytes) (s : State) (marker : Marker) :
    Prop where
  searchable : Searchable loads marker.text (completeLines s.disk.receipts)
  written : s.db.holds (.txid marker.txid) = true →
    (∃ line ∈ completeLines s.disk.receipts, Names loads marker.text line) ∨ ∃ text,
      dumps marker.receipt = some text

section Marker

variable {env : Env} {loads : Loads} {dumps : Items → Option Bytes} {s : State}
  {name body : Bytes} {marker : Marker}

section Quiet

variable {lib : Lib} {w : World}

end Quiet

end Marker

/-! ## The markers that the service writes -/

/-- What `json.loads` and `json.dumps` make of the markers that a codec writes: the receipt of one
is read back, and is written as its line. -/
structure MarkerDecoder (codec : Codec) extends Decoder codec where
  dumps : Items → Option Bytes
  marker_body : ∀ receipt, ∃ items, dumps items = some (codec.line receipt) ∧
    readMarker loads (codec.body receipt ++ [newline]) =
      .ok ⟨items, codePoints (txidText receipt.txid), receipt.txid⟩

theorem lx_txidText (txid : Bytes) : lx (codePoints (txidText txid)) = .ok txid := by
  have hspace : ¬(txidText txid).any Text.isAsciiSpace = true := by
    rw [List.any_eq_true]
    rintro ⟨c, hc, hspace⟩
    obtain ⟨n, hn, rfl⟩ := Bytes.exists_of_mem_hexText hc
    exact Bool.false_ne_true ((Json.hexDigit_spec hn).2.2.symm.trans hspace)
  rw [lx, ofNat_codePoints, if_neg hspace, txidText, Json.fromHex_hexText]
  exact congrArg Except.ok (List.reverse_reverse txid)

/-- Such a marker is settled as the service settles it. -/
theorem settleAnyMarker_eq {env : Env} {w : World} {name : Bytes}
    {receipt : Receipt} (decoder : MarkerDecoder env.lib.codec)
    (hname : w.disk.markers.lookup name = some (env.lib.codec.body receipt ++ [newline])) :
    settleAnyMarker env decoder.loads decoder.dumps name w = settleMarker env name w := by
  obtain ⟨items, hdumps, hmarker⟩ := decoder.marker_body receipt
  have hdue : (⟨items, codePoints (txidText receipt.txid), receipt.txid⟩ : Marker).due
      env decoder.loads decoder.dumps = dueOf env receipt := by
    have hsearch : searchLines decoder.loads (codePoints (txidText receipt.txid)) =
        findReceipt env.lib.codec receipt.txid :=
      funext fun lines => (findReceipt_eq_searchLines decoder.toDecoder receipt.txid lines).symm
    have happend : appendReceipt env decoder.dumps items = appendAnchorReceipt env receipt := by
      rw [appendReceipt, hdumps]
      rfl
    rw [Marker.due, dueOf, hsearch, happend]
  have hread : (readMarker decoder.loads (env.lib.codec.body receipt ++ [newline])).map
      (Marker.due env decoder.loads decoder.dumps) =
        (env.lib.codec.bodyReceipt (env.lib.codec.body receipt ++ [newline])).map (dueOf env) := by
    rw [hmarker, env.lib.codec.bodyReceipt_body]
    exact congrArg Except.ok hdue
  unfold settleAnyMarker settleMarker settleBy
  have hcall : fileCall env w = ((env.file w.tick).result, { w with tick := w.tick + 1 }) := rfl
  cases hresult : (env.file w.tick).result with
  | error e =>
      rw [hresult] at hcall
      rw [Prog.bind_of_error hcall, Prog.bind_of_error hcall]
  | ok _ =>
      rw [hresult] at hcall
      rw [Prog.bind_of_ok hcall, Prog.bind_of_ok hcall]
      have hgets : Prog.gets (fun u : World => u.disk.markers) { w with tick := w.tick + 1 } =
          ((.ok w.disk.markers : Except Exc _), { w with tick := w.tick + 1 }) := rfl
      rw [Prog.bind_of_ok hgets, Prog.bind_of_ok hgets, hname]
      dsimp only
      rw [hread]

/-! ## Deciding every marker -/

namespace ListLine

/-- An empty list. -/
def listLine : Bytes := [0x5b, 0x5d, newline]

def items (r : Receipt) : List (List Nat × JsonValue) :=
  [(keyTxid, .str (codePoints (txidText r.txid))), (codePoints Json.feeSatsName, .int r.feeSats),
    (codePoints Json.commitmentsName, .int r.commitments),
    (codePoints Json.confirmedHeightName, .int r.confirmedHeight),
    (codePoints Json.confirmedAtName, .int r.confirmedAt),
    (codePoints Json.recordsName, .int r.records)]

/-- `json.loads` of an empty list, of a receipt and of a marker's body; another text is taken for
one that is not JSON. -/
def loads : Loads := fun text =>
  if text = listLine then .ok (.arr [])
  else
    match Json.readLine text, Json.readBody text with
    | some r, _ => .ok (.obj (items r))
    | none, some r =>
        .ok (.obj [(keyReceipt, .obj (items r)),
            (codePoints Json.probeName, .str (codePoints (Bytes.hexText r.txid)))])
    | none, none => .error (.valueError "Expecting value: line 1 column 1 (char 0)")

/-- `json.dumps` of a receipt's members. -/
def dumps : Items → Option Bytes
  | [(_, .str text), (_, .int feeSats), (_, .int commitments), (_, .int confirmedHeight),
      (_, .int confirmedAt), (_, .int records)] =>
      (shownTxid text).map fun txid =>
        Json.codec.line ⟨txid, feeSats, commitments.toNat, confirmedHeight,
          confirmedAt, records.toNat⟩
  | _ => none

theorem loads_receipt (r : Receipt) :
    loads (Json.codec.line r ++ [newline]) = .ok (.obj (items r)) := by
  have hne : Json.codec.line r ++ [newline] ≠ listLine := fun h => by
    have hhead : (Json.codec.line r ++ [newline]).head? = listLine.head? := congrArg List.head? h
    exact absurd hhead (by decide : some (0x7b : UInt8) ≠ some 0x5b)
  have hread : Json.readLine (Json.codec.line r ++ [newline]) = some r :=
    Json.readLine_receiptText r
  rw [loads, if_neg hne, hread]

theorem loads_body (r : Receipt) :
    loads (Json.codec.body r ++ [newline]) = .ok (.obj [(keyReceipt, .obj (items r)),
    (codePoints Json.probeName, .str (codePoints (Bytes.hexText r.txid)))]) := by
  have hne : Json.codec.body r ++ [newline] ≠ listLine := fun h => by
    have hhead : (Json.codec.body r ++ [newline]).head? = listLine.head? := congrArg List.head? h
    exact absurd hhead (by decide : some (0x7b : UInt8) ≠ some 0x5b)
  have hline : Json.readLine (Json.codec.body r ++ [newline]) = none := by
    rw [Json.readLine, show Json.codec.body r = Json.ascii (Json.bodyText r) from rfl,
      Json.ofAscii_line (Json.bodyText_printable r)]
    rfl
  have hbody : Json.readBody (Json.codec.body r ++ [newline]) = some r := Json.readBody_bodyText r
  rw [loads, if_neg hne, hline, hbody]

theorem item_txid (r : Receipt) :
    JsonValue.item (items r) keyTxid = .str (codePoints (txidText r.txid)) :=
  rfl

def codec : Codec :=
  { Json.codec with
    lineTxid := fun line =>
      match loads line with
      | .error e => .error (.ofUndecodable e)
      | .ok (.obj items) =>
          match JsonValue.item items keyTxid with
          | .str found => .ok (shownTxid found)
          | _ => .ok none
      | .ok _ => .error .attributeError
    lineTxid_line := fun r => by
      rw [loads_receipt]
      dsimp only
      rw [item_txid]
      exact congrArg Except.ok (shownTxid_eq_some_iff.mpr rfl) }

theorem dumps_items (r : Receipt) : dumps (items r) = some (Json.codec.line r) := by
  change (shownTxid (codePoints (txidText r.txid))).map _ = _
  rw [shownTxid_eq_some_iff.mpr rfl]
  rfl

def decoder : MarkerDecoder codec where
  loads := loads
  lineTxid_eq _ := rfl
  dumps := dumps
  marker_body r := by
    refine ⟨items r, dumps_items r, ?_⟩
    have hbody : loads (codec.body r ++ [newline]) = _ := loads_body r
    rw [readMarker, hbody]
    exact congrArg (Except.map _) (lx_txidText r.txid)

def receipt : Receipt := ⟨[0xab], 1, 1, 1, 1, 1⟩

/-- A list, and behind it the receipt. -/
def file : Bytes := listLine ++ (codec.line receipt ++ [newline])

end ListLine

end OtsServer.Service
