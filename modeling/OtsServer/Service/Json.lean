import OtsServer.Service.Entries
import OtsServer.Service.Runs

/-!
# Receipts as JSON

The texts that `json.dumps` gives for a receipt and for the body of a marker, and a reader
of texts of this form. They are a codec: a receipt that was written is read back.
-/

namespace OtsServer.Service

namespace Json

/-! ## Writing -/

def ascii (text : Text) : Bytes := text.map fun c => UInt8.ofNat c.toNat

def ofAscii (data : Bytes) : Text := data.map fun b => Char.ofNat b.toNat

def intText (n : Int) : Text := if n < 0 then '-' :: decimal n.natAbs else decimal n.natAbs

def txidName : Text := ['t', 'x', 'i', 'd']
def feeSatsName : Text := ['f', 'e', 'e', '_', 's', 'a', 't', 's']
def commitmentsName : Text := ['c', 'o', 'm', 'm', 'i', 't', 'm', 'e', 'n', 't', 's']
def confirmedHeightName : Text :=
  ['c', 'o', 'n', 'f', 'i', 'r', 'm', 'e', 'd', '_', 'h', 'e', 'i', 'g', 'h', 't']
def confirmedAtName : Text := ['c', 'o', 'n', 'f', 'i', 'r', 'm', 'e', 'd', '_', 'a', 't']
def recordsName : Text := ['r', 'e', 'c', 'o', 'r', 'd', 's']
def receiptName : Text := ['r', 'e', 'c', 'e', 'i', 'p', 't']
def probeName : Text := ['p', 'r', 'o', 'b', 'e']

/-- A member's name, after a brace. -/
def braced (name : Text) : Text := '\x7b' :: '"' :: (name ++ ['"', ':', ' '])

/-- A member's name, after the member before. -/
def comma (name : Text) : Text := ',' :: ' ' :: '"' :: (name ++ ['"', ':', ' '])

def quote : Text := ['"']

def closing : Text := ['\x7d']

/-- `json.dumps(receipt)`. -/
def receiptText (r : Receipt) : Text :=
  braced txidName ++ (quote ++ (txidText r.txid ++ (quote ++
    (comma feeSatsName ++ (intText r.feeSats ++
    (comma commitmentsName ++ (decimal r.commitments ++
    (comma confirmedHeightName ++ (intText r.confirmedHeight ++
    (comma confirmedAtName ++ (intText r.confirmedAt ++
    (comma recordsName ++ (decimal r.records ++ closing)))))))))))))

/-- `json.dumps` of a marker's body. -/
def bodyText (r : Receipt) : Text :=
  braced receiptName ++ (receiptText r ++ (comma probeName ++ (quote ++
    (Bytes.hexText r.txid ++ (quote ++ closing)))))

/-! ## Reading -/

/-- What follows `lit`. -/
def expect (lit text : Text) : Option Text :=
  if lit.isPrefixOf text then some (text.drop lit.length) else none

def readNat (text : Text) : Option (Nat × Text) :=
  let digits := text.takeWhile isDecimalDigit
  if digits = [] then none else some (decimalValue digits, text.drop digits.length)

def readInt (text : Text) : Option (Int × Text) :=
  match text with
  | '-' :: rest => (readNat rest).map fun r => (-(r.1 : Int), r.2)
  | text => (readNat text).map fun r => ((r.1 : Int), r.2)

def readHex (text : Text) : Option (Bytes × Text) :=
  let digits := text.takeWhile isHexDigit
  (Text.fromHex digits).map fun data => (data, text.drop digits.length)

def readReceipt (text : Text) : Option (Receipt × Text) := do
  let text ← expect (braced txidName) text
  let text ← expect quote text
  let (id, text) ← readHex text
  let text ← expect quote text
  let text ← expect (comma feeSatsName) text
  let (feeSats, text) ← readInt text
  let text ← expect (comma commitmentsName) text
  let (commitments, text) ← readNat text
  let text ← expect (comma confirmedHeightName) text
  let (confirmedHeight, text) ← readInt text
  let text ← expect (comma confirmedAtName) text
  let (confirmedAt, text) ← readInt text
  let text ← expect (comma recordsName) text
  let (records, text) ← readNat text
  let text ← expect closing text
  some (⟨id.reverse, feeSats, commitments, confirmedHeight, confirmedAt, records⟩, text)

/-- The receipt of a line. -/
def readLine (line : Bytes) : Option Receipt := do
  let (receipt, text) ← readReceipt (ofAscii line)
  if text = ['\n'] then some receipt else none

/-- The receipt of a marker. -/
def readBody (body : Bytes) : Option Receipt := do
  let text ← expect (braced receiptName) (ofAscii body)
  let (receipt, text) ← readReceipt text
  let text ← expect (comma probeName) text
  let text ← expect quote text
  let (_, text) ← readHex text
  let text ← expect quote text
  let text ← expect closing text
  if text = ['\n'] then some receipt else none

/-! ## Reading what was written -/

section Fields

variable {rest : Text}

theorem expect_append (lit rest : Text) : expect lit (lit ++ rest) = some rest := by
  rw [expect, if_pos (List.isPrefixOf_iff_prefix.mpr (List.prefix_append lit rest)), List.drop_left]

/-- No text goes on with a letter of the field before it. -/
def Ends (p : Char → Bool) (rest : Text) : Prop := ∀ c ∈ rest.head?, p c = false

theorem takeWhile_append_of_ends {p : Char → Bool} {word : Text} (hword : ∀ c ∈ word, p c = true)
    (hrest : Ends p rest) : (word ++ rest).takeWhile p = word := by
  have htail : rest.takeWhile p = [] := by
    cases rest with
    | nil => rfl
    | cons c rest => rw [List.takeWhile_cons, if_neg (Bool.not_eq_true _ ▸ hrest c rfl)]
  rw [List.takeWhile_append_of_pos hword, htail, List.append_nil]

theorem readNat_decimal (n : Nat) (h : Ends isDecimalDigit rest) :
    readNat (decimal n ++ rest) = some (n, rest) := by
  rw [readNat, takeWhile_append_of_ends (decimal_digits n) h, if_neg (decimal_ne_nil n),
    decimalValue_decimal, List.drop_left]

theorem readInt_intText (n : Int) (h : Ends isDecimalDigit rest) :
    readInt (intText n ++ rest) = some (n, rest) := by
  rw [intText]
  split_ifs with hneg
  · rw [List.cons_append, readInt, readNat_decimal _ h, Option.map_some]
    dsimp only
    rw [show -(n.natAbs : Int) = n by omega]
  · have hhead : ∀ c text, decimal n.natAbs ++ rest = c :: text → c ≠ '-' := by
      rintro c text htext rfl
      obtain ⟨d, ds, hds⟩ := List.exists_cons_of_ne_nil (decimal_ne_nil n.natAbs)
      rw [hds, List.cons_append] at htext
      have := decimal_digits n.natAbs '-' (hds ▸ (List.cons.inj htext).1 ▸ List.mem_cons_self ..)
      exact nomatch this
    rw [readInt]
    · rw [readNat_decimal _ h, Option.map_some]
      dsimp only
      rw [show (n.natAbs : Int) = n by omega]
    · exact fun text htext => hhead _ _ htext rfl

theorem hexDigit_spec {n : Nat} (h : n < 16) :
    isHexDigit (Bytes.hexDigit n) = true ∧ Text.hexValue (Bytes.hexDigit n) = some n ∧
      Text.isAsciiSpace (Bytes.hexDigit n) = false := by
  interval_cases n <;> decide

theorem hexText_digits (data : Bytes) : ∀ c ∈ Bytes.hexText data, isHexDigit c = true := by
  intro c hc
  obtain ⟨b, -, hb⟩ := List.mem_flatMap.mp hc
  have := b.toNat_lt
  obtain rfl | hb := List.mem_cons.mp hb
  · exact (hexDigit_spec (by omega)).1
  · rw [List.mem_singleton.mp hb]
    exact (hexDigit_spec (by omega)).1

theorem fromHex_hexText (data : Bytes) : Text.fromHex (Bytes.hexText data) = some data := by
  induction data with
  | nil => rfl
  | cons b data ih =>
      have := b.toNat_lt
      obtain ⟨-, hhigh, hspace⟩ := hexDigit_spec (show b.toNat / 16 < 16 by omega)
      obtain ⟨-, hlow, -⟩ := hexDigit_spec (show b.toNat % 16 < 16 by omega)
      change Text.fromHex
        (Bytes.hexDigit (b.toNat / 16) :: Bytes.hexDigit (b.toNat % 16) :: Bytes.hexText data) = _
      rw [Text.fromHex, hspace, if_neg Bool.false_ne_true, hhigh, hlow, ih]
      dsimp only
      rw [Option.map_some, Nat.div_add_mod, UInt8.ofNat_toNat]

theorem readHex_hexText (data : Bytes) (h : Ends isHexDigit rest) :
    readHex (Bytes.hexText data ++ rest) = some (data, rest) := by
  rw [readHex, takeWhile_append_of_ends (hexText_digits data) h, fromHex_hexText,
    Option.map_some, List.drop_left]

theorem ends_cons {p : Char → Bool} {c : Char} (h : p c = false) (text : Text) :
    Ends p (c :: text) :=
  fun _ hd => Option.some.inj hd ▸ h

theorem ends_comma {p : Char → Bool} (h : p ',' = false) (name text : Text) :
    Ends p (comma name ++ text) :=
  ends_cons h _

theorem bind_of_eq_some {α β : Type} {x : Option α} {a : α} (h : x = some a) (f : α → Option β) :
    (x >>= f) = f a := by
  rw [h]
  rfl

theorem readReceipt_receiptText (r : Receipt) (rest : Text) :
    readReceipt (receiptText r ++ rest) = some (r, rest) := by
  have hdigit : isDecimalDigit ',' = false := by decide
  have hquote : ∀ text, Ends isHexDigit (quote ++ text) := fun _ => ends_cons (by decide) _
  have hclose : ∀ text, Ends isDecimalDigit (closing ++ text) := fun _ => ends_cons (by decide) _
  rw [receiptText]
  simp only [List.append_assoc]
  refine (bind_of_eq_some (expect_append _ _) _).trans ?_
  refine (bind_of_eq_some (expect_append _ _) _).trans ?_
  refine (bind_of_eq_some (readHex_hexText _ (hquote _)) _).trans ?_
  refine (bind_of_eq_some (expect_append _ _) _).trans ?_
  refine (bind_of_eq_some (expect_append _ _) _).trans ?_
  refine (bind_of_eq_some (readInt_intText _ (ends_comma hdigit _ _)) _).trans ?_
  refine (bind_of_eq_some (expect_append _ _) _).trans ?_
  refine (bind_of_eq_some (readNat_decimal _ (ends_comma hdigit _ _)) _).trans ?_
  refine (bind_of_eq_some (expect_append _ _) _).trans ?_
  refine (bind_of_eq_some (readInt_intText _ (ends_comma hdigit _ _)) _).trans ?_
  refine (bind_of_eq_some (expect_append _ _) _).trans ?_
  refine (bind_of_eq_some (readInt_intText _ (ends_comma hdigit _ _)) _).trans ?_
  refine (bind_of_eq_some (expect_append _ _) _).trans ?_
  refine (bind_of_eq_some (readNat_decimal _ (hclose _)) _).trans ?_
  refine (bind_of_eq_some (expect_append _ _) _).trans ?_
  rw [List.reverse_reverse]

end Fields

/-! ## Lines -/

/-- A character of a line of ASCII text. -/
def Printable (c : Char) : Prop := 32 ≤ c.toNat ∧ c.toNat < 128

instance (c : Char) : Decidable (Printable c) := inferInstanceAs (Decidable (_ ∧ _))

theorem decimal_printable (n : Nat) : ∀ c ∈ decimal n, Printable c := by
  intro c hc
  have := decimal_digits n c hc
  simp only [isDecimalDigit, Bool.and_eq_true, decide_eq_true_eq] at this
  exact ⟨by omega, by omega⟩

theorem intText_printable (n : Int) : ∀ c ∈ intText n, Printable c := by
  intro c hc
  rw [intText] at hc
  split_ifs at hc
  · obtain rfl | hc := List.mem_cons.mp hc
    · decide
    · exact decimal_printable _ c hc
  · exact decimal_printable _ c hc

theorem hexText_printable (data : Bytes) : ∀ c ∈ Bytes.hexText data, Printable c := by
  intro c hc
  have := hexText_digits data c hc
  simp only [isHexDigit, Bool.or_eq_true, Bool.and_eq_true, decide_eq_true_eq] at this
  exact ⟨by omega, by omega⟩

theorem printable_of_all {text : Text}
    (h : text.all (fun c => 32 ≤ c.toNat && c.toNat < 128) = true) : ∀ c ∈ text, Printable c := by
  intro c hc
  have := List.all_eq_true.mp h c hc
  simp only [Bool.and_eq_true, decide_eq_true_eq] at this
  exact this

theorem braced_printable {name : Text} (h : ∀ c ∈ name, Printable c) :
    ∀ c ∈ braced name, Printable c := by
  simp only [braced, List.forall_mem_cons, List.forall_mem_append]
  exact ⟨by decide, by decide, h, by decide, by decide, by decide, fun _ hc =>
    absurd hc List.not_mem_nil⟩

theorem comma_printable {name : Text} (h : ∀ c ∈ name, Printable c) :
    ∀ c ∈ comma name, Printable c := by
  simp only [comma, List.forall_mem_cons, List.forall_mem_append]
  exact ⟨by decide, by decide, by decide, h, by decide, by decide, by decide,
    fun _ hc => absurd hc List.not_mem_nil⟩

theorem quote_printable : ∀ c ∈ quote, Printable c := printable_of_all rfl

theorem closing_printable : ∀ c ∈ closing, Printable c := printable_of_all rfl

theorem receiptText_printable (r : Receipt) : ∀ c ∈ receiptText r, Printable c := by
  simp only [receiptText, List.forall_mem_append]
  refine ⟨braced_printable (printable_of_all ?_), quote_printable,
    hexText_printable _, quote_printable, comma_printable (printable_of_all ?_),
    intText_printable _, comma_printable (printable_of_all ?_),
    decimal_printable _, comma_printable (printable_of_all ?_), intText_printable _,
    comma_printable (printable_of_all ?_), intText_printable _,
    comma_printable (printable_of_all ?_), decimal_printable _, closing_printable⟩
  all_goals rfl

theorem bodyText_printable (r : Receipt) : ∀ c ∈ bodyText r, Printable c := by
  simp only [bodyText, List.forall_mem_append]
  refine ⟨braced_printable (printable_of_all ?_), receiptText_printable r, comma_printable
    (printable_of_all ?_), quote_printable, hexText_printable _, quote_printable, closing_printable⟩
  all_goals rfl

theorem toNat_ofNat {c : Char} (h : Printable c) : (UInt8.ofNat c.toNat).toNat = c.toNat := by
  rw [UInt8.toNat_ofNat']
  exact Nat.mod_eq_of_lt (h.2.trans (by decide))

theorem ofAscii_line {text : Text} (h : ∀ c ∈ text, Printable c) :
    ofAscii (ascii text ++ [newline]) = text ++ ['\n'] := by
  have htext : ofAscii (ascii text) = text := by
    rw [ofAscii, ascii, List.map_map]
    conv_rhs => rw [← List.map_id text]
    refine List.map_congr_left fun c hc => ?_
    rw [Function.comp_apply, toNat_ofNat (h c hc), Char.ofNat_toNat, id]
  rw [ofAscii, List.map_append]
  exact congrArg (· ++ ['\n']) htext

theorem newline_notMem_ascii {text : Text} (h : ∀ c ∈ text, Printable c) :
    newline ∉ ascii text := by
  intro hmem
  obtain ⟨c, hc, hnl⟩ := List.mem_map.mp hmem
  have hvalue : c.toNat = 10 := (toNat_ofNat (h c hc)).symm.trans (congrArg UInt8.toNat hnl)
  have := (h c hc).1
  omega

theorem readLine_receiptText (r : Receipt) :
    readLine (ascii (receiptText r) ++ [newline]) = some r := by
  rw [readLine, ofAscii_line (receiptText_printable r), readReceipt_receiptText]
  rfl

theorem readBody_bodyText (r : Receipt) : readBody (ascii (bodyText r) ++ [newline]) = some r := by
  have hquote : ∀ text, Ends isHexDigit (quote ++ text) := fun _ => ends_cons (by decide) _
  rw [readBody, ofAscii_line (bodyText_printable r)]
  simp only [bodyText, List.append_assoc, expect_append, Option.bind_eq_bind,
    Option.bind_some, readReceipt_receiptText, readHex_hexText r.txid (hquote _), if_true]

/-- A text that is no receipt raises as a text that is not JSON. -/
def codec : Codec where
  line r := ascii (receiptText r)
  body r := ascii (bodyText r)
  lineTxid line :=
    match readLine line with
    | some r => .ok (some r.txid)
    | none => .error .valueError
  lineReceipt := readLine
  bodyReceipt body :=
    match readBody body with
    | some r => .ok r
    | none => .error .valueError
  line_no_newline r := newline_notMem_ascii (receiptText_printable r)
  lineTxid_line r := by rw [readLine_receiptText]
  lineReceipt_line := readLine_receiptText
  bodyReceipt_body r := by rw [readBody_bodyText]

end Json

/-! ## Surroundings -/

/-- A library for runs without a transaction. -/
def Lib.idle : Lib :=
  { codec := Json.codec
    txid := fun _ => []
    serialize := fun _ => []
    totalSize := fun _ => 0
    merkleTip := fun _ => []
    catSha256d := fun a b => .ok (a ++ b) }

/-- The configuration of the defaults. -/
def Config.standard (receiptsOn : Bool) : Config :=
  { minConfirmations := 6
    one_lt := by decide
    minTxInterval := 21600
    maxFee := 100000
    maxPending := 100000
    relayFeerate := 1
    receiptsOn := receiptsOn }

/-- Surroundings in which no call fails, with a node that has one block and a wallet with
nothing in it. -/
def Env.quiet (lib : Lib) : Env :=
  { lib := lib
    patience := fun _ => 8
    makeProxy := fun _ => .ok ()
    getbestblockhash := fun _ => .ok []
    getblockcount := fun _ => .ok 0
    getblockhash := fun _ height => if height = 0 then .ok [] else .error .indexError
    getblock := fun _ _ => .ok ⟨[], []⟩
    listunspent := fun _ _ _ => .ok []
    getrawtransaction := fun _ _ => .error .indexError
    gettransaction := fun _ _ => .error .indexError
    gettxout := fun _ _ => .error .indexError
    changeScript := fun _ => .ok []
    signrawtransactionwithwallet := fun _ tx => .ok (false, tx)
    estimatesmartfee := fun _ => .ok none
    sendrawtransaction := fun _ _ => .ok ()
    file := fun _ => .done
    write := fun _ => .wrote maxFileSize
    read := fun _ => .done
    batch := fun _ => .returns
    clock := fun _ => 0
    uniform := fun _ => 1
    token := fun _ => ⟨List.replicate 16 0, rfl⟩ }

/-! ## Scripted surroundings -/

/-- `width` bytes, least significant first. -/
def littleEndian (width n : Nat) : Bytes := (Bytes.ofNatBE width n).reverse

/-- The script as it stands in an output, with its length; no script of a run is longer than
252 bytes, and no pushed datum longer than 75. -/
def Script.serialize : Script → Bytes
  | .opReturn data => UInt8.ofNat (data.length + 2) :: 0x6a :: UInt8.ofNat data.length :: data
  | .raw bytes => UInt8.ofNat bytes.length :: bytes

/-- A transaction of version 2, without its witness. -/
def Tx.serialize (tx : Tx) : Bytes :=
  littleEndian 4 2 ++ [UInt8.ofNat tx.vin.length] ++
    (tx.vin.flatMap fun i => i.prevout.hash ++ littleEndian 4 i.prevout.n ++
      (UInt8.ofNat i.scriptSig.length :: i.scriptSig) ++ littleEndian 4 i.nSequence) ++
    [UInt8.ofNat tx.vout.length] ++
    (tx.vout.flatMap fun o =>
        littleEndian 8 (o.nValue % 2 ^ 64).toNat ++ o.scriptPubKey.serialize) ++
    littleEndian 4 tx.nLockTime.toNat

/-- The library over a table of hashes: `sha256d` of the messages that a run hashes, and the
tips of its merkle trees. -/
def Lib.ofHashes (hashes : List (Bytes × Bytes)) (tips : List (List Bytes × Bytes)) : Lib :=
  { codec := Json.codec
    txid := fun tx => (hashes.lookup tx.serialize).getD []
    serialize := Tx.serialize
    totalSize := fun tx => tx.serialize.length
    merkleTip := fun commitments => (tips.lookup commitments).getD []
    catSha256d := fun a b => .ok ((hashes.lookup (a ++ b)).getD []) }

/-- What a run meets: at each call, the node's best chain from its first block on. -/
structure Course where
  chain : Nat → List (Bytes × Block)
  coin : Nat → Unspent
  file : Nat → FileAnswer
  batch : Nat → BatchAnswer

/-- A node and a wallet that answer truthfully; whoever wants may spend the wallet's only output. -/
def Course.env (lib : Lib) (c : Course) : Env :=
  { Env.quiet lib with
    getbestblockhash := fun n => .ok ((c.chain n).getLast?.elim [] (·.1))
    getblockcount := fun n => .ok ((c.chain n).length - 1)
    getblockhash := fun n height =>
      match if height < 0 then none else (c.chain n)[height.toNat]? with
      | some block => .ok block.1
      | none => .error .indexError
    getblock := fun n hash =>
      match (c.chain n).lookup hash with
      | some block => .ok block
      | none => .error .keyError
    listunspent := fun n _ _ => .ok [c.coin n]
    gettxout := fun n outpoint => if outpoint = (c.coin n).outpoint then .ok (c.coin n).amount else
      .error .indexError
    changeScript := fun _ => .ok [0x51]
    signrawtransactionwithwallet := fun _ tx => .ok (true, tx)
    uniform := fun _ => 0
    file := c.file
    batch := c.batch }

namespace Rehearsal

/-- The coinbase of every block, and its txid. -/
def coinbase : Tx :=
  { vin := [⟨⟨List.replicate 32 0, 0xffffffff⟩, [0x51, 0x51], 0xffffffff⟩]
    vout := [⟨5000000000, .raw [0x51]⟩]
    nLockTime := 0
    witness := [] }

def coinbaseId : Bytes :=
  [0x7f, 0x32, 0x8c, 0x3d, 0xcc, 0x6c, 0x1a, 0xd2, 0xcc, 0xc2, 0x78, 0x94, 0xf9, 0x2b, 0xb5, 0xc4,
   0x9d, 0x4f, 0xcf, 0x8f, 0xdb, 0xd3, 0xae, 0xf2, 0x04, 0x87, 0x7a, 0xb9, 0xe0, 0xdd, 0x74, 0x4a]

/-- The hash of a block, as far as the service tells blocks apart. -/
def label (n : Nat) : Bytes := List.replicate 32 (UInt8.ofNat n)

/-- A block without an anchor. -/
def plain (n : Nat) : Bytes × Block := (label n, ⟨[coinbase], coinbaseId⟩)

/-- A block with one. -/
def withAnchor (n : Nat) (anchor : Tx) (root : Bytes) : Bytes × Block :=
  (label n, ⟨[coinbase, anchor], root⟩)

/-- An anchor as the stamper builds it. -/
def anchorTx (prevout : OutPoint) (change : Int) (tip : Bytes) (height : Int) : Tx :=
  { vin := [⟨prevout, [], 0xfffffffe⟩]
    vout := [⟨change, .raw [0x51]⟩, ⟨0, .opReturn tip⟩]
    nLockTime := height
    witness := [] }

/-- The wallet's output at the beginning. -/
def coin : Unspent := ⟨⟨List.replicate 32 7, 0⟩, 100000, true⟩

/-- The output that an anchor leaves. -/
def changeOf (txid : Bytes) (change : Int) : Unspent := ⟨⟨txid, 0⟩, change, true⟩

def config (maxPending : Nat) (receiptsOn : Bool) : Config :=
  { Config.standard receiptsOn with
    minConfirmations := 2
    one_lt := by decide
    maxPending := maxPending }

/-! ### One anchor is saved -/

def entry : Bytes := [0x65, 0, 0, 0] ++ List.replicate 40 3

def tip : Bytes :=
  [0xa5, 0x0f, 0x0e, 0xd2, 0x33, 0xc8, 0x90, 0xe7, 0xab, 0xf7, 0xb5, 0x45, 0xe2, 0x53, 0x85, 0x8f,
   0x73, 0xf5, 0x54, 0xb3, 0x04, 0x2b, 0x67, 0x09, 0xf1, 0xef, 0x5c, 0x92, 0x57, 0x9d, 0x8d, 0x0c]

def anchor : Tx := anchorTx coin.outpoint 99896 tip 0

def anchorId : Bytes :=
  [0x16, 0xb5, 0x0f, 0x2a, 0x25, 0x00, 0x1e, 0x79, 0x20, 0x6a, 0x23, 0xc0, 0xcf, 0x22, 0x38, 0x7b,
   0xdd, 0xec, 0x04, 0x0d, 0x95, 0x1f, 0x92, 0x15, 0x13, 0x8c, 0x22, 0x8c, 0x76, 0xa7, 0x1d, 0x65]

def root : Bytes :=
  [0x58, 0x75, 0x01, 0x3f, 0xe7, 0x42, 0xf4, 0x32, 0x18, 0x5b, 0x23, 0xf8, 0x80, 0xe2, 0xcf, 0x6b,
   0x04, 0xd9, 0x6a, 0x68, 0x8e, 0x55, 0x42, 0xf3, 0x3c, 0xfe, 0x3d, 0x68, 0xb0, 0xa7, 0xc6, 0x4a]

def lib : Lib :=
  .ofHashes [(coinbase.serialize, coinbaseId), (anchor.serialize, anchorId),
    (coinbaseId ++ anchorId, root)] [([entry], tip)]

/-- The anchor is sent on a chain of one block, mined in the next and deep enough with the one
after. -/
def course : Course :=
  { chain := fun n => if n < 35 then [plain 0] else [plain 0, withAnchor 1 anchor root, plain 2]
    coin := fun n => if n < 35 then coin else changeOf anchorId 99896
    file := fun _ => .done
    batch := fun _ => .returns }

def events : List Event :=
  [.start (config 10 true), .append entry (some 3), .count, .fill, .pass, .pass]

def saved : World := runEvents (course.env lib) events (.empty (config 10 true))

theorem reachable_saved : (service (course.env lib) fun _ => True).Reachable saved :=
  reachable_runEvents (by decide +kernel) fun _ _ => trivial

end Rehearsal

end OtsServer.Service
