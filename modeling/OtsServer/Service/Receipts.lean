import OtsServer.Service.Storage
import Mathlib.Data.List.Sort

/-!
# Anchor receipts

The receipt side of `otsserver/stamper.py`. Before an anchor is saved its receipt goes
into a marker of its own, after the save it is appended to the receipts file and the
marker goes. A marker that a stop or a failure left standing is settled by asking the
database for the anchor's own txid.

Txids stand in their internal byte order throughout, so the probe made from a txid is
the txid.
-/

namespace OtsServer.Service

/-- The complete lines of a file, each with its newline; `line` is read of the first. -/
def linesFrom (line : Bytes) : Bytes → List Bytes
  | [] => []
  | c :: rest =>
      if c = newline then (line ++ [c]) :: linesFrom [] rest else linesFrom (line ++ [c]) rest

def completeLines (file : Bytes) : List Bytes := linesFrom [] file

/-- The receipts whose complete lines are in the file. -/
def receiptsOnFile (codec : Codec) (file : Bytes) : List Receipt :=
  (completeLines file).filterMap codec.lineReceipt

section Receipts

variable (env : Env)

/-- The lines of `_receipt_on_file`, until one names the txid. -/
def findReceipt (codec : Codec) (txid : Bytes) : List Bytes → Except Exc Bool
  | [] => .ok false
  | line :: rest =>
      match codec.lineTxid line with
      | .ok found => if found = some txid then .ok true else findReceipt codec txid rest
      | .error .valueError => findReceipt codec txid rest
      | .error e => .error e

/-- `_receipt_on_file`, by the search of its lines. -/
def onFile (search : List Bytes → Except Exc Bool) : M Bool := do
  fileCall env
  let receipts ← Prog.gets fun w => w.disk.receipts
  Prog.ofExcept (search (completeLines receipts))

/-- `_receipt_on_file`. -/
def receiptOnFile (txid : Bytes) : M Bool := onFile env (findReceipt env.lib.codec txid)

/-- The length of the chunks that `_recover_receipt_tail` reads backwards. -/
def chunkSize : Nat := 4096

/-- `chunk.rfind(b'\n')`. -/
def rfindNewline (chunk : Bytes) : Option Nat :=
  (chunk.reverse.findIdx? (· = newline)).map fun i => chunk.length - 1 - i

/-- The chunk from `start` to `pos`: where to go on, or the length to keep. -/
def searchChunk (receipts : Bytes) (start pos : Nat) : Nat ⊕ Nat :=
  match rfindNewline ((receipts.take pos).drop start) with
  | some i => .inr (start + i + 1)
  | none => .inl start

/-- The backward search of `_recover_receipt_tail` from `pos`: the length to keep. -/
def searchTail (size : Nat) : M Nat :=
  Prog.loop (fun pos : Nat =>
      if pos = 0 then pure (.inr 0)
      else do
        fileCall env
        let receipts ← Prog.gets fun w => w.disk.receipts
        pure (searchChunk receipts (pos - chunkSize) pos))
    (fun _ => pure 0) (size + 1) size

/-- `_recover_receipt_tail`. -/
def recoverReceiptTail : M Unit := do
  fileCall env
  let receipts ← Prog.gets fun w => w.disk.receipts
  if receipts = [] then pure ()
  else do
    fileCall env
    if receipts.getLast? = some newline then pure ()
    else do
      let keep ← searchTail env receipts.length
      fileEffect env fun disk => { disk with receipts := disk.receipts.take keep }
      fileCall env

/-- `_append_anchor_receipt` of the text that `json.dumps` gives. -/
def appendLine (text : Bytes) : M Unit := do
  fileCall env
  recoverReceiptTail env
  writeAll env (fun data disk => { disk with receipts := disk.receipts ++ data })
    (text ++ [newline])
  fileCall env
  fsyncDir env

/-- `_append_anchor_receipt`. -/
def appendAnchorReceipt (receipt : Receipt) : M Unit := appendLine env (env.lib.codec.line receipt)

/-- `_sync_receipts`. -/
def syncReceipts : M Unit := do
  fileCall env
  fileCall env
  fsyncDir env

/-- `_write_pending_receipt`: the temporary file is opened, written and synced, then renamed
to the marker of the receipt's txid. -/
def writePendingReceipt (receipt : Receipt) : M Unit := do
  let body := env.lib.codec.body receipt ++ [newline]
  fileCall env
  writeAll env (fun _ disk => disk) body
  fileCall env
  fileEffect env fun disk => { disk with markers := disk.markers.insert receipt.txid body }
  fsyncDir env

/-- A txid as names and messages show it. -/
def txidText (txid : Bytes) : Text := Bytes.hexText txid.reverse

/-- `pending_markers`: the txids of the markers on file, in the order of their names. -/
def pendingMarkers : M (List Bytes) := do
  fileCall env
  let markers ← Prog.gets fun w => w.disk.markers
  pure (markers.keys.insertionSort fun a b => ¬txidText b < txidText a)

/-- Removing the marker of a txid, or setting it aside: it is no marker any more. -/
def removeMarker (name : Bytes) : M Unit :=
  fileEffect env fun disk => { disk with markers := disk.markers.erase name }

/-- What a marker is settled by: its anchor's txid, the search for its receipt and the append of
it. -/
structure Due where
  txid : Bytes
  search : List Bytes → Except Exc Bool
  append : M Unit

/-- `__settle_marker` of a marker that could be read. -/
def settleDue (name : Bytes) (due : Due) : M Unit := do
  let onFile ← onFile env due.search
  let saved ← dbContains env (.txid due.txid)
  if saved then do
    if onFile then syncReceipts env else due.append
    removeMarker env name
  else if onFile then Prog.raise .receiptsAheadOfDatabase
  else do
    removeMarker env name
    let disk ← Prog.gets (·.disk)
    note fun h => { h with
      discarded := h.discarded ++ [(due.txid, disk.db.keys.contains (.txid due.txid))] }

/-- `__settle_marker`, by its reading of the body: a marker is set aside that raises what such a
body is expected to. -/
def settleBy (read : Bytes → Except Exc Due) (name : Bytes) : M Unit := do
  fileCall env
  let markers ← Prog.gets fun w => w.disk.markers
  match markers.lookup name with
  | none => Prog.raise (.osError 2)
  | some body =>
      match read body with
      | .ok due => settleDue env name due
      | .error e => if e.unreadable then removeMarker env name else Prog.raise e

/-- A receipt that a marker holds. -/
def dueOf (receipt : Receipt) : Due where
  txid := receipt.txid
  search := findReceipt env.lib.codec receipt.txid
  append := appendAnchorReceipt env receipt

/-- `__settle_marker`. -/
def settleMarker (name : Bytes) : M Unit :=
  settleBy env (fun body => (env.lib.codec.bodyReceipt body).map (dueOf env)) name

/-- `settle_pending_receipt`: each marker on its own; one that cannot be settled stays. -/
def settlePendingReceipt : M Unit := do
  let on ← Prog.gets (·.stamper.config.receiptsOn)
  if on then do
    let names ← pendingMarkers env
    Prog.forEach (fun name => guarded (settleMarker env name) fun
      | .receiptsAheadOfDatabase => Prog.raise .receiptsAheadOfDatabase
      | _ => pure ()) names
  else pure ()

/-- The messages of a saved tree that the modelled functions ask about. -/
def savedKeys (lib : Lib) (confirmed : TimestampTx) : List Key :=
  .txid (lib.txid confirmed.tx) :: confirmed.commitments.map .commitment

/-- For the history: whether a marker stands for another anchor that is on disk, unseen, with
a commitment of this one. -/
def overlapping (lib : Lib) (confirmed : TimestampTx) (s : State) : Bool :=
  s.disk.markers.keys.any fun t =>
    t ≠ lib.txid confirmed.tx &&
      s.disk.db.keys.contains (.txid t) && !s.db.keys.contains (.txid t) &&
      s.history.mined.any fun m => m.txid = t && m.commitments.any confirmed.commitments.contains

/-- The receipt of a save, and its marker: earlier markers are settled first. -/
def owePendingReceipt (confirmed : TimestampTx) : M Receipt := do
  let now ← clock env
  let receipt : Receipt :=
    { txid := env.lib.txid confirmed.tx
      feeSats := confirmed.fee
      commitments := confirmed.commitments.length
      confirmedHeight := confirmed.height
      confirmedAt := now.floor
      records := confirmed.records }
  settlePendingReceipt env
  let overlap ← Prog.gets fun w => overlapping env.lib confirmed w.toState
  note fun h => { h with overlapped := h.overlapped ++ [(receipt.txid, overlap)] }
  writePendingReceipt env receipt
  pure receipt

/-- The calendar's save of a tree. -/
def saveTimestamps (confirmed : TimestampTx) (watermark : Option Nat) : M Unit := do
  addTimestamps env (savedKeys env.lib confirmed) watermark
  match watermark with
  | none => pure ()
  | some _ => do
      let db ← Prog.gets (·.db)
      note fun h => { h with committed := h.committed ++ [db] }

/-- After the save: the receipt's line, then the end of its marker. A failure of either leaves
the marker. -/
def writeOwedReceipt (receipt : Receipt) : M Unit := do
  let written ← guarded (do
      appendAnchorReceipt env receipt
      pure true) fun _ => pure false
  if written then
    Prog.handle (removeMarker env receipt.txid) fun
      | .osError _ => some (pure ())
      | _ => none
  else pure ()

/-- `__save_confirmed_timestamp_tx`. -/
def saveConfirmedTimestampTx (confirmed : TimestampTx) (watermark : Option Nat) : M Unit := do
  let on ← Prog.gets (·.stamper.config.receiptsOn)
  if on then do
    let receipt ← owePendingReceipt env confirmed
    saveTimestamps env confirmed watermark
    writeOwedReceipt env receipt
  else saveTimestamps env confirmed watermark

end Receipts

end OtsServer.Service
