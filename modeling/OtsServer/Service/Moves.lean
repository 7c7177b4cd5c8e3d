import OtsServer.Service.Runs
import Mathlib.Logic.Relation

/-!
# Moves

What a step of the service can do to the state, one change at a time, each with what is
known when it happens. The programs are made of file calls, guards and loops; a move is
what is left of them when the order of the calls between two changes is forgotten. An
invariant that every move keeps holds in every state of a run.

A save is one move: the batch, the receipt as far as it was written, and the release of
the tree. A process that stops inside it made the move and then stopped, since its
memory is lost with it.
-/

namespace OtsServer.Service

/-- The receipt of a tree that waits, apart from the time. -/
structure IsReceiptOf (lib : Lib) (confirmed : TimestampTx) (receipt : Receipt) : Prop where
  txid : receipt.txid = lib.txid confirmed.tx
  commitments : receipt.commitments = confirmed.commitments.length
  records : receipt.records = confirmed.records

def markerBody (lib : Lib) (receipt : Receipt) : Bytes := lib.codec.body receipt ++ [newline]

def receiptLine (lib : Lib) (receipt : Receipt) : Bytes := lib.codec.line receipt ++ [newline]

/-- A save may write its batch: with receipts on, its marker stands. -/
structure MayLand (lib : Lib) (s : State) (confirmed : TimestampTx) (receipt : Receipt) : Prop where
  isReceipt : IsReceiptOf lib confirmed receipt
  marker : s.disk.markers.lookup receipt.txid = some (markerBody lib receipt)
  overlapped : (receipt.txid, overlapping lib confirmed s) ∈ s.history.overlapped

/-- What a save whose batch returned leaves in the receipts file and of its marker. -/
inductive ReceiptOutcome (lib : Lib) (s : State) (confirmed : TimestampTx) :
    Bytes → (AList fun _ : Bytes => Bytes) → Prop
  | off : s.stamper.config.receiptsOn = false →
      ReceiptOutcome lib s confirmed s.disk.receipts s.disk.markers
  | owed (receipt : Receipt) (file : Bytes) : s.stamper.config.receiptsOn = true →
      MayLand lib s confirmed receipt → completeLines file = completeLines s.disk.receipts →
      ReceiptOutcome lib s confirmed file s.disk.markers
  | written (receipt : Receipt) (file : Bytes) : s.stamper.config.receiptsOn = true →
      MayLand lib s confirmed receipt →
      completeLines file = completeLines s.disk.receipts ++ [receiptLine lib receipt] →
      ReceiptOutcome lib s confirmed file s.disk.markers
  | settled (receipt : Receipt) (file : Bytes) : s.stamper.config.receiptsOn = true →
      MayLand lib s confirmed receipt →
      completeLines file = completeLines s.disk.receipts ++ [receiptLine lib receipt] →
      ReceiptOutcome lib s confirmed file (s.disk.markers.erase receipt.txid)

/-- The checkpoint file gives the index, or there is none. -/
def CheckpointIs (knownGood : Option Text) (idx : Nat) : Prop :=
  (knownGood = none ∧ idx = 0) ∨
    ∃ text generation, knownGood = some text ∧ parseCheckpoint text = .ok (idx, generation)

/-- The count read for an entry, if it was. -/
def CountRead (s : State) (idx : Nat) : Option Nat → Prop
  | none => True
  | some count => s.stamper.config.receiptsOn = true ∧
      countValue (countBytes s.disk.counts idx) = some count

section Changes

variable (s : State)

def State.setStamper (f : Stamper → Stamper) : State := { s with stamper := f s.stamper }

def State.setDisk (f : Disk → Disk) : State := { s with disk := f s.disk }

def State.log (f : History → History) : State := { s with history := f s.history }

def Disk.adopt (token : Bytes) (disk : Disk) : Disk :=
  { disk with db := { disk.db with generation := some (Bytes.hexText token), watermark := 0 } }

def History.submit (record : Bytes) (records : Option Nat) (h : History) : History :=
  { h with submitted := h.submitted ++ [(record, records.getD 0)] }

/-- An entry that the scan took. -/
def Stamper.take (commitment : Bytes) (count : Option Nat) (s : Stamper) : Stamper :=
  { s with
    pendingCommitments := addPending s.pendingCommitments commitment
    commitmentIdxs := setDefault s.commitmentIdxs commitment s.scanIdx
    commitmentRecords := match count with
      | none => s.commitmentRecords
      | some count => s.commitmentRecords.insert commitment count
    scanIdx := s.scanIdx + 1
    journalCursor := some (s.scanIdx + 1) }

/-- A tree put back. -/
def Stamper.requeue (height : Int) (reorged : TimestampTx) (s : Stamper) : Stamper :=
  { s with
    txsWaitingForConfirmation := s.txsWaitingForConfirmation.erase height
    pendingCommitments := reorged.commitments.foldl addPending s.pendingCommitments }

def foundAgain (lib : Lib) (s : State) (txid : Bytes) : Bool :=
  s.db.keys.contains (.txid txid) ||
    s.stamper.txsWaitingForConfirmation.entries.any fun e => lib.txid e.2.tx = txid

/-- The tree of an unconfirmed transaction found at a height. -/
def minedTree (s : Stamper) (height : Int) (u : UnconfirmedTimestampTx) : TimestampTx :=
  { tx := u.tx
    tip := u.tip
    commitments := s.pendingCommitments.take u.n
    fee := u.fee
    height := height
    records := u.records }

def Stamper.confirm (height : Int) (u : UnconfirmedTimestampTx) (s : Stamper) : Stamper :=
  { s with
    pendingCommitments := s.pendingCommitments.drop u.n
    txsWaitingForConfirmation := s.txsWaitingForConfirmation.insert height (minedTree s height u)
    unconfirmedTxs := [] }

def State.confirm (lib : Lib) (height : Int) (hash : Bytes) (u : UnconfirmedTimestampTx) : State :=
  { s with
    stamper := s.stamper.confirm height u
    history := { s.history with
      mined := s.history.mined ++
        [⟨lib.txid u.tx, s.stamper.pendingCommitments.take u.n, foundAgain lib s (lib.txid u.tx)⟩]
      blockAt := s.history.blockAt.insert height hash } }

/-- The records of a tree as far as they are known. -/
def knownRecords (records : AList fun _ : Bytes => Nat) (commitments : List Bytes) : Nat :=
  (commitments.map fun c => (records.lookup c).getD 0).sum

/-- The batch of a save, on disk. -/
def Disk.land (lib : Lib) (confirmed : TimestampTx) (watermark : Option Nat) (disk : Disk) : Disk :=
  { disk with db := disk.db.put (savedKeys lib confirmed) watermark }

/-- The history of a batch that returned. -/
def History.commit (db : Db) (watermark : Option Nat) (h : History) : History :=
  match watermark with
  | none => h
  | some _ => { h with committed := h.committed ++ [db] }

/-- The state after a batch, with what the rest of the save leaves of the receipt. -/
def State.batched (lib : Lib) (confirmed : TimestampTx) (watermark : Option Nat) (receipts : Bytes)
    (markers : AList fun _ : Bytes => Bytes) : State :=
  { s with
    disk := { s.disk.land lib confirmed watermark with receipts := receipts, markers := markers }
    db := s.db.put (savedKeys lib confirmed) watermark
    history := s.history.commit (s.db.put (savedKeys lib confirmed) watermark) watermark }

/-- A save whose batch returned, with what it left of the receipt. -/
def State.save (lib : Lib) (height : Int) (confirmed : TimestampTx) (receipts : Bytes)
    (markers : AList fun _ : Bytes => Bytes) : State :=
  (s.batched lib confirmed (checkpointAfter s.stamper confirmed) receipts markers).setStamper
    (release height confirmed)

end Changes

/-- One change of the state. -/
inductive Move (lib : Lib) (allowed : Config → Prop) : State → State → Prop
  /-- A new database gets its generation before the process is up. -/
  | adopt (s : State) (token : Bytes) : s.running = false → s.disk.db.generation = none →
      token.length = 16 → Move lib allowed s (s.setDisk (Disk.adopt token))
  | boot (s : State) (config : Config) : s.running = false → s.disk.db.generation ≠ none →
      allowed config →
      Move lib allowed s { s.boot config with journalBuffer := journalPadding s.disk.journal }
  /-- The end of the process: what was in memory is lost. -/
  | stop (s t : State) : t.running = false → t.disk = s.disk → t.history = s.history →
      Move lib allowed s t
  | halt (s : State) : Move lib allowed s { s with aggregating := false }
  | append (s : State) (record : Bytes) (records : Option Nat) : s.running = true →
      s.aggregating = true → s.countOwed = none →
      (s.disk.journal.length + s.journalBuffer.length) % commitmentSize = 0 →
      s.disk.journal.length + s.journalBuffer.length + commitmentSize ≤ maxFileSize →
      record.length = commitmentSize →
      Move lib allowed s { s with
        disk := appendJournal (s.journalBuffer ++ record) s.disk
        journalBuffer := []
        aggregating := true
        countOwed :=
          if s.stamper.config.receiptsOn then
            records.map ((s.disk.journal.length + s.journalBuffer.length) / commitmentSize, ·)
          else none
        history := s.history.submit record records }
  /-- A round that failed: some first bytes landed. -/
  | appendFails (s : State) (record : Bytes) (records : Option Nat) (n : Nat) : s.running = true →
      s.aggregating = true → s.countOwed = none →
      (s.disk.journal.length + s.journalBuffer.length) % commitmentSize = 0 →
      s.disk.journal.length + s.journalBuffer.length + commitmentSize ≤ maxFileSize →
      record.length = commitmentSize →
      Move lib allowed s { s with
        disk := appendJournal ((s.journalBuffer ++ record).take n) s.disk
        journalBuffer := (s.journalBuffer ++ record).drop n
        aggregating := false
        history := s.history.submit record records }
  | flush (s : State) (n : Nat) : s.running = true →
      Move lib allowed s { s with
        disk := appendJournal (s.journalBuffer.take n) s.disk
        journalBuffer := s.journalBuffer.drop n }
  /-- The count of the last entry: some first bytes of it land. -/
  | count (s : State) (idx records n : Nat) : s.running = true → s.countOwed = some (idx, records) →
      Move lib allowed s { s with
        disk := { s.disk with
          counts := pwrite s.disk.counts (idx * recordSize)
            ((Bytes.ofNatBE recordSize (storedCount records)).take n) }
        countOwed := none }
  /-- What no ledger reads. -/
  | adjust (s : State) (known unprocessed : List KnownBlock) (next : ℚ)
      (refused : Option (OutPoint × Int × Option Bytes)) :
      Move lib allowed s (s.setStamper fun m => { m with
        knownBlocks := known, unprocessedBlocks := unprocessed, nextTimestampTx :=
          next, refusedAnchor := refused })
  | log (s : State) (discovery : Nat) (handed : List Handed) :
      Move lib allowed s (s.log fun h => { h with discovery := discovery, handed := handed })
  /-- The scan of a fresh stamper starts at the checkpoint. -/
  | seek (s : State) (config : Config) (next : ℚ) (idx : Nat) :
      s.stamper = { Stamper.fresh config with nextTimestampTx := next } →
        CheckpointIs s.disk.knownGood idx →
      Move lib allowed s (s.setStamper fun m => { m with scanIdx := idx })
  | look (s : State) :
      Move lib allowed s (s.setStamper fun m => { m with journalCursor := some m.scanIdx })
  | skip (s : State) (commitment : Bytes) :
      journalEntry s.disk.journal s.stamper.scanIdx = some commitment →
      s.db.holds (.commitment commitment) = true →
      Move lib allowed s (s.setStamper fun m => { m with
        scanIdx := m.scanIdx + 1, journalCursor := some (m.scanIdx + 1) })
  | take (s : State) (commitment : Bytes) (count : Option Nat) :
      journalEntry s.disk.journal s.stamper.scanIdx = some commitment →
      s.db.holds (.commitment commitment) = false → CountRead s s.stamper.scanIdx count →
      Move lib allowed s (s.setStamper (Stamper.take commitment count))
  | requeue (s : State) (height : Int) (reorged : TimestampTx) :
      s.stamper.txsWaitingForConfirmation.lookup height = some reorged →
      Move lib allowed s (s.setStamper (Stamper.requeue height reorged))
  | confirm (s : State) (height : Int) (hash : Bytes) (u : UnconfirmedTimestampTx) :
      u ∈ s.stamper.unconfirmedTxs →
      s.stamper.txsWaitingForConfirmation.lookup height = none →
      Move lib allowed s (s.confirm lib height hash u)
  | abandon (s : State) : Move lib allowed s (s.setStamper fun m => { m with unconfirmedTxs := [] })
  | reread (s : State) (commitment : Bytes) (idx count : Nat) :
      s.stamper.commitmentIdxs.lookup commitment = some idx → CountRead s idx (some count) →
      Move lib allowed s (s.setStamper fun m => { m with
        commitmentRecords := m.commitmentRecords.insert commitment count })
  | send (s : State) (u : UnconfirmedTimestampTx) :
      s.stamper.pendingCommitments ≠ [] → u.n = s.stamper.pendingCommitments.length →
      u.records ≤ knownRecords s.stamper.commitmentRecords s.stamper.pendingCommitments →
      Move lib allowed s (s.setStamper fun m =>
          { m with unconfirmedTxs := m.unconfirmedTxs ++ [u] })
  /-- A marker is to be written, and is not. -/
  | notice (s : State) (height : Int) (confirmed : TimestampTx) :
      s.stamper.txsWaitingForConfirmation.lookup height = some confirmed →
      Move lib allowed s (s.log fun h => { h with
        overlapped := h.overlapped ++ [(lib.txid confirmed.tx, overlapping lib confirmed s)] })
  | mark (s : State) (height : Int) (confirmed : TimestampTx) (receipt : Receipt) :
      s.running = true → s.stamper.txsWaitingForConfirmation.lookup height = some confirmed →
      IsReceiptOf lib confirmed receipt → Move lib allowed s { s with
        disk :=
          { s.disk with markers := s.disk.markers.insert receipt.txid (markerBody lib receipt) }
        history := { s.history with
          overlapped := s.history.overlapped ++ [(receipt.txid, overlapping lib confirmed s)] } }
  /-- A save whose batch raised, or was where the process stopped, and landed. -/
  | land (s : State) (height : Int) (confirmed : TimestampTx) : s.running = true →
      s.stamper.txsWaitingForConfirmation.lookup height = some confirmed →
      (s.stamper.config.receiptsOn = true → ∃ receipt, MayLand lib s confirmed receipt) →
      Move lib allowed s (s.setDisk (Disk.land lib confirmed (checkpointAfter s.stamper confirmed)))
  | save (s : State) (height : Int) (confirmed : TimestampTx) (receipts : Bytes)
      (markers : AList fun _ : Bytes => Bytes) : s.running = true →
      s.stamper.txsWaitingForConfirmation.lookup height = some confirmed →
      ReceiptOutcome lib s confirmed receipts markers →
      Move lib allowed s (s.save lib height confirmed receipts markers)
  /-- The checkpoint file, after a save. -/
  | checkpoint (s : State) (idx : Nat) (generation : Text) : s.running = true →
      s.db.generation = some generation → s.db.watermark = idx →
      Move lib allowed s (s.setDisk fun disk => { disk with
        knownGood := some (checkpointText idx generation) })
  /-- An incomplete last line comes or goes. -/
  | tail (s : State) (receipts : Bytes) :
      completeLines receipts = completeLines s.disk.receipts →
      Move lib allowed s (s.setDisk fun disk => { disk with receipts := receipts })
  /-- A receipt recovered from its marker. -/
  | recover (s : State) (name body : Bytes) (receipt : Receipt) (receipts : Bytes) :
      s.running = true → s.disk.markers.lookup name = some body →
      lib.codec.bodyReceipt body = .ok receipt →
      s.db.holds (.txid receipt.txid) = true →
      findReceipt lib.codec receipt.txid (completeLines s.disk.receipts) = .ok false →
      completeLines receipts = completeLines s.disk.receipts ++ [receiptLine lib receipt] →
      Move lib allowed s (s.setDisk fun disk => { disk with receipts := receipts })
  /-- The marker of a receipt on file goes. -/
  | settle (s : State) (name body : Bytes) (receipt : Receipt) :
      s.running = true → s.disk.markers.lookup name = some body →
      lib.codec.bodyReceipt body = .ok receipt →
      s.db.holds (.txid receipt.txid) = true →
      findReceipt lib.codec receipt.txid (completeLines s.disk.receipts) = .ok true →
      Move lib allowed s (s.setDisk fun disk => { disk with markers := disk.markers.erase name })
  /-- The marker of an anchor that was not saved goes. -/
  | discard (s : State) (name body : Bytes) (receipt : Receipt) :
      s.running = true → s.disk.markers.lookup name = some body →
      lib.codec.bodyReceipt body = .ok receipt →
      s.db.holds (.txid receipt.txid) = false →
      findReceipt lib.codec receipt.txid (completeLines s.disk.receipts) = .ok false →
      Move lib allowed s { s with
        disk := { s.disk with markers := s.disk.markers.erase name }
        history := { s.history with
          discarded := s.history.discarded ++
            [(receipt.txid, s.disk.db.keys.contains (.txid receipt.txid))] } }
  /-- A marker that cannot be read is set aside. -/
  | setAside (s : State) (name body : Bytes) (e : Exc) : s.disk.markers.lookup name = some body →
      lib.codec.bodyReceipt body = .error e →
      Move lib allowed s (s.setDisk fun disk => { disk with markers := disk.markers.erase name })

abbrev Moves (lib : Lib) (allowed : Config → Prop) : State → State → Prop :=
  Relation.ReflTransGen (Move lib allowed)

end OtsServer.Service
