import OtsServer.Service.World
import Mathlib.Data.Nat.Digits.Defs

/-!
# Journal, counts, checkpoint and database

The storage side of `otsserver/calendar.py`: the journal and its sidecar of record
counts, the checkpoint file, and what `Calendar.__init__` checks before it opens the
journal for appending. `refuse` is `sys.exit`: the process does not start.

A journal entry is 44 bytes; a commitment of 36 bytes is padded with eight zeros, and
an entry that ends in eight zeros is read without them. A count is four bytes, most
significant first, at its entry's index.
-/

namespace OtsServer.Service

/-! ## Journal -/

def hmacSize : Nat := 8
def commitmentSize : Nat := 4 + 32 + hmacSize

/-- What `Journal.__getitem__` returns; `none` is a `KeyError`. -/
def journalEntry (journal : Bytes) (idx : Nat) : Option Bytes :=
  let commitment := (journal.drop (idx * commitmentSize)).take commitmentSize
  if commitment.length = commitmentSize then
    if commitment.drop (commitmentSize - hmacSize) = List.replicate hmacSize 0 then
      some (commitment.take (commitmentSize - hmacSize))
    else some commitment
  else none

/-- The number of whole entries. -/
def journalEntries (journal : Bytes) : Nat := journal.length / commitmentSize

/-- A commitment as it is written; `none` is a `ValueError`. -/
def journalRecord (commitment : Bytes) : Option Bytes :=
  if commitment.length = commitmentSize - hmacSize then
    some (commitment ++ List.replicate hmacSize 0)
  else if commitment.length = commitmentSize then some commitment
  else none

/-- The padding that `JournalWriter.__init__` writes after a partial last entry. -/
def journalPadding (journal : Bytes) : Bytes :=
  if journal.length % commitmentSize ≠ 0 then
    List.replicate (commitmentSize - journal.length % commitmentSize) 0
  else []

/-- No file is longer: the largest offset of the file system. -/
def maxFileSize : Nat := 2 ^ 63 - 1

/-- `EFBIG`. -/
def efbig : Nat := 27

def appendJournal (data : Bytes) (disk : Disk) : Disk :=
  { disk with journal := disk.journal ++ data }

/-! ## Record counts -/

def recordSize : Nat := 4
def knownZero : Nat := 0xffffffff
def knownZeroThreshold : Nat := 0x80000000

/-- What a count's bytes read as; `none` is unknown. -/
def countValue (data : Bytes) : Option Nat :=
  if data.length ≠ recordSize then none
  else
    let count := Bytes.natBE data
    if count ≥ knownZeroThreshold then some 0 else if count = 0 then none else some count

/-- The bytes at an entry's place in the sidecar. -/
def countBytes (counts : Bytes) (idx : Nat) : Bytes :=
  (counts.drop (idx * recordSize)).take recordSize

/-- `os.pwrite`: a gap before the offset is filled with zeros. -/
def pwrite (file : Bytes) (offset : Nat) (data : Bytes) : Bytes :=
  if data = [] then file
  else
    (file ++ List.replicate (offset - file.length) 0).take offset ++ data ++
      file.drop (offset + data.length)

/-- The value stored for a count: a known zero has a value of its own. -/
def storedCount (records : Nat) : Nat := if records = 0 then knownZero else records

section Counts

variable (env : Env)

/-- `RecordCounts.get`: a read that fails is an unknown count. -/
def getCount (idx : Nat) : M (Option Nat) :=
  guarded (do
      fileCall env
      Prog.gets fun w => countValue (countBytes w.disk.counts idx))
    fun _ => pure none

/-- The largest count that `struct.pack` takes. -/
def maxCount : Nat := 2 ^ 32 - 1

/-- `RecordCountsWriter.put`; of a larger count `struct.pack` raises. -/
def putCount (idx count : Nat) : M Unit := do
  if count ≤ maxCount then do
    let _ ← osWrite env
      (fun data disk => { disk with counts := pwrite disk.counts (idx * recordSize) data })
      (Bytes.ofNatBE recordSize count)
    fileCall env
  else Prog.raise .other

end Counts

/-! ## Checkpoint -/

/-- `'%d'`. -/
def decimal (n : Nat) : Text :=
  if n = 0 then ['0'] else ((Nat.digits 10 n).map fun d => Char.ofNat (48 + d)).reverse

/-- `int` of decimal digits. -/
def decimalValue (text : Text) : Nat := text.foldl (fun n c => 10 * n + (c.toNat - 48)) 0

def isDecimalDigit (c : Char) : Bool := 48 ≤ c.toNat && c.toNat ≤ 57

def isHexDigit (c : Char) : Bool :=
  (48 ≤ c.toNat && c.toNat ≤ 57) || (97 ≤ c.toNat && c.toNat ≤ 102)

/-- The contents of `journal.known-good`. -/
def checkpointText (idx : Nat) (generation : Text) : Text :=
  decimal idx ++ ' ' :: generation ++ ['\n']

/-- `bytes.split()` of ASCII text, after the fields `fields` and the letters `field`. -/
def splitFields (fields : List Text) (field : Text) : Text → List Text
  | [] => if field = [] then fields else fields ++ [field]
  | c :: cs =>
      if c.toNat ≤ 0x20 && (c.toNat == 0x20 || (0x09 ≤ c.toNat && c.toNat ≤ 0x0d) ||
          (0x1c ≤ c.toNat && c.toNat ≤ 0x1f)) then
        splitFields (if field = [] then fields else fields ++ [field]) [] cs
      else splitFields fields (field ++ [c]) cs

def lowerAscii (c : Char) : Char :=
  if 65 ≤ c.toNat ∧ c.toNat ≤ 90 then Char.ofNat (c.toNat + 32) else c

def checkpointIndex (field : Text) : Except Exc Nat :=
  if field = [] ∨ field.length > 20 ∨ ¬field.all isDecimalDigit then .error .valueError
  else .ok (decimalValue field)

def checkpointGeneration (field : Text) : Except Exc Text :=
  let generation := field.map lowerAscii
  if generation.length ≠ 32 ∨ ¬generation.all isHexDigit then .error .valueError else .ok generation

/-- `read_checkpoint` of a file's contents: an index, and the generation of the database it
describes, which a file of the first form lacks. -/
def parseCheckpoint (text : Text) : Except Exc (Nat × Option Text) :=
  if ¬text.all (·.toNat < 128) then .error .valueError
  else
    match splitFields [] [] text with
    | [idx] =>
        match checkpointIndex idx with
        | .error e => .error e
        | .ok idx => .ok (idx, none)
    | [idx, generation] =>
        match checkpointIndex idx, checkpointGeneration generation with
        | .ok idx, .ok generation => .ok (idx, some generation)
        | _, _ => .error .valueError
    | _ => .error .valueError

section Checkpoint

variable (env : Env)

/-- `read_checkpoint`. -/
def readCheckpoint : M (Option (Nat × Option Text)) := do
  fileCall env
  let text ← Prog.gets fun w => w.disk.knownGood
  match text with
  | none => pure none
  | some text =>
      let checkpoint ← Prog.ofExcept (parseCheckpoint text)
      pure (some checkpoint)

/-- `write_checkpoint`: the temporary file is opened, written and synced, then renamed. -/
def writeCheckpoint (idx : Nat) (generation : Text) : M Unit := do
  fileCall env
  fileCall env
  fileCall env
  fileEffect env fun disk => { disk with knownGood := some (checkpointText idx generation) }
  fsyncDir env

end Checkpoint

/-! ## Database -/

section Database

variable (env : Env)

/-- `adopt_generation`. -/
def adoptGeneration (watermark : Nat) : M Unit := do
  let token ← ask fun n => .ok (env.token n)
  dbBatch env fun db => { db with
    generation := some (Bytes.hexText token.1), watermark := watermark }

/-- `add_timestamps`, for the messages of the trees: the records already stored are read,
then everything lands in one batch. -/
def addTimestamps (keys : List Key) (watermark : Option Nat) : M Unit := do
  dbRead env
  dbBatch env fun db => db.put keys watermark

/-- `LevelDbCalendar.__init__`: a database created just now gets its generation. -/
def openDatabase : M Unit := do
  dbRead env
  Prog.modify fun w => { w with db := w.disk.db }
  let db ← Prog.gets (·.db)
  if db.generation = none ∧ db.keys = [] then adoptGeneration env 0 else pure ()

end Database

/-! ## The start's checks -/

section Checks

variable (env : Env)

def refuse {α : Type} : M α := Prog.raise .systemExit

/-- Ceiling division, as `-(-a // b)`. -/
def ceilDiv (a b : Nat) : Nat := (a + b - 1) / b

/-- `__check_counts`: the sidecar does not describe more entries than the journal holds. -/
def checkCounts : M Unit := do
  fileCall env
  let disk ← Prog.gets (·.disk)
  if ceilDiv disk.counts.length recordSize > journalEntries disk.journal then refuse else pure ()

/-- One probe of `__check_journal`. -/
def probeJournal (idx : Nat) : M Unit := do
  fileCall env
  let disk ← Prog.gets (·.disk)
  match journalEntry disk.journal idx with
  | none => refuse
  | some entry => do
      let held ← dbContains env (.commitment entry)
      if held then pure () else refuse

/-- `__check_journal`: the journal holds the entries below the checkpoint, and the last of
them and the first are in the database. -/
def checkJournal (idx : Nat) : M Unit := do
  if idx = 0 then pure ()
  else do
    fileCall env
    let disk ← Prog.gets (·.disk)
    if journalEntries disk.journal < idx then refuse
    else do
      probeJournal env (idx - 1)
      probeJournal env 0

/-- `verify_storage_generation`: the index the scan may start at, if there is one. -/
def verifyStorageGeneration : M (Option Nat) := do
  let checkpoint ← guarded (readCheckpoint env) fun _ => refuse
  let db ← Prog.gets (·.db)
  match checkpoint, db.generation with
  | none, none => do
      adoptGeneration env 0
      pure none
  | none, some _ => pure none
  | some (_, none), _ => refuse
  | some (_, some _), none => refuse
  | some (idx, some generation), some held =>
      if generation ≠ held then refuse
      else if idx > db.watermark then refuse
      else do
        checkJournal env idx
        pure (some idx)

/-- `JournalWriter.__init__`: the padding of a partial last entry is left in the buffer of
the file, and the sidecar is opened when receipts are on. -/
def openJournal : M Unit := do
  fileCall env
  Prog.modify fun w => { w with journalBuffer := journalPadding w.disk.journal }
  let on ← Prog.gets (·.stamper.config.receiptsOn)
  if on then fileCall env else pure ()

/-- `Calendar.__init__`. -/
def openCalendar : M (Option Nat) := do
  openDatabase env
  checkCounts env
  let checkpoint ← verifyStorageGeneration env
  openJournal env
  pure checkpoint

end Checks

/-! ## Submissions -/

section Submissions

variable (env : Env)

/-- The flush of the journal writer: the bytes that land leave the buffer. -/
def flushJournal : M Unit := do
  let buffered ← Prog.gets (·.journalBuffer)
  Prog.loop (fun _ : Unit => do
      let buffer ← Prog.gets (·.journalBuffer)
      if buffer = [] then pure (.inr ())
      else do
        let n ← osWrite env appendJournal buffer
        Prog.modify fun w => { w with journalBuffer := buffer.drop n }
        if n = 0 then Prog.raise (.osError eio) else pure (.inl ()))
    (fun _ => pure ()) (buffered.length + 1) ()

/-- `JournalWriter.submit` until the entry is synced; `records` leaves of its round are counted.
What is buffered goes out with the entry. A count is owed from here on when receipts are on. A
round that raises ends the aggregator's loop. -/
def appendEntry (commitment : Bytes) (records : Option Nat) : M Unit := do
  Prog.modify fun w => { w with aggregating := false }
  match journalRecord commitment with
  | none => Prog.raise .valueError
  | some record => do
      let size ← Prog.gets fun w => w.disk.journal.length + w.journalBuffer.length
      if size % commitmentSize ≠ 0 then Prog.raise .assertionError
      else if size + commitmentSize > maxFileSize then Prog.raise (.osError efbig)
      else do
        note fun h => { h with submitted := h.submitted ++ [(record, records.getD 0)] }
        Prog.modify fun w => { w with journalBuffer := w.journalBuffer ++ record }
        flushJournal env
        fileCall env
        Prog.modify fun w => { w with
          aggregating := true
          countOwed :=
            if w.stamper.config.receiptsOn then records.map (size / commitmentSize, ·) else none }

/-- The rest of `JournalWriter.submit`: a count that cannot be written is lost. -/
def writeCount : M Unit := do
  let owed ← Prog.gets (·.countOwed)
  match owed with
  | none => pure ()
  | some (idx, counted) => do
      guarded (putCount env idx (storedCount counted)) fun _ => pure ()
      Prog.modify fun w => { w with countOwed := none }

end Submissions

end OtsServer.Service
