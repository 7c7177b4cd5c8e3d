import OtsServer.Service.Storage
import OtsServer.Library.Slots
import OtsServer.Library.Transition

/-!
# The journal's writer

`JournalWriter` and `RecordCountsWriter` of `otsserver/calendar.py`, one call after the other:
what a reader of the files sees between two of them is what is on file then. The writer appends
through a buffer, and its position is the end of what is buffered. A process may stop in any
call, with any first bytes of what it was writing on file. A flush that raises ends the
aggregator's loop, and with it the submissions of the process: it is a stop too.
-/

namespace OtsServer.Journal

open Service

/-- What a submission is in the middle of. -/
inductive Doing
  | nothing
  /-- The entry is buffered, and being flushed and synced. -/
  | appending (idx : Nat) (commitment : Bytes) (records : Option Nat)
  /-- The entry is synced, and the count not yet put. -/
  | putting (idx : Nat) (count : Nat)
deriving DecidableEq

/-- An open `JournalWriter`. -/
structure Writer where
  /-- The bytes of `append_fd` that are not on file. -/
  buffer : Bytes
  /-- `record_counts` is not `None`. -/
  counting : Bool
  doing : Doing
deriving DecidableEq

/-- A submission whose entry was synced: with its index and the records it was given. -/
structure Synced where
  idx : Nat
  commitment : Bytes
  records : Option Nat
deriving DecidableEq

/-- A call of `RecordCountsWriter.put`, with the number of bytes that landed. -/
structure Put where
  idx : Nat
  count : Nat
  landed : Nat
deriving DecidableEq

structure State where
  journal : Bytes
  counts : Bytes
  writer : Option Writer
  /-- What was done so far, the newest last. -/
  synced : List Synced
  puts : List Put
deriving DecidableEq

inductive Event
  /-- `JournalWriter.__init__`. -/
  | opens (counting : Bool)
  /-- `submit`, until the entry is buffered. -/
  | submit (commitment : Bytes) (records : Option Nat)
  /-- Some of the buffer's first bytes land. -/
  | flush (n : Nat)
  /-- `os.fsync` of the journal returns. -/
  | sync
  /-- `RecordCountsWriter.put`: the write returns or raises with `n` bytes on file. -/
  | put (n : Nat)
  /-- The process stops, with `n` more bytes on file. -/
  | stop (n : Nat)
deriving DecidableEq

/-- `append_fd.tell()`. -/
def Writer.tell (w : Writer) (journal : Bytes) : Nat := journal.length + w.buffer.length

/-- What `struct.pack('>L', count)` takes. -/
def maxCount : Nat := 2 ^ 32 - 1

/-- `os.pwrite` of a count of which `n` bytes land. -/
def putCounts (counts : Bytes) (idx count n : Nat) : Bytes :=
  pwrite counts (idx * recordSize) ((Bytes.ofNatBE recordSize count).take n)

/-- A count is put with `n` bytes; one that does not fit is not packed. -/
def State.put (s : State) (idx count n : Nat) : State :=
  if count ≤ maxCount then
    { s with
      counts := putCounts s.counts idx count n
      puts := s.puts ++ [⟨idx, count, min n recordSize⟩] }
  else s

/-- What a submission does once its entry is synced. -/
def afterSync (counting : Bool) (idx : Nat) (records : Option Nat) : Doing :=
  match counting, records with
  | true, some records => .putting idx (storedCount records)
  | _, _ => .nothing

/-- A commitment is buffered at the writer's position; an assertion, or a commitment of a wrong
length, ends the submission. -/
def submitEntry (s : State) (w : Writer) (commitment : Bytes) (records : Option Nat) : State :=
  match journalRecord commitment with
  | none => s
  | some record =>
      if w.tell s.journal % commitmentSize = 0 then
        { s with writer := some { w with
            buffer := w.buffer ++ record
            doing := .appending (w.tell s.journal / commitmentSize) commitment records } }
      else s

def step (s : State) : Event → Option State
  | .opens counting =>
      match s.writer with
      | some _ => none
      | none => some { s with writer := some ⟨journalPadding s.journal, counting, .nothing⟩ }
  | .submit commitment records =>
      match s.writer with
      | some w => if w.doing = .nothing then some (submitEntry s w commitment records) else none
      | none => none
  | .flush n =>
      match s.writer with
      | some w => some { s with
          journal := s.journal ++ w.buffer.take n
          writer := some { w with buffer := w.buffer.drop n } }
      | none => none
  | .sync =>
      match s.writer with
      | some w =>
          match w.doing, w.buffer with
          | .appending idx commitment records, [] => some { s with
              synced := s.synced ++ [⟨idx, commitment, records⟩]
              writer := some { w with doing := afterSync w.counting idx records } }
          | _, _ => none
      | none => none
  | .put n =>
      match s.writer with
      | some w =>
          match w.doing with
          | .putting idx count =>
              some { s.put idx count n with writer := some { w with doing := .nothing } }
          | _ => none
      | none => none
  | .stop n =>
      match s.writer with
      | some w =>
          let stopped := { s with journal := s.journal ++ w.buffer.take n, writer := none }
          match w.doing with
          | .putting idx count => some (stopped.put idx count n)
          | _ => some stopped
      | none => none

/-- The files of a calendar that was never written to. -/
def State.empty : State := ⟨[], [], none, [], []⟩

/-- Every run of submissions, stops and openings. -/
def writing : Transition.System State where
  init s := s = State.empty
  step s t := ∃ e, step s e = some t

/-- A commitment that a reader gets back as it is: one that does not end as a padded one does. -/
def Plain (commitment : Bytes) : Prop :=
  commitment.length = commitmentSize - hmacSize ∨
    commitment.length = commitmentSize ∧ commitment.drop (commitmentSize - hmacSize) ≠
      List.replicate hmacSize 0

instance : DecidablePred Plain := fun _ => inferInstanceAs (Decidable (_ ∨ _))

end OtsServer.Journal
