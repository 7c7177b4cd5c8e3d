import OtsServer.Library.Bytes
import Mathlib.Data.List.Nodup
import Mathlib.Logic.Function.Basic

/-!
# The timestamp store

`LevelDbCalendar` keeps one record for each message: its attestations and its operations.
A timestamp is stored by merging each of its nodes into the record of the node's message,
and it is read back by following the operations from record to record.

The operations, the attestations and their bytes belong to the timestamp library, so they are
parameters. `Lib` says what the store relies on. A timestamp object may be shared between
several places; the store only reads the timestamps it is given, so each is given here by its
unfolding. The records in the batch cache are written in place, and that is kept.
-/

namespace OtsServer.LevelDb

variable {Op Att : Type}

/-- What raises while the calendar is read or written. -/
inductive Exc
  | keyError (msg : Bytes)
  | assertionError
  | deserializationError
  | msgValueError
  | recursionError
deriving DecidableEq

/-- The timestamp library: what an operation does to a message, and how counts, operations and
attestations are written and read back. -/
structure Lib (Op Att : Type) where
  call : Op → Bytes → Option Bytes
  writeVaruint : Nat → Bytes
  readVaruint : Bytes → Option (Nat × Bytes)
  writeAttestation : Att → Bytes
  readAttestation : Bytes → Option (Att × Bytes)
  writeOp : Op → Bytes
  readOp : Bytes → Option (Op × Bytes)
  readVaruint_write : ∀ n rest, readVaruint (writeVaruint n ++ rest) = some (n, rest)
  readAttestation_write : ∀ a rest, readAttestation (writeAttestation a ++ rest) = some (a, rest)
  readOp_write : ∀ op rest, readOp (writeOp op ++ rest) = some (op, rest)

mutual

/-- A timestamp: the attestations of a message, and its operations with their results. -/
inductive Timestamp (Op Att : Type)
  | mk (msg : Bytes) (attestations : List Att) (ops : Ops Op Att)

inductive Ops (Op Att : Type)
  | nil
  | cons (op : Op) (result : Timestamp Op Att) (rest : Ops Op Att)

end

namespace Timestamp

def msg : Timestamp Op Att → Bytes
  | mk msg _ _ => msg

def attestations : Timestamp Op Att → List Att
  | mk _ attestations _ => attestations

def ops : Timestamp Op Att → Ops Op Att
  | mk _ _ ops => ops

end Timestamp

namespace Ops

def keys : Ops Op Att → List Op
  | nil => []
  | cons op _ rest => op :: rest.keys

/-- Every result is the bare timestamp that `Timestamp(op(msg))` makes. -/
def bare (lib : Lib Op Att) (msg : Bytes) : Ops Op Att → Bool
  | nil => true
  | cons op (.mk result [] nil) rest => lib.call op msg == some result && rest.bare lib msg
  | cons _ _ _ => false

end Ops

/-! ## Records -/

/-- A timestamp of `msg` whose results are bare: sets of attestations and operations, in the
order they were added, where every operation can be applied to the message. -/
@[ext]
structure Shallow (lib : Lib Op Att) (msg : Bytes) where
  attestations : List Att
  ops : List Op
  attestations_nodup : attestations.Nodup
  ops_nodup : ops.Nodup
  ops_called : ∀ op ∈ ops, ∃ result, lib.call op msg = some result

namespace Shallow

variable {lib : Lib Op Att} {msg : Bytes}

/-- `Timestamp(msg)`. -/
def empty (lib : Lib Op Att) (msg : Bytes) : Shallow lib msg :=
  ⟨[], [], .nil, .nil, fun _ h => nomatch h⟩

variable [DecidableEq Op] [DecidableEq Att]

/-- `timestamp.attestations.add`. -/
def addAttestation (r : Shallow lib msg) (a : Att) : Shallow lib msg :=
  if h : a ∈ r.attestations then r
  else
    { r with
      attestations := r.attestations ++ [a]
      attestations_nodup := by
        rw [List.nodup_append]
        exact ⟨r.attestations_nodup, List.nodup_singleton a, fun b hb c hc hbc =>
          h (List.mem_singleton.mp hc ▸ hbc ▸ hb)⟩ }

/-- `timestamp.attestations.update`. -/
def update (r : Shallow lib msg) (attestations : List Att) : Shallow lib msg :=
  attestations.foldl addAttestation r

/-- `timestamp.ops.add`, which makes the result's timestamp for a new operation. -/
def addOp (r : Shallow lib msg) (op : Op) : Except Exc (Shallow lib msg) :=
  if h : op ∈ r.ops then .ok r
  else
    match hcall : lib.call op msg with
    | none => .error .msgValueError
    | some result =>
        .ok { r with
          ops := r.ops ++ [op]
          ops_nodup := by
            rw [List.nodup_append]
            exact ⟨r.ops_nodup, List.nodup_singleton op, fun b hb c hc hbc =>
              h (List.mem_singleton.mp hc ▸ hbc ▸ hb)⟩
          ops_called := by
            intro b hb
            obtain hb | hb := List.mem_append.mp hb
            · exact r.ops_called b hb
            · exact ⟨result, List.mem_singleton.mp hb ▸ hcall⟩ }

/-- `existing_timestamp == new_timestamp`: the same attestations and operations, and results
that are the bare ones. -/
def same (r : Shallow lib msg) (attestations : List Att) (ops : Ops Op Att) : Bool :=
  decide (∀ a ∈ r.attestations, a ∈ attestations) &&
    decide (∀ a ∈ attestations, a ∈ r.attestations) &&
    decide (∀ op ∈ r.ops, op ∈ ops.keys) && decide (∀ op ∈ ops.keys, op ∈ r.ops) && ops.bare lib msg

/-- What `__put_timestamp` writes. -/
def serialize (r : Shallow lib msg) : Bytes :=
  lib.writeVaruint r.attestations.length ++ (r.attestations.flatMap lib.writeAttestation ++
    (lib.writeVaruint r.ops.length ++ r.ops.flatMap lib.writeOp))

end Shallow

/-! ## The database -/

/-- `META_PREFIX`: the keys of the database's own identity. -/
def metaPrefix : Bytes := [0x00, 0x6d, 0x65, 0x74, 0x61, 0x2f]
def metaGeneration : Bytes :=
  metaPrefix ++ [0x67, 0x65, 0x6e, 0x65, 0x72, 0x61, 0x74, 0x69, 0x6f, 0x6e]
def metaWatermark : Bytes := metaPrefix ++ [0x77, 0x61, 0x74, 0x65, 0x72, 0x6d, 0x61, 0x72, 0x6b]

def isMeta (msg : Bytes) : Bool := metaPrefix.isPrefixOf msg

abbrev Db := Bytes → Option Bytes

/-- The effect of a written batch: its puts, in order. -/
def Db.write (db : Db) (puts : List (Bytes × Bytes)) : Db :=
  puts.foldl (fun db put => Function.update db put.1 (some put.2)) db

section

variable [DecidableEq Op] [DecidableEq Att] (lib : Lib Op Att)

def readAttestations {msg : Bytes} :
    Nat → Shallow lib msg → Bytes → Except Exc (Shallow lib msg × Bytes)
  | 0, r, data => .ok (r, data)
  | n + 1, r, data =>
      match lib.readAttestation data with
      | none => .error .deserializationError
      | some (a, rest) =>
          if a ∈ r.attestations then .error .assertionError
          else readAttestations n (r.addAttestation a) rest

def readOps {msg : Bytes} : Nat → Shallow lib msg → Bytes → Except Exc (Shallow lib msg)
  | 0, r, _ => .ok r
  | n + 1, r, data =>
      match lib.readOp data with
      | none => .error .deserializationError
      | some (op, rest) =>
          if op ∈ r.ops then .error .assertionError
          else
            match r.addOp op with
            | .error e => .error e
            | .ok r => readOps n r rest

/-- The record of `msg` in its bytes. -/
def deserialize (msg : Bytes) (data : Bytes) : Except Exc (Shallow lib msg) :=
  match lib.readVaruint data with
  | none => .error .deserializationError
  | some (attestations, data) =>
      match readAttestations lib attestations (Shallow.empty lib msg) data with
      | .error e => .error e
      | .ok (r, data) =>
          match lib.readVaruint data with
          | none => .error .deserializationError
          | some (ops, data) => readOps lib ops r data

/-- `msg in calendar`. -/
def contains (db : Db) (msg : Bytes) : Bool := !isMeta msg && (db msg).isSome

/-- `__get_timestamp`. -/
def getTimestamp (db : Db) (msg : Bytes) : Except Exc (Shallow lib msg) :=
  match if isMeta msg then none else db msg with
  | none => .error (.keyError msg)
  | some data => deserialize lib msg data

/-- The loop of `calendar[msg]` over the operations of its record. -/
def getResults (item : Bytes → Except Exc (Timestamp Op Att)) (msg : Bytes) :
    List Op → Except Exc (Ops Op Att)
  | [] => .ok .nil
  | op :: ops =>
      match lib.call op msg with
      | none => .error .msgValueError
      | some result =>
          match item result with
          | .error e => .error e
          | .ok t =>
              match getResults item msg ops with
              | .error e => .error e
              | .ok rest => .ok (.cons op t rest)

/-- `calendar[msg]`, within so many nested calls. -/
def getItem (db : Db) : Nat → Bytes → Except Exc (Timestamp Op Att)
  | 0, _ => .error .recursionError
  | depth + 1, msg =>
      match getTimestamp lib db msg with
      | .error e => .error e
      | .ok r =>
          match getResults lib (getItem db depth) msg r.ops with
          | .error e => .error e
          | .ok ops => .ok (.mk msg r.attestations ops)

/-! ## Adding timestamps -/

/-- `batch` and `batch_cache`. -/
structure Batch where
  puts : List (Bytes × Bytes)
  cache : (msg : Bytes) → Option (Shallow lib msg)

variable {lib}

def Batch.empty : Batch lib := ⟨[], fun _ => none⟩

/-- Replace the cached record of a message. -/
def Batch.setCache {msg : Bytes} (b : Batch lib) (r : Shallow lib msg) : Batch lib :=
  { b with cache := Function.update b.cache msg (some r) }

/-- `__put_timestamp`. -/
def Batch.put {msg : Bytes} (b : Batch lib) (r : Shallow lib msg) : Batch lib :=
  { b.setCache r with puts := b.puts ++ [(msg, r.serialize)] }

/-- `existing_timestamp` of a message: the cached object itself, a copy read from the database,
or nothing. -/
inductive Existing (lib : Lib Op Att) (msg : Bytes)
  | cached (r : Shallow lib msg)
  | stored (r : Shallow lib msg)
  | missing

/-- The search for `existing_timestamp`, in the cache first. -/
def existing (db : Db) (b : Batch lib) (msg : Bytes) : Except Exc (Existing lib msg) :=
  match b.cache msg with
  | some r => .ok (.cached r)
  | none =>
      match getTimestamp lib db msg with
      | .ok r => .ok (.stored r)
      | .error (.keyError _) => .ok .missing
      | .error e => .error e

/-- A change to `existing_timestamp`, seen in the cache when that is where the object is. -/
def Batch.mutate {msg : Bytes} (b : Batch lib) (shared : Bool) (r : Shallow lib msg) : Batch lib :=
  if shared then b.setCache r else b

/-- `existing_timestamp` after a nested call, which may have changed a cached object. -/
def Batch.current {msg : Bytes} (b : Batch lib) (shared : Bool) (r : Shallow lib msg) :
    Shallow lib msg :=
  if shared then (b.cache msg).getD r else r

/-- The end of `__add_timestamp`: the merged record is put. -/
def finish {msg : Bytes} : Except Exc (Shallow lib msg × Batch lib) → Except Exc (Batch lib)
  | .error e => .error e
  | .ok (r, b) => .ok (b.put r)

mutual

/-- `__add_timestamp`. -/
def addTimestamp (db : Db) : Timestamp Op Att → Batch lib → Except Exc (Batch lib)
  | .mk msg attestations ops, b =>
      match existing db b msg with
      | .error e => .error e
      | .ok (.cached r) =>
          if r.same attestations ops then .ok b
          else
            finish (addOps db msg true ops (r.update attestations)
                (b.mutate true (r.update attestations)))
      | .ok (.stored r) =>
          if r.same attestations ops then .ok b
          else finish (addOps db msg false ops (r.update attestations) b)
      | .ok .missing =>
          finish (addOps db msg false ops ((Shallow.empty lib msg).update attestations) b)

/-- The loop of `__add_timestamp` over the new timestamp's operations. -/
def addOps (db : Db) (msg : Bytes) (shared : Bool) :
    Ops Op Att → Shallow lib msg → Batch lib → Except Exc (Shallow lib msg × Batch lib)
  | .nil, r, b => .ok (r, b)
  | .cons op result rest, r, b =>
      match r.addOp op with
      | .error e => .error e
      | .ok r =>
          match addTimestamp db result (b.mutate shared r) with
          | .error e => .error e
          | .ok b => addOps db msg shared rest (b.current shared r) b

end

/-- The loop of `add_timestamps`. -/
def addEach (db : Db) : List (Timestamp Op Att) → Batch lib → Except Exc (Batch lib)
  | [], b => .ok b
  | t :: ts, b =>
      match addTimestamp db t b with
      | .error e => .error e
      | .ok b => addEach db ts b

end

/-- The open calendar. -/
structure Calendar where
  db : Db
  watermark : Nat

/-- `str(n).encode()`. -/
def strEncode (n : Nat) : Bytes := (Nat.toDigits 10 n).map fun c => UInt8.ofNat c.toNat

/-- A database created just now, once it has been given its identity. -/
def create (generation : Bytes) : Calendar :=
  ⟨Db.write (fun _ => none) [(metaGeneration, generation), (metaWatermark, strEncode 0)], 0⟩

section

variable [DecidableEq Op] [DecidableEq Att] (lib : Lib Op Att)

def addTimestamps (cal : Calendar) (new : List (Timestamp Op Att)) (watermark : Option Nat) :
    Except Exc Calendar :=
  match addEach cal.db new (Batch.empty : Batch lib) with
  | .error e => .error e
  | .ok b =>
      match watermark with
      | none => .ok ⟨cal.db.write b.puts, cal.watermark⟩
      | some n => .ok ⟨cal.db.write (b.puts ++ [(metaWatermark, strEncode n)]), n⟩

/-- One call of `add_timestamps` after the other. -/
def addBatches (cal : Calendar) : List (List (Timestamp Op Att) × Option Nat) → Except Exc Calendar
  | [] => .ok cal
  | (new, watermark) :: batches =>
      match addTimestamps lib cal new watermark with
      | .error e => .error e
      | .ok cal => addBatches cal batches

end

end OtsServer.LevelDb
