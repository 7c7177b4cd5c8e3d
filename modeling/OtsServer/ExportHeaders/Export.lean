import OtsServer.Library.Prog
import OtsServer.Library.Text
import OtsServer.VerifyClaim.Chain

/-!
# The headers exporter

`ops/export_headers.py`: one run cuts the file back to its last whole header, then to the
last header the node still holds, and appends what the node has beyond it, a batch at a
time. `Env` answers every call to the node and to the file system; each answer may depend
on how many calls were made before, so any call may answer anything, raise, or be the last
thing the process does. The lock keeps two runs apart: runs follow one another.
-/

namespace OtsServer.ExportHeaders

open VerifyClaim

/-- What a run can raise. `stop` is the end of the process; nothing catches it. `unfinished`
stands for a loop that has not ended within the rounds it was given. -/
inductive Exc
  | stop
  | osError
  | runtimeError
  | typeError
  | valueError
  | indexError
  | unfinished
deriving DecidableEq

def Exc.isOsError : Exc → Bool
  | osError => true
  | _ => false

/-- What the node may give for the height of its tip: a number of any kind, or something else. -/
inductive Tip
  | int (n : Int)
  | float (value : ℚ)
  | infinite
  | notANumber
  | other

/-- `height <= tip`. -/
def Tip.reaches (height : Nat) : Tip → Except Exc Bool
  | int n => .ok ((height : Int) ≤ n)
  | float value => .ok ((height : ℚ) ≤ value)
  | infinite => .ok true
  | notANumber => .ok false
  | other => .error .typeError

/-- `min(tip, height)`, where an integer is needed. -/
def Tip.atMost (height : Int) : Tip → Except Exc Int
  | int n => .ok (min n height)
  | float value => if value ≤ (height : ℚ) then .error .typeError else .ok height
  | infinite => .ok height
  | notANumber => .error .typeError
  | other => .error .typeError

/-- A result of the node: a string, or another JSON value. -/
abbrev Reply := Option Text

inductive FileAnswer
  | done
  | raises
  | stops
deriving DecidableEq

def FileAnswer.result : FileAnswer → Except Exc Unit
  | done => .ok ()
  | raises => .error .osError
  | stops => .error .stop

/-- How `os.write` ends: some first bytes are written and counted, or it raises, or the process
stops after some. -/
inductive WriteAnswer
  | wrote (n : Nat)
  | raises
  | stops (n : Nat)

structure Env where
  file : Nat → FileAnswer
  write : Nat → WriteAnswer
  /-- Whether a batch of calls is answered: every call of it has a result. -/
  rpc : Nat → Except Exc Unit
  getblockcount : Nat → Tip
  /-- The result of a call of a batch: by the batch, the call's place in it and its parameter. -/
  getblockhash : Nat → Nat → Nat → Reply
  getblockheader : Nat → Nat → Reply → Reply

structure Args where
  batch : Int
  network : Network

/-- The file, if there is one, and the number of calls made so far. -/
structure World where
  file : Option Bytes
  calls : Nat

/-- What is on file. -/
def World.raw (w : World) : Bytes := w.file.getD []

abbrev M := Prog World Exc

/-! ## The rules for a header -/

/-- Why a header is refused. -/
inductive Reason
  | unlinked (height : Nat)
  | invalidTarget (height : Nat) (rule : TargetError) (bits : Nat)
  | failsWork (height : Nat)
  | bitsChanged (height : Nat)
deriving DecidableEq

/-- `prev_hash` and `prev_bits`: what the next header follows. -/
structure Tail where
  prevHash : Option Bytes
  prevBits : Option Nat

/-- `check_header`. -/
def checkHeader (header : Bytes) (height : Nat) (tail : Tail) (network : Network) : Option Reason :=
  let fields := headerFields header
  if tail.prevHash ≠ none ∧ some fields.prev ≠ tail.prevHash then some (.unlinked height)
  else
    match checkTarget fields.bits network with
    | .error rule => some (.invalidTarget height rule fields.bits)
    | .ok target =>
        if Bytes.natLE (sha256d header) > target then some (.failsWork height)
        else if network.retarget ∧ tail.prevBits ≠ none ∧ height % retargetInterval ≠ 0 ∧
            some fields.bits ≠ tail.prevBits then some (.bitsChanged height)
        else none

/-- Why a run ends with a batch. -/
inductive Refusal
  | size (bytes height : Nat)
  | rule (reason : Reason)
  | writeFailed (headers : Nat)
deriving DecidableEq

def Tail.after (header : Bytes) : Tail := ⟨some (sha256d header), some (headerBits header)⟩

/-- The loop over a batch's headers: their bytes, and what the next batch follows. -/
def checkBatch (network : Network) :
    List (Nat × Reply) → Tail → Except Exc (Except Refusal (Bytes × Tail))
  | [], tail => .ok (.ok ([], tail))
  | (height, raw) :: rest, tail =>
      match raw with
      | none => .error .typeError
      | some text =>
          match Text.fromHex text with
          | none => .error .valueError
          | some header =>
              if header.length ≠ headerSize then .ok (.error (.size header.length height))
              else
                match checkHeader header height tail network with
                | some reason => .ok (.error (.rule reason))
                | none =>
                    match checkBatch network rest (.after header) with
                    | .ok (.ok (chunk, tail)) => .ok (.ok (header ++ chunk, tail))
                    | r => r

/-! ## Calls -/

section Calls

variable (env : Env)

def ask {α : Type} (answer : Nat → Except Exc α) : M α := fun w =>
  (answer w.calls, { w with calls := w.calls + 1 })

def fileCall : M Unit := ask fun n => (env.file n).result

/-- The file's size, when there is a file. -/
def fileSize : M (Option Nat) := do
  fileCall env
  Prog.gets fun w => w.file.map List.length

/-- The file is opened, cut and synced. -/
def truncate (size : Nat) : M Unit := do
  fileCall env
  fileCall env
  Prog.modify fun w => { w with file := w.file.map (List.take size) }
  fileCall env

/-- The header at an index of the file. -/
def readHeader (i : Nat) : M Bytes := do
  fileCall env
  Prog.gets fun w => headerAt w.raw i

/-- `rpc_batch`. -/
def rpcBatch {α : Type} (answer : Nat → Nat → α → Reply) (calls : List α) : M (List Reply) :=
  ask fun n => (env.rpc n).map fun _ => calls.zipIdx.map fun call => answer n call.2 call.1

def blockCount : M Tip := ask fun n => (env.rpc n).map fun _ => env.getblockcount n

/-- The loop of `node_hashes`, by batches of `size`. -/
def hashBatches (size : Nat) : Nat → List Nat → M (List Reply)
  | 0, _ => pure []
  | fuel + 1, heights =>
      if heights = [] then pure []
      else do
        let out ← rpcBatch env env.getblockhash (heights.take size)
        let rest ← hashBatches size fuel (heights.drop size)
        pure (out ++ rest)

/-- `node_hashes`. -/
def nodeHashes (heights : List Nat) (batch : Int) : M (List Reply) :=
  if batch = 0 then Prog.raise .valueError
  else if batch < 0 then pure []
  else hashBatches env batch.toNat heights.length heights

/-- `os.open` of the file for appending, which makes it where there was none. -/
def openAppend : M Unit := do
  fileCall env
  Prog.modify fun w => { w with file := some w.raw }

/-- `os.write`: some first bytes of `data` are appended, and counted. -/
def osWrite (data : Bytes) : M Nat := fun w =>
  let landed n : World := { file := some (w.raw ++ data.take n), calls := w.calls + 1 }
  match env.write w.calls with
  | .wrote n => (.ok (min n data.length), landed n)
  | .raises => (.error .osError, { w with calls := w.calls + 1 })
  | .stops n => (.error .stop, landed n)

/-- `write_all`. -/
def writeAll (data : Bytes) : M Unit :=
  Prog.loop (fun view : Bytes =>
      if view = [] then pure (.inr ())
      else do
        let n ← osWrite env view
        if n = 0 then Prog.raise .osError else pure (.inl (view.drop n)))
    (fun _ => pure ()) (data.length + 1) data

/-- The writing of a batch: whether it ended well. -/
def appendChunk (chunk : Bytes) : M Bool := do
  openAppend env
  let written ← Prog.handle (do
      writeAll env chunk
      fileCall env
      pure true)
    fun e => if e.isOsError then some (pure false) else none
  fileCall env
  pure written

/-! ## A run -/

/-- `truncate` where `c` holds. -/
def truncateIf (c : Prop) [Decidable c] (size : Nat) : M Unit :=
  if c then truncate env size else pure ()

/-- The file is cut back to its whole headers; their number. -/
def recover : M Nat := do
  let size := (← fileSize env).getD 0
  truncateIf env (size % headerSize ≠ 0) (size / headerSize * headerSize)
  pure (size / headerSize)

/-- The node's hash at a height, if it has one. -/
def nodeHashAt (args : Args) (tip : Tip) (height : Nat) : M Reply := do
  let reaches ← Prog.ofExcept (tip.reaches height)
  if reaches then do
    match ← nodeHashes env [height] args.batch with
    | [] => Prog.raise .indexError
    | hash :: _ => pure hash
  else pure none

/-- The walk back from the tail: the number of headers up to the last one the node holds. -/
def findCommon (args : Args) (tip : Tip) : Nat → M Nat
  | 0 => pure 0
  | keep + 1 => do
      let last ← readHeader env keep
      let nodeHash ← nodeHashAt env args tip keep
      if nodeHash = some (display (sha256d last)) then pure (keep + 1) else findCommon args tip keep

/-- What the header after the first `keep` follows. -/
def tailOf (keep : Nat) : M Tail :=
  if keep = 0 then pure ⟨none, none⟩
  else do
    let last ← readHeader env (keep - 1)
    pure (.after last)

/-- The number of headers the run goes on from, and what the next one follows. -/
def resume (args : Args) (tip : Tip) (onFile : Nat) : M (Nat × Tail) := do
  if onFile = 0 then pure (0, ⟨none, none⟩)
  else
    fileCall env
    let keep ← findCommon env args tip onFile
    truncateIf env (keep < onFile) (keep * headerSize)
    let tail ← tailOf env keep
    pure (keep, tail)

/-- A round of the loop: a batch is fetched, checked and appended. The next height, what its
header follows, and the number of headers appended. -/
def exportBatch (args : Args) (tip : Tip) (height : Nat) (tail : Tail) :
    M (Except Refusal (Nat × Tail × Nat)) :=
  do
  let last ← Prog.ofExcept (tip.atMost (height + args.batch - 1))
  let heights := List.range' height (last + 1 - height).toNat
  let hashes ← nodeHashes env heights args.batch
  let raws ← rpcBatch env env.getblockheader hashes
  match ← Prog.ofExcept (checkBatch args.network (heights.zip raws) tail) with
  | .error refusal => pure (.error refusal)
  | .ok (chunk, tail) => do
      if !(← appendChunk env chunk) then pure (.error (.writeFailed heights.length))
      else
        match heights.getLast? with
        | none => Prog.raise .indexError
        | some height => pure (.ok (height + 1, tail, heights.length))

/-- The end of a run that appended so many headers. -/
def finish (appended : Nat) : M Nat := do
  (if appended = 0 then pure () else do
    fileCall env
    fileCall env)
  fileCall env
  pure 0

/-- The loop's variables: the next height, what its header follows, and the headers appended. -/
structure Position where
  height : Nat
  tail : Tail
  appended : Nat

/-- A round of the loop, or what follows it. -/
def exportRound (args : Args) (tip : Tip) (b : Position) : M (Position ⊕ Nat) := do
  let more ← Prog.ofExcept (tip.reaches b.height)
  if more then do
    match ← exportBatch env args tip b.height b.tail with
    | .error _ => pure (.inr 1)
    | .ok (height, tail, headers) => pure (.inl ⟨height, tail, b.appended + headers⟩)
  else do
    let code ← finish env b.appended
    pure (.inr code)

/-- `_export`, in at most `rounds` rounds of its loop. -/
def exportRun (args : Args) (rounds : Nat) : M Nat := do
  let onFile ← recover env
  let tip ← blockCount env
  let (height, tail) ← resume env args tip onFile
  Prog.loop (exportRound env args tip) (fun _ => Prog.raise .unfinished) rounds ⟨height, tail, 0⟩

end Calls

end OtsServer.ExportHeaders
