import OtsServer.Library.Bytes
import OtsServer.Library.Text
import OtsServer.Library.Prog
import Mathlib.Data.List.AList
import Mathlib.Data.Rat.Defs

/-!
# The service and its surroundings

The state that the calendar and the stamper work on, and what they call outside. One
process runs at a time: what it holds in memory is `Stamper` and its own view of the
database, what stays when it stops is `Disk`. `Env` answers every call to the node,
to the file system, to LevelDB and to the clock; each answer may depend on how many
calls were made before, so any call may answer anything, raise, or be the last thing
the process does. The third-party functions the source relies on (transactions, merkle
trees, JSON) are parameters.

A synchronous LevelDB batch that raises changes nothing the process can see, and may or
may not be found by the next open. An absent file of bytes is an empty one: no modelled
function tells them apart.
-/

namespace OtsServer.Service

/-- What a call can raise. `stop` is the end of the process; nothing catches it. -/
inductive Exc
  | stop
  | systemExit
  | indexError
  | keyError
  | valueError
  | typeError
  | assertionError
  | attributeError
  | brokenPipe
  | osError (errno : Nat)
  | levelDb
  | rpcError (code : Int)
  | receiptsAheadOfDatabase
  | other
deriving DecidableEq

/-- What `__settle_marker` expects of a marker that it cannot read. -/
def Exc.unreadable : Exc → Bool
  | valueError => true
  | keyError => true
  | typeError => true
  | _ => false

/-! ## Transactions and blocks -/

structure OutPoint where
  hash : Bytes
  n : Nat
deriving DecidableEq

/-- A script: `CScript([OP_RETURN, data])`, or bytes the wallet gave. -/
inductive Script
  | opReturn (data : Bytes)
  | raw (bytes : Bytes)
deriving DecidableEq

structure TxOut where
  nValue : Int
  scriptPubKey : Script
deriving DecidableEq

structure TxIn where
  prevout : OutPoint
  scriptSig : Bytes
  nSequence : Nat
deriving DecidableEq

structure Tx where
  vin : List TxIn
  vout : List TxOut
  nLockTime : Int
  witness : List Bytes
deriving DecidableEq

structure Block where
  vtx : List Tx
  hashMerkleRoot : Bytes

structure KnownBlock where
  height : Int
  hash : Bytes
deriving DecidableEq

/-- A mined anchor that waits for its confirmations. -/
structure TimestampTx where
  tx : Tx
  tip : Bytes
  commitments : List Bytes
  fee : Int
  height : Int
  records : Nat
deriving DecidableEq

structure UnconfirmedTimestampTx where
  tx : Tx
  tip : Bytes
  n : Nat
  fee : Int
  records : Nat
deriving DecidableEq

/-- A wallet output. -/
structure Unspent where
  outpoint : OutPoint
  amount : Int
  spendable : Bool
deriving DecidableEq

/-- An anchor receipt; its line in the receipts file and its place in a marker are JSON. -/
structure Receipt where
  txid : Bytes
  feeSats : Int
  commitments : Nat
  confirmedHeight : Int
  confirmedAt : Int
  records : Nat
deriving DecidableEq

/-! ## Third-party functions -/

def newline : UInt8 := 0x0a

/-- `json.dumps` and `json.loads` at the values the source gives them. A receipt read back
from its line, or from the body of its marker, is the receipt. -/
structure Codec where
  line : Receipt → Bytes
  body : Receipt → Bytes
  /-- `json.loads(line).get('txid')`. -/
  lineTxid : Bytes → Except Exc (Option Bytes)
  /-- The receipt a line holds, for whoever reads the file. -/
  lineReceipt : Bytes → Option Receipt
  /-- `json.loads(body)['receipt']`, its txid and the probe made from it. -/
  bodyReceipt : Bytes → Except Exc Receipt
  line_no_newline : ∀ r, newline ∉ line r
  lineTxid_line : ∀ r, lineTxid (line r ++ [newline]) = .ok (some r.txid)
  lineReceipt_line : ∀ r, lineReceipt (line r ++ [newline]) = some r
  bodyReceipt_body : ∀ r, bodyReceipt (body r ++ [newline]) = .ok r

structure Lib where
  codec : Codec
  /-- `tx.GetTxid()`. -/
  txid : Tx → Bytes
  /-- `tx.serialize` without witness data. -/
  serialize : Tx → Bytes
  /-- The length of `tx.serialize()`. -/
  totalSize : Tx → Nat
  /-- The tip of `make_merkle_tree` over the hashes of the commitments. -/
  merkleTip : List Bytes → Bytes
  /-- The message of `cat_sha256d`. -/
  catSha256d : Bytes → Bytes → Except Exc Bytes

/-! ## The surroundings -/

/-- A file call takes effect, raises without effect, or is where the process stops. -/
inductive FileAnswer
  | done
  | raises (errno : Nat)
  | stops
deriving DecidableEq

/-- `os.write`: some first bytes land, also when the process stops in it. -/
inductive WriteAnswer
  | wrote (n : Nat)
  | raises (errno : Nat)
  | stops (n : Nat)
deriving DecidableEq

/-- A synchronous batch, with whether the next open finds it when it did not return. -/
inductive BatchAnswer
  | returns
  | raises (landed : Bool)
  | stops (landed : Bool)
deriving DecidableEq

/-- The answers, each a function of the number of calls made before. -/
structure Env where
  lib : Lib
  /-- Rounds that a loop without a bound of its own is given before the process stops. -/
  patience : Nat → Nat
  makeProxy : Nat → Except Exc Unit
  getbestblockhash : Nat → Except Exc Bytes
  getblockcount : Nat → Except Exc Int
  getblockhash : Nat → Int → Except Exc Bytes
  getblock : Nat → Bytes → Except Exc Block
  listunspent : Nat → (minconf maxconf : Nat) → Except Exc (List Unspent)
  getrawtransaction : Nat → Bytes → Except Exc Tx
  gettransaction : Nat → Bytes → Except Exc Unit
  /-- The value of a confirmed unspent output. -/
  gettxout : Nat → OutPoint → Except Exc Int
  /-- `getnewaddress` and `getaddressinfo`: the script of a new address. -/
  changeScript : Nat → Except Exc Bytes
  /-- `complete`, and the transaction as signed. -/
  signrawtransactionwithwallet : Nat → Tx → Except Exc (Bool × Tx)
  /-- `feerate`, when there is one. -/
  estimatesmartfee : Nat → Except Exc (Option ℚ)
  sendrawtransaction : Nat → Tx → Except Exc Unit
  file : Nat → FileAnswer
  write : Nat → WriteAnswer
  read : Nat → FileAnswer
  batch : Nat → BatchAnswer
  clock : Nat → ℚ
  uniform : Nat → ℚ
  token : Nat → { bytes : Bytes // bytes.length = 16 }

/-! ## What is on disk -/

/-- The messages that the modelled functions ask the database about. -/
inductive Key
  | commitment (msg : Bytes)
  | txid (id : Bytes)
deriving DecidableEq

/-- `META_PREFIX`. -/
def metaPrefix : Bytes := [0x00, 0x6d, 0x65, 0x74, 0x61, 0x2f]

structure Db where
  generation : Option Text
  watermark : Nat
  keys : List Key

/-- `__contains__`: a message under the database's own prefix is never held. -/
def Db.holds (db : Db) : Key → Bool
  | .commitment msg => !metaPrefix.isPrefixOf msg && db.keys.contains (.commitment msg)
  | .txid id => db.keys.contains (.txid id)

/-- The database with a batch written to it. -/
def Db.put (db : Db) (keys : List Key) (watermark : Option Nat) : Db :=
  { db with keys := db.keys ++ keys, watermark := watermark.getD db.watermark }

structure Disk where
  journal : Bytes
  counts : Bytes
  /-- What the next open of the database finds. -/
  db : Db
  knownGood : Option Text
  receipts : Bytes
  /-- The pending-receipt markers, by the txid in their names. -/
  markers : AList fun _ : Bytes => Bytes

/-- An empty calendar directory. -/
def Disk.empty : Disk := ⟨[], [], ⟨none, 0, []⟩, none, [], ∅⟩

/-! ## What a process holds -/

structure Config where
  minConfirmations : Int
  one_lt : 1 < minConfirmations
  minTxInterval : ℚ
  maxFee : Int
  maxPending : Nat
  relayFeerate : ℚ
  /-- `OTSD_ANCHOR_RECEIPTS` is set. -/
  receiptsOn : Bool

structure Stamper where
  config : Config
  knownBlocks : List KnownBlock
  unprocessedBlocks : List KnownBlock
  unconfirmedTxs : List UnconfirmedTimestampTx
  /-- An ordered set: adding a member that is there changes nothing. -/
  pendingCommitments : List Bytes
  txsWaitingForConfirmation : AList fun _ : Int => TimestampTx
  commitmentRecords : AList fun _ : Bytes => Nat
  commitmentIdxs : AList fun _ : Bytes => Nat
  /-- `idx` of the loop: the next journal index to scan. -/
  scanIdx : Nat
  journalCursor : Option Nat
  nextTimestampTx : ℚ
  /-- The output, fee and tip of the anchor the node last refused whose fee could not rise. -/
  refusedAnchor : Option (OutPoint × Int × Option Bytes)

/-- A save of a tree: when and where its block was found, against what it was called mature. -/
structure Handed where
  height : Int
  blockHash : Option Bytes
  discovery : Nat
  minConfirmations : Int

/-- An anchor found in a block, with the commitments of its tree. -/
structure Found where
  txid : Bytes
  commitments : List Bytes
  /-- The database held the anchor then, or a tree that waited was its. -/
  again : Bool

/-- What the properties speak about and no modelled function reads. -/
structure History where
  /-- Rounds given to the journal: the entry, padded, and its counted leaves. -/
  submitted : List (Bytes × Nat)
  mined : List Found
  /-- The database after each batch that returned with a watermark. -/
  committed : List Db
  /-- Markers discarded, and whether the anchor's batch was on disk then. -/
  discarded : List (Bytes × Bool)
  /-- Saves that came to write their marker, and whether a marker then stood for another
  anchor that was on disk, unseen, with a commitment of theirs. -/
  overlapped : List (Bytes × Bool)
  /-- The block in which the tree last put at a height was found. -/
  blockAt : AList fun _ : Int => Bytes
  /-- The number of the call on which the last discovery ended. -/
  discovery : Nat
  handed : List Handed

def History.empty : History := ⟨[], [], [], [], [], ∅, 0, []⟩

/-- A process and its directory. -/
structure State where
  /-- The process is up. -/
  running : Bool
  disk : Disk
  /-- The database as the process sees it. -/
  db : Db
  stamper : Stamper
  /-- What the journal writer has buffered. -/
  journalBuffer : Bytes
  /-- The aggregator's loop runs: no round of it has failed. -/
  aggregating : Bool
  /-- A count that follows a journal entry: its index and its value. -/
  countOwed : Option (Nat × Nat)
  history : History

/-- A state, and the number of calls made so far. -/
structure World extends State where
  tick : Nat

abbrev M := Prog World Exc

/-! ## Calls -/

section Calls

variable (env : Env)

/-- One call, answered by the surroundings. -/
def ask {α : Type} (answer : Nat → Except Exc α) : M α := fun w =>
  (answer w.tick, { w with tick := w.tick + 1 })

def modifyStamper (f : Stamper → Stamper) : M Unit :=
  Prog.modify fun w => { w with stamper := f w.stamper }

def modifyDisk (f : Disk → Disk) : M Unit := Prog.modify fun w => { w with disk := f w.disk }

def note (f : History → History) : M Unit := Prog.modify fun w => { w with history := f w.history }

def FileAnswer.result : FileAnswer → Except Exc Unit
  | done => .ok ()
  | raises errno => .error (.osError errno)
  | stops => .error .stop

/-- A call to the file system that changes nothing the model keeps. -/
def fileCall : M Unit := ask fun n => (env.file n).result

/-- A call to the file system that takes effect when it returns. -/
def fileEffect (f : Disk → Disk) : M Unit := do
  fileCall env
  modifyDisk f

/-- `os.write`: some first bytes of `data` are `put`, and counted. -/
def osWrite (put : Bytes → Disk → Disk) (data : Bytes) : M Nat := fun w =>
  let landed n : World := { w with tick := w.tick + 1, disk := put (data.take n) w.disk }
  match env.write w.tick with
  | .wrote n => (.ok (min n data.length), landed n)
  | .raises errno => (.error (.osError errno), { w with tick := w.tick + 1 })
  | .stops n => (.error .stop, landed n)

/-- `EIO`. -/
def eio : Nat := 5

/-- `_write_all`. -/
def writeAll (put : Bytes → Disk → Disk) (data : Bytes) : M Unit :=
  Prog.loop (fun view : Bytes =>
      if view = [] then pure (.inr ())
      else do
        let n ← osWrite env put view
        if n = 0 then Prog.raise (.osError eio) else pure (.inl (view.drop n)))
    (fun _ => pure ()) (data.length + 1) data

/-- A read of the database that answers, or raises. -/
def dbRead : M Unit := ask fun n =>
  match env.read n with
  | .done => .ok ()
  | .raises _ => .error .levelDb
  | .stops => .error .stop

/-- `key in calendar`. -/
def dbContains (key : Key) : M Bool := do
  dbRead env
  Prog.gets fun w => w.db.holds key

/-- A synchronous batch. -/
def dbBatch (f : Db → Db) : M Unit := fun w =>
  let land (w : World) : World := { w with disk := { w.disk with db := f w.disk.db } }
  let w' := { w with tick := w.tick + 1 }
  match env.batch w.tick with
  | .returns => (.ok (), { land w' with db := f w.db })
  | .raises landed => (.error .levelDb, if landed then land w' else w')
  | .stops landed => (.error .stop, if landed then land w' else w')

def clock : M ℚ := ask fun n => .ok (env.clock n)

def uniform : M ℚ := ask fun n => .ok (env.uniform n)

/-- `fsync_dir`: the directory is opened and synced. -/
def fsyncDir : M Unit := do
  fileCall env
  fileCall env

/-- `except Exception` around `m`: everything but the end of the process is caught. -/
def guarded {α : Type} (m : M α) (handler : Exc → M α) : M α :=
  Prog.handle m fun
    | .stop => none
    | .systemExit => none
    | e => some (handler e)

end Calls

end OtsServer.Service
