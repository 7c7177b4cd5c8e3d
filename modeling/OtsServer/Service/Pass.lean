import OtsServer.Service.Receipts
import OtsServer.Service.Blocks
import Mathlib.Data.Rat.Floor

/-!
# The stamper's loop

One round of `Stamper.__loop`: a fill pass, which scans the journal into the pending
commitments, and a pass of `__do_bitcoin`, which reads the new blocks, saves the trees
that are deep enough and sends the next version of the anchor. Amounts are satoshis,
feerates and times are rationals.
-/

namespace OtsServer.Service

/-! ## Block timestamps -/

/-- `serialized.index(digest)`. -/
def indexOf (digest : Bytes) : Bytes → Option Nat
  | [] => if digest = [] then some 0 else none
  | c :: rest => if digest.isPrefixOf (c :: rest) then some 0 else (indexOf digest rest).map (· + 1)

/-- The next level of a block's merkle tree, an even number of digests. -/
def catPairs (lib : Lib) : List Bytes → Except Exc (List Bytes)
  | a :: b :: rest => do
      let digest ← lib.catSha256d a b
      let level ← catPairs lib rest
      pure (digest :: level)
  | _ => pure []

/-- `make_btc_block_merkle_tree` in at most `n` levels: an odd last digest is doubled. -/
def makeBtcBlockMerkleTree (lib : Lib) : Nat → List Bytes → Except Exc Bytes
  | _, [] => .error .assertionError
  | _, [digest] => .ok digest
  | 0, _ => .error .assertionError
  | n + 1, digests => do
      let level ← catPairs lib
        (if digests.length % 2 ≠ 0 then digests ++ digests.getLast?.toList else digests)
      makeBtcBlockMerkleTree lib n level

/-- `make_timestamp_from_block_tx`: the path from the tip to the block's merkle root exists. -/
def makeTimestampFromBlockTx (lib : Lib) (confirmed : UnconfirmedTimestampTx) (block : Block) :
    Except Exc Unit := do
  let serialized := lib.serialize confirmed.tx
  match indexOf confirmed.tip serialized with
  | none => .error .assertionError
  | some i => do
      let txid ← lib.catSha256d (serialized.take i ++ confirmed.tip)
        (serialized.drop (i + confirmed.tip.length))
      if lib.txid confirmed.tx ≠ txid then .error .assertionError
      else do
        let root ← makeBtcBlockMerkleTree lib block.vtx.length (block.vtx.map lib.txid)
        if root ≠ block.hashMerkleRoot then .error .assertionError else pure ()

/-! ## Fill pass -/

/-- `OrderedSet.add`. -/
def addPending (pending : List Bytes) (commitment : Bytes) : List Bytes :=
  if commitment ∈ pending then pending else pending ++ [commitment]

/-- `commitment_idxs.setdefault`. -/
def setDefault (idxs : AList fun _ : Bytes => Nat) (commitment : Bytes) (idx : Nat) :
    AList fun _ : Bytes => Nat :=
  if commitment ∈ idxs then idxs else idxs.insert commitment idx

section Fill

variable (env : Env)

/-- An entry that the database does not hold joins the pending commitments. -/
def takeEntry (commitment : Bytes) (idx : Nat) : M Unit := do
  modifyStamper fun s => { s with
    pendingCommitments := addPending s.pendingCommitments commitment
    commitmentIdxs := setDefault s.commitmentIdxs commitment idx }
  let on ← Prog.gets (·.stamper.config.receiptsOn)
  if on then do
    let count ← getCount env idx
    match count with
    | none => pure ()
    | some count => modifyStamper fun s => { s with
        commitmentRecords := s.commitmentRecords.insert commitment count }
  else pure ()

/-- A round of the scan; `none` of the journal is its end. -/
def scanEntry : M (Unit ⊕ Unit) := do
  let s ← Prog.gets (·.stamper)
  if s.pendingCommitments.length < s.config.maxPending then do
    fileCall env
    let journal ← Prog.gets (·.disk.journal)
    match journalEntry journal s.scanIdx with
    | none => pure (.inr ())
    | some commitment => do
        let held ← dbContains env (.commitment commitment)
        if held then pure () else takeEntry env commitment s.scanIdx
        modifyStamper fun s => { s with scanIdx := s.scanIdx + 1 }
        pure (.inl ())
  else pure (.inr ())

/-- The fill pass: a read that fails ends it, and the cursor is where it ended. -/
def fill : M Unit := do
  let rounds ← Prog.gets fun w => journalEntries w.disk.journal + 1
  guarded (Prog.loop (fun _ : Unit => scanEntry env) (fun _ => pure ()) rounds ()) fun _ => pure ()
  modifyStamper fun s => { s with journalCursor := some s.scanIdx }

end Fill

/-! ## Saving mature trees -/

/-- `__checkpoint_after`. -/
def checkpointAfter (s : Stamper) (confirmed : TimestampTx) : Option Nat :=
  let remaining := s.commitmentIdxs.entries.filter fun e => e.1 ∉ confirmed.commitments
  match (remaining.map (·.2)).min? with
  | some idx => some idx
  | none => s.journalCursor

section Save

variable (env : Env)

/-- `__write_journal_checkpoint`. -/
def writeJournalCheckpoint (idx : Option Nat) : M Unit := do
  let db ← Prog.gets (·.db)
  match idx, db.generation with
  | some idx, some generation => guarded (writeCheckpoint env idx generation) fun _ => pure ()
  | _, _ => pure ()

/-- A saved tree goes, with the record counts and indexes of its commitments. -/
def release (height : Int) (confirmed : TimestampTx) (s : Stamper) : Stamper :=
  { s with
    txsWaitingForConfirmation := s.txsWaitingForConfirmation.erase height
    commitmentRecords := confirmed.commitments.foldl (fun m c => m.erase c) s.commitmentRecords
    commitmentIdxs := confirmed.commitments.foldl (fun m c => m.erase c) s.commitmentIdxs }

/-- One tree of `__save_mature_trees`; one whose save raises stays. -/
def saveTree (height : Int) : M Unit := do
  let s ← Prog.gets (·.stamper)
  match s.txsWaitingForConfirmation.lookup height with
  | none => Prog.raise .keyError
  | some confirmed => do
      let watermark := checkpointAfter s confirmed
      note fun h => { h with
        handed := h.handed ++
          [⟨height, h.blockAt.lookup height, h.discovery, s.config.minConfirmations⟩] }
      let saved ← guarded (do
          saveConfirmedTimestampTx env confirmed watermark
          pure true) fun _ => pure false
      if saved then do
        modifyStamper (release height confirmed)
        writeJournalCheckpoint env watermark
      else pure ()

/-- `__save_mature_trees`. -/
def saveMatureTrees (bestHeight : Int) : M Unit := do
  let s ← Prog.gets (·.stamper)
  let due := s.txsWaitingForConfirmation.keys.filter fun height =>
    height ≤ bestHeight - s.config.minConfirmations + 1
  Prog.forEach (saveTree env) (due.insertionSort (· ≤ ·))

end Save

/-! ## Reading blocks -/

section Read

variable (env : Env)

/-- A new timestamp transaction is due an interval from now, made random by up to as much. -/
def schedule : M Unit := do
  let now ← clock env
  let factor ← uniform env
  modifyStamper fun s => { s with nextTimestampTx := now + s.config.minTxInterval * factor }

/-- A tree that waits at the height of a block to be read was replaced: its commitments are
pending again. -/
def requeue (height : Int) : M Unit :=
  modifyStamper fun s =>
    match s.txsWaitingForConfirmation.lookup height with
    | none => s
    | some reorged => { s with
        txsWaitingForConfirmation := s.txsWaitingForConfirmation.erase height
        pendingCommitments := reorged.commitments.foldl addPending s.pendingCommitments }

/-- The body of a block; `none` when the node does not have it any more. -/
def fetchBlock (hash : Bytes) : M (Option Block) := do
  let patience ← Prog.gets fun w => env.patience w.tick
  Prog.loop (fun _ : Unit => Prog.handle (do
      let block ← ask fun n => env.getblock n hash
      pure (.inr (some block)))
    fun
    | .keyError => some (pure (.inr none))
    | .brokenPipe => some do
        ask env.makeProxy
        pure (.inl ())
    | _ => none)
    (fun _ => Prog.raise .stop) patience ()

/-- An unconfirmed transaction was found in a block: its commitments wait at the block's height,
and every unconfirmed transaction goes. -/
def confirmTx (block : Block) (height : Int) (hash : Bytes) (unconfirmed : UnconfirmedTimestampTx) :
    M Unit := do
  Prog.ofExcept (makeTimestampFromBlockTx env.lib unconfirmed block)
  let s ← Prog.gets (·.toState)
  let commitments := s.stamper.pendingCommitments.take unconfirmed.n
  if env.lib.merkleTip commitments ≠ unconfirmed.tip then Prog.raise .assertionError
  else do
    let txid := env.lib.txid unconfirmed.tx
    let again := s.db.keys.contains (.txid txid) ||
      s.stamper.txsWaitingForConfirmation.entries.any fun e => env.lib.txid e.2.tx = txid
    let mined : TimestampTx :=
      { tx := unconfirmed.tx
        tip := unconfirmed.tip
        commitments := commitments
        fee := unconfirmed.fee
        height := height
        records := unconfirmed.records }
    modifyStamper fun s => { s with
      pendingCommitments := s.pendingCommitments.drop unconfirmed.n
      txsWaitingForConfirmation := s.txsWaitingForConfirmation.insert height mined
      unconfirmedTxs := [] }
    note fun h => { h with
      mined := h.mined ++ [⟨txid, commitments, again⟩]
      blockAt := h.blockAt.insert height hash }
    schedule env

/-- The block at the head of the queue; `false` ends the pass. -/
def processBlock (known : KnownBlock) : M Bool := do
  requeue known.height
  let block ← fetchBlock env known.hash
  match block with
  | none => pure false
  | some block => do
      let unconfirmed ← Prog.gets (·.stamper.unconfirmedTxs)
      let txids := block.vtx.map env.lib.txid
      match unconfirmed.reverse.find? fun u => txids.contains (env.lib.txid u.tx) with
      | none => pure true
      | some u => do
          confirmTx env block known.height known.hash u
          pure true

/-- The loop over the queue of blocks; `false` ends the pass. -/
def processBlocks : M Bool := do
  let rounds ← Prog.gets fun w => w.stamper.unprocessedBlocks.length + 1
  Prog.loop (fun _ : Unit => do
      let queue ← Prog.gets (·.stamper.unprocessedBlocks)
      match queue with
      | [] => pure (.inr true)
      | known :: rest => do
          let done ← processBlock env known
          if done then do
            modifyStamper fun s => { s with unprocessedBlocks := rest }
            pure (.inl ())
          else pure (.inr false))
    (fun _ => pure true) rounds ()

/-- New blocks join the queue; a queued block at or above the first of them was replaced. -/
def queueBlocks (new : List KnownBlock) (queue : List KnownBlock) : List KnownBlock :=
  match new with
  | [] => queue
  | fork :: _ => queue.filter (fun b => b.height < fork.height) ++ new

end Read

/-! ## Sending -/

def dust : Int := 330

/-- `int` of a number. -/
def truncate (q : ℚ) : Int := if q < 0 then ⌈q⌉ else ⌊q⌋

section Send

variable (env : Env)

def sortFilterUnspent (unspent : List Unspent) : List Unspent :=
  (unspent.filter fun u => u.amount > dust && u.spendable).insertionSort fun a b =>
    a.amount ≤ b.amount

/-- The confirmed output that an unconfirmed timestamp transaction spends, if `unspent` is its
change. -/
def replaceable (unspent : Unspent) : M (Option (OutPoint × Int)) := do
  let tx ← ask fun n => env.getrawtransaction n unspent.outpoint.hash
  match tx.vin, tx.vout with
  | [txin], [_, _] =>
      Prog.handle (do
          let value ← ask fun n => env.gettxout n txin.prevout
          ask fun n => env.gettransaction n txin.prevout.hash
          pure (some (txin.prevout, value)))
        fun
        | .indexError => some (pure none)
        | _ => none
  | _, _ => pure none

/-- `find_unspent`, the smallest output first. -/
def findUnspent : M (List (OutPoint × Int)) := do
  let listed ← ask fun n => env.listunspent n 1 999999
  let unspent := sortFilterUnspent listed
  if unspent ≠ [] then pure (unspent.map fun u => (u.outpoint, u.amount))
  else do
    let listed ← ask fun n => env.listunspent n 0 1
    let confirmed ← Prog.loop (fun (r : List Unspent × List (OutPoint × Int)) =>
        match r.1 with
        | [] => pure (.inr r.2)
        | unspent :: rest => do
            let found ← replaceable env unspent
            pure (.inl (rest, r.2 ++ found.toList)))
      (fun r => pure r.2) ((sortFilterUnspent listed).length + 1) (sortFilterUnspent listed, [])
    pure (confirmed.insertionSort fun a b => a.2 ≤ b.2)

def newTimestampTxTemplate (outpoint : OutPoint) (value : Int) (change : Bytes) : Tx :=
  { vin := [⟨outpoint, [], 0xfffffffe⟩]
    vout := [⟨value, .raw change⟩, ⟨-1, .opReturn (List.replicate 32 0)⟩]
    nLockTime := 0
    witness := [] }

/-- `__update_timestamp_tx`. -/
def updateTimestampTx (lib : Lib) (old : Tx) (commitment : Bytes) (minBlockHeight : Int)
    (relayFeerate : ℚ) : Except Exc Tx :=
  let weight := (lib.serialize old).length * 3 + lib.totalSize old
  let deltaFee := truncate (((weight + 3 : Nat) : ℚ) / 4 * relayFeerate)
  match old.vout with
  | [] => .error .indexError
  | change :: _ =>
      let stamp : TxOut := ⟨0, .opReturn commitment⟩
      .ok
        { vin := old.vin
          vout :=
            if change.nValue - deltaFee > dust then
              [⟨change.nValue - deltaFee, change.scriptPubKey⟩, stamp]
            else [stamp]
          nLockTime := minBlockHeight
          witness := [] }

/-- `_get_tx_fee`; `none` when an input is no confirmed unspent output. -/
def getTxFee (tx : Tx) : M (Option Int) :=
  Prog.handle (do
      let value ← Prog.loop (fun (r : List TxIn × Int) =>
          match r.1 with
          | [] => pure (.inr r.2)
          | txin :: rest => do
              let value ← ask fun n => env.gettxout n txin.prevout
              pure (.inl (rest, r.2 + value)))
        (fun r => pure r.2) (tx.vin.length + 1) (tx.vin, 0)
      pure (some (value - (tx.vout.map (·.nValue)).sum)))
    fun
    | .indexError => some (pure none)
    | _ => none

/-- A step of `__count_tree_records`: a count the scan missed is read again. -/
def countCommitment (commitment : Bytes) : M Nat := do
  let s ← Prog.gets (·.stamper)
  match s.commitmentRecords.lookup commitment with
  | some count => pure count
  | none =>
      match s.commitmentIdxs.lookup commitment with
      | none => pure 0
      | some idx => do
          let count ← getCount env idx
          match count with
          | none => pure 0
          | some count => do
              modifyStamper fun s => { s with
                commitmentRecords := s.commitmentRecords.insert commitment count }
              pure count

/-- `__count_tree_records`: a missing count is none. -/
def countTreeRecords : List Bytes → M Nat
  | [] => pure 0
  | commitment :: rest => do
      let count ← countCommitment env commitment
      let records ← countTreeRecords rest
      pure (count + records)

/-- The first transaction of a cycle: the signed template and the feerate to start from. -/
def openCycle : M (Option (Tx × ℚ)) := do
  let unspent ← findUnspent env
  match unspent.getLast? with
  | none => pure none
  | some (outpoint, amount) => do
      let change ← ask env.changeScript
      let (complete, tx) ← ask fun n =>
        env.signrawtransactionwithwallet n (newTimestampTxTemplate outpoint amount change)
      if ¬complete then pure none
      else do
        let estimate ← ask env.estimatesmartfee
        let relay ← Prog.gets (·.stamper.config.relayFeerate)
        pure (some (tx, match estimate with
          | some feerate => feerate * 100000000 / 1000
          | none => relay))

/-- The transaction to replace or to start from, and the feerate of the next version. -/
def previousTx : M (Option (Tx × ℚ)) := do
  let s ← Prog.gets (·.stamper)
  match s.unconfirmedTxs.getLast? with
  | some last => pure (some (last.tx, s.config.relayFeerate))
  | none => openCycle env

/-- The node refused for too low a fee: the feerate is raised, unless the fee is the input's whole
value already. -/
def refused (unsigned : Tx) (attempt : OutPoint × Int × Option Bytes) (next : ℚ) :
    M (ℚ ⊕ Option (Tx × Int)) :=
  if unsigned.vout.length = 1 then do
    modifyStamper fun s => { s with refusedAnchor := some attempt }
    pure (.inr none)
  else pure (.inl (next * (5 / 4)))

/-- A round of the sending loop at a feerate: what is sent and its fee, or `none` when the pass
ends without. -/
def trySend (prev : Tx) (tip : Bytes) (feerate next : ℚ) : M (ℚ ⊕ Option (Tx × Int)) := do
  let height ← ask env.getblockcount
  let unsigned ← Prog.ofExcept (updateTimestampTx env.lib prev tip height feerate)
  let fee ← getTxFee env unsigned
  match fee with
  | none => do
      -- the input is spent or gone: the cycle is dead, the commitments stay pending
      modifyStamper fun s => { s with unconfirmedTxs := [] }
      pure (.inr none)
  | some fee => do
      let s ← Prog.gets (·.stamper)
      if fee > s.config.maxFee then pure (.inr none)
      else
        match unsigned.vin.head? with
        | none => Prog.raise .indexError
        | some txin =>
            let attempt := (txin.prevout, fee, bestBlockHash s)
            if s.refusedAnchor = some attempt then pure (.inr none)
            else do
              let (complete, signed) ← ask fun n => env.signrawtransactionwithwallet n unsigned
              if ¬complete then pure (.inr none)
              else
                Prog.handle (do
                    ask fun n => env.sendrawtransaction n signed
                    pure (.inr (some (signed, fee))))
                  fun
                  | .rpcError (-26) => some (refused unsigned attempt next)
                  | _ => none

/-- The sending loop: after the first attempt the feerate is reset to the relay's, and each
refusal for too low a fee raises it. -/
def sendLoop (prev : Tx) (tip : Bytes) (feerate : ℚ) : M (Option (Tx × Int)) := do
  let patience ← Prog.gets fun w => env.patience w.tick
  let relay ← Prog.gets (·.stamper.config.relayFeerate)
  let first ← trySend env prev tip feerate relay
  match first with
  | .inr sent => pure sent
  | .inl feerate =>
      Prog.loop (fun feerate => trySend env prev tip feerate feerate)
        (fun _ => Prog.raise .stop) patience feerate

/-- The next version of the anchor, over every pending commitment. -/
def sendAnchor : M Unit := do
  let prev ← previousTx env
  match prev with
  | none => pure ()
  | some (prev, feerate) => do
      let s ← Prog.gets (·.stamper)
      let commitments := s.pendingCommitments
      let tip := env.lib.merkleTip commitments
      let records ← if s.config.receiptsOn then countTreeRecords env commitments else pure 0
      ask env.makeProxy
      let sent ← sendLoop env prev tip feerate
      match sent with
      | none => pure ()
      | some (tx, fee) =>
          modifyStamper fun s => { s with
            refusedAnchor := none
            unconfirmedTxs := s.unconfirmedTxs ++ [⟨tx, tip, commitments.length, fee, records⟩] }

end Send

/-! ## A pass -/

section Pass

variable (env : Env)

/-- The end of a pass: the anchor is sent when it is due and something is pending. -/
def anchorWhenDue : M Unit := do
  let s ← Prog.gets (·.stamper)
  let now ← clock env
  if s.nextTimestampTx - now > 0 then pure ()
  else if s.pendingCommitments = [] then
    if s.unconfirmedTxs = [] then schedule env else pure ()
  else sendAnchor env

/-- `__do_bitcoin`. -/
def doBitcoin : M Unit := do
  ask env.makeProxy
  let new ← updateFromProxy env
  let s ← Prog.gets (·.stamper)
  let bestHeight := match new.getLast? with
    | some block => block.height
    | none => bestBlockHeight s
  modifyStamper fun s => { s with unprocessedBlocks := queueBlocks new s.unprocessedBlocks }
  let done ← processBlocks env
  if ¬done then pure ()
  else do
    saveMatureTrees env bestHeight
    let s ← Prog.gets (·.stamper)
    if new = [] ∧ s.unconfirmedTxs ≠ [] then pure () else anchorWhenDue env

/-- A pass as the loop makes it: whatever it raises is logged. -/
def pass : M Unit := guarded (doBitcoin env) fun _ => pure ()

end Pass

/-! ## Asking -/

/-- The search of `is_pending` through the journal from an index on, until its end. -/
def inJournalFrom (journal commitment : Bytes) : Nat → Nat → Bool
  | 0, _ => false
  | n + 1, idx =>
      match journalEntry journal idx with
      | none => false
      | some recent => recent = commitment || inJournalFrom journal commitment n (idx + 1)

def pendingReason : Text := "Pending confirmation in Bitcoin blockchain".toList

def waitingReason (lib : Lib) (s : Stamper) (tree : TimestampTx) : Text :=
  "Timestamped by transaction ".toList ++ txidText (lib.txid tree.tx) ++ "; waiting for ".toList ++
    decimal s.config.minConfirmations.toNat ++ " confirmations".toList

/-- `is_pending`: the reason a commitment is waiting to be stamped, if it is. The trees are asked
in the order in which they were put. -/
def isPending (lib : Lib) (s : State) (commitment : Bytes) : Option Text :=
  if commitment ∈ s.stamper.pendingCommitments then some pendingReason
  else if s.stamper.journalCursor.any fun idx =>
      inJournalFrom s.disk.journal commitment (journalEntries s.disk.journal + 1) idx then
    some pendingReason
  else
    (s.stamper.txsWaitingForConfirmation.entries.reverse.find? fun e =>
      commitment ∈ e.2.commitments).map fun e => waitingReason lib s.stamper e.2

end OtsServer.Service
