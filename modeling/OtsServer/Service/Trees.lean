import OtsServer.Service.Departure
import OtsServer.Service.Moves

/-!
# The trees of a process

What decides which commitments are pending, which trees wait and in which blocks they were
found: the pending commitments, the versions that were broadcast, the waiting trees, the
blocks that are known and those that are to be read. Most of the code never touches any of
it. What does is the scan, which adds pending commitments, the discovery, the reading of a block,
the save of a tree, and the broadcast of a version.
-/

namespace OtsServer.Service

structure Trees where
  pending : List Bytes
  unconfirmed : List UnconfirmedTimestampTx
  waiting : AList fun _ : Int => TimestampTx
  known : List KnownBlock
  queue : List KnownBlock
  config : Config
  blockAt : AList fun _ : Int => Bytes
  discovery : Nat
  handed : List Handed

def World.trees (w : World) : Trees :=
  { pending := w.stamper.pendingCommitments
    unconfirmed := w.stamper.unconfirmedTxs
    waiting := w.stamper.txsWaitingForConfirmation
    known := w.stamper.knownBlocks
    queue := w.stamper.unprocessedBlocks
    config := w.stamper.config
    blockAt := w.history.blockAt
    discovery := w.history.discovery
    handed := w.history.handed }

/-- Calls may have been made; the trees are as they were. -/
structure Spares (w w' : World) : Prop where
  tick : w.tick ≤ w'.tick
  trees : w'.trees = w.trees

/-- A property that only the trees and the time can end. -/
def OfTrees (I : World → Prop) : Prop := ∀ w w', Spares w w' → I w → I w'

theorem OfTrees.of {P : Trees → Prop} : OfTrees fun w => P w.trees := by
  intro w w' h hw
  rwa [h.trees]

/-! ## What leaves the trees alone -/

section Keeps

variable {env : Env} {I : World → Prop} {α : Type}

theorem OfTrees.ask (hI : OfTrees I) (f : Nat → Except Exc α) : Prog.Keeps I (ask f) := by
  intro w hw
  have hleft : I { w with tick := w.tick + 1 } := hI w _ ⟨Nat.le_succ _, rfl⟩ hw
  rw [Prog.wp, Service.ask]
  cases f w.tick <;> exact hleft

theorem OfTrees.modify (hI : OfTrees I) {f : World → World} (hf : ∀ w, Spares w (f w)) :
    Prog.Keeps I (Prog.modify f : M Unit) :=
  .modify fun w hw => hI w (f w) (hf w) hw

theorem OfTrees.note (hI : OfTrees I) {f : History → History}
    (hf : ∀ w : World, { w with history := f w.history }.trees = w.trees) : Prog.Keeps I (note f) :=
  hI.modify fun w => ⟨le_refl _, hf w⟩

theorem OfTrees.modifyDisk (hI : OfTrees I) (f : Disk → Disk) : Prog.Keeps I (modifyDisk f) :=
  hI.modify fun _ => ⟨le_refl _, rfl⟩

theorem OfTrees.modifyStamper (hI : OfTrees I) {f : Stamper → Stamper}
    (hf : ∀ w : World, { w with stamper := f w.stamper }.trees = w.trees) :
    Prog.Keeps I (modifyStamper f) :=
  hI.modify fun w => ⟨le_refl _, hf w⟩

theorem OfTrees.fileCall (hI : OfTrees I) : Prog.Keeps I (fileCall env) := hI.ask _

theorem OfTrees.fileEffect (hI : OfTrees I) (f : Disk → Disk) : Prog.Keeps I (fileEffect env f) :=
  .bind hI.fileCall fun _ => hI.modifyDisk f

theorem OfTrees.fsyncDir (hI : OfTrees I) : Prog.Keeps I (fsyncDir env) :=
  .bind hI.fileCall fun _ => hI.fileCall

theorem OfTrees.osWrite (hI : OfTrees I) (put : Bytes → Disk → Disk) (data : Bytes) :
    Prog.Keeps I (osWrite env put data) := by
  intro w hw
  have hleft : ∀ disk, I { w with tick := w.tick + 1, disk := disk } := fun _ =>
    hI w _ ⟨Nat.le_succ _, rfl⟩ hw
  rw [Prog.wp, Service.osWrite]
  cases env.write w.tick <;> exact hleft _

theorem OfTrees.writeAll (hI : OfTrees I) (put : Bytes → Disk → Disk) (data : Bytes) :
    Prog.Keeps I (writeAll env put data) := by
  refine .loop (fun view => .ite (fun _ => .pure _) fun _ => ?_) (fun _ => .pure _) _ _
  exact .bind (hI.osWrite put view) fun n => .ite (fun _ => .raise _) fun _ => .pure _

theorem OfTrees.dbRead (hI : OfTrees I) : Prog.Keeps I (dbRead env) := hI.ask _

theorem OfTrees.dbContains (hI : OfTrees I) (key : Key) : Prog.Keeps I (dbContains env key) :=
  .bind hI.dbRead fun _ => .gets _

theorem OfTrees.dbBatch (hI : OfTrees I) (f : Db → Db) : Prog.Keeps I (dbBatch env f) := by
  intro w hw
  have hleft : ∀ disk db, I { w with tick := w.tick + 1, disk := disk, db := db } := fun _ _ =>
    hI w _ ⟨Nat.le_succ _, rfl⟩ hw
  rw [Prog.wp, Service.dbBatch]
  cases env.batch w.tick with
  | returns => exact hleft _ _
  | raises landed => cases landed <;> exact hleft _ _
  | stops landed => cases landed <;> exact hleft _ _

theorem OfTrees.flushJournal (hI : OfTrees I) : Prog.Keeps I (flushJournal env) := by
  refine .bind (.gets _) fun buffered =>
    .loop (fun _ => .bind (.gets _) fun buffer => ?_) (fun _ => .pure _) _ _
  refine .ite (fun _ => .pure _) fun _ => .bind (hI.osWrite _ _) fun n => ?_
  exact .bind (hI.modify fun _ => ⟨le_refl _, rfl⟩) fun _ =>
    .ite (fun _ => .raise _) fun _ => .pure _

theorem OfTrees.appendEntry (hI : OfTrees I) (commitment : Bytes) (records : Option Nat) :
    Prog.Keeps I (appendEntry env commitment records) := by
  refine .bind (hI.modify fun _ => ⟨le_refl _, rfl⟩) fun _ => ?_
  split
  · exact .raise _
  · refine .bind (.gets _) fun size => .ite (fun _ => .raise _) fun _ =>
      .ite (fun _ => .raise _) fun _ => ?_
    refine .bind (hI.note fun _ => rfl) fun _ =>
      .bind (hI.modify fun _ => ⟨le_refl _, rfl⟩) fun _ => ?_
    exact .bind hI.flushJournal fun _ => .bind hI.fileCall fun _ => hI.modify fun _ =>
      ⟨le_refl _, rfl⟩

theorem OfTrees.writeCount (hI : OfTrees I) : Prog.Keeps I (writeCount env) := by
  refine .bind (.gets _) fun owed => ?_
  split
  · exact .pure _
  · refine .bind (keeps_guarded ?_ fun _ => .pure _) fun _ => hI.modify fun _ => ⟨le_refl _, rfl⟩
    exact .ite (fun _ => .bind (hI.osWrite _ _) fun _ => hI.fileCall) fun _ => .raise _

theorem OfTrees.getCount (hI : OfTrees I) (idx : Nat) : Prog.Keeps I (getCount env idx) :=
  keeps_guarded (.bind hI.fileCall fun _ => .gets _) fun _ => .pure _

theorem OfTrees.receiptOnFile (hI : OfTrees I) (txid : Bytes) :
    Prog.Keeps I (receiptOnFile env txid) :=
  .bind hI.fileCall fun _ => .bind (.gets _) fun _ => .ofExcept _

theorem OfTrees.recoverReceiptTail (hI : OfTrees I) : Prog.Keeps I (recoverReceiptTail env) := by
  refine .bind hI.fileCall fun _ => .bind (.gets _) fun receipts =>
    .ite (fun _ => .pure _) fun _ => ?_
  refine .bind hI.fileCall fun _ => .ite (fun _ => .pure _) fun _ => .bind ?_ fun keep => ?_
  · refine .loop (fun pos => .ite (fun _ => .pure _) fun _ => ?_) (fun _ => .pure _) _ _
    exact .bind hI.fileCall fun _ => .bind (.gets _) fun _ => .pure _
  · exact .bind (hI.fileEffect _) fun _ => hI.fileCall

theorem OfTrees.appendAnchorReceipt (hI : OfTrees I) (receipt : Receipt) :
    Prog.Keeps I (appendAnchorReceipt env receipt) := by
  refine .bind hI.fileCall fun _ => .bind hI.recoverReceiptTail fun _ =>
    .bind (hI.writeAll _ _) fun _ => ?_
  exact .bind hI.fileCall fun _ => hI.fsyncDir

theorem OfTrees.syncReceipts (hI : OfTrees I) : Prog.Keeps I (syncReceipts env) :=
  .bind hI.fileCall fun _ => .bind hI.fileCall fun _ => hI.fsyncDir

theorem OfTrees.writePendingReceipt (hI : OfTrees I) (receipt : Receipt) :
    Prog.Keeps I (writePendingReceipt env receipt) := by
  refine .bind hI.fileCall fun _ => .bind (hI.writeAll _ _) fun _ => .bind hI.fileCall fun _ => ?_
  exact .bind (hI.fileEffect _) fun _ => hI.fsyncDir

theorem OfTrees.removeMarker (hI : OfTrees I) (name : Bytes) :
    Prog.Keeps I (removeMarker env name) :=
  hI.fileEffect _

theorem OfTrees.settleDue (hI : OfTrees I) (name : Bytes) (receipt : Receipt) :
    Prog.Keeps I (settleDue env name (dueOf env receipt)) := by
  refine .bind (hI.receiptOnFile _) fun onFile => .bind (hI.dbContains _) fun saved =>
    .ite (fun _ => ?_) fun _ => ?_
  · refine .ite (fun _ => .bind hI.syncReceipts fun _ => hI.removeMarker name) fun _ => ?_
    exact .bind (hI.appendAnchorReceipt receipt) fun _ => hI.removeMarker name
  · refine .ite (fun _ => .raise _) fun _ => .bind (hI.removeMarker name) fun _ => ?_
    exact .bind (.gets _) fun _ => hI.note fun _ => rfl

theorem OfTrees.settleMarker (hI : OfTrees I) (name : Bytes) :
    Prog.Keeps I (settleMarker env name) := by
  refine .bind hI.fileCall fun _ => .bind (.gets _) fun markers => ?_
  split
  · exact .raise _
  next body _ =>
    dsimp only
    cases env.lib.codec.bodyReceipt body with
    | ok receipt => exact hI.settleDue name receipt
    | error e => exact .ite (fun _ => hI.removeMarker name) fun _ => .raise e

theorem OfTrees.settlePendingReceipt (hI : OfTrees I) :
    Prog.Keeps I (settlePendingReceipt env) := by
  refine .bind (.gets _) fun on =>
    .ite (fun _ => .bind ?_ fun names => .forEach (fun name => ?_) _) fun _ => .pure _
  · exact .bind hI.fileCall fun _ => .bind (.gets _) fun _ => .pure _
  · refine keeps_guarded (hI.settleMarker name) fun e => ?_
    cases e <;> first | exact .raise _ | exact .pure _

theorem OfTrees.owePendingReceipt (hI : OfTrees I) (confirmed : TimestampTx) :
    Prog.Keeps I (owePendingReceipt env confirmed) := by
  refine .bind (hI.ask _) fun now => .bind hI.settlePendingReceipt fun _ =>
    .bind (.gets _) fun overlap => ?_
  exact .bind (hI.note fun _ => rfl) fun _ => .bind (hI.writePendingReceipt _) fun _ => .pure _

theorem OfTrees.saveTimestamps (hI : OfTrees I) (confirmed : TimestampTx) (watermark : Option Nat) :
    Prog.Keeps I (saveTimestamps env confirmed watermark) := by
  refine .bind (.bind hI.dbRead fun _ => hI.dbBatch _) fun _ => ?_
  split
  · exact .pure _
  · exact .bind (.gets _) fun _ => hI.note fun _ => rfl

theorem OfTrees.writeOwedReceipt (hI : OfTrees I) (receipt : Receipt) :
    Prog.Keeps I (writeOwedReceipt env receipt) := by
  refine .bind (keeps_guarded (.bind (hI.appendAnchorReceipt _) fun _ => .pure _) fun _ =>
      .pure _) fun written => ?_
  refine .ite (fun _ => .handle (hI.removeMarker _) fun e n hn => ?_) fun _ => .pure _
  cases e <;> cases hn
  exact .pure _

theorem OfTrees.saveConfirmedTimestampTx (hI : OfTrees I) (confirmed : TimestampTx)
    (watermark : Option Nat) : Prog.Keeps I (saveConfirmedTimestampTx env confirmed watermark) := by
  refine .bind (.gets _) fun on => .ite (fun _ => ?_) fun _ => hI.saveTimestamps _ _
  exact .bind (hI.owePendingReceipt _) fun _ => .bind (hI.saveTimestamps _ _) fun _ =>
    hI.writeOwedReceipt _

theorem OfTrees.writeJournalCheckpoint (hI : OfTrees I) (idx : Option Nat) :
    Prog.Keeps I (writeJournalCheckpoint env idx) := by
  refine .bind (.gets _) fun db => ?_
  split
  · refine keeps_guarded (.bind hI.fileCall fun _ => .bind hI.fileCall fun _ =>
        .bind hI.fileCall fun _ => ?_) fun _ => .pure _
    exact .bind (hI.fileEffect _) fun _ => hI.fsyncDir
  · exact .pure _

theorem OfTrees.fetchBlock (hI : OfTrees I) (hash : Bytes) :
    Prog.Keeps I (fetchBlock env hash) := by
  refine .bind (.gets _) fun patience => .loop (fun _ => ?_) (fun _ => .raise _) _ _
  refine .handle (.bind (hI.ask _) fun _ => .pure _) fun e n hn => ?_
  cases e <;> cases hn
  · exact .pure _
  · exact .bind (hI.ask _) fun _ => .pure _

theorem OfTrees.replaceable (hI : OfTrees I) (unspent : Unspent) :
    Prog.Keeps I (replaceable env unspent) := by
  refine .bind (hI.ask _) fun tx => ?_
  split
  · refine .handle (.bind (hI.ask _) fun _ => .bind (hI.ask _) fun _ => .pure _) fun e n hn => ?_
    cases e <;> cases hn
    exact .pure _
  · exact .pure _

theorem OfTrees.findUnspent (hI : OfTrees I) : Prog.Keeps I (findUnspent env) := by
  refine .bind (hI.ask _) fun listed => .ite (fun _ => .pure _) fun _ => ?_
  refine .bind (hI.ask _) fun _ =>
    .bind (.loop (fun r => ?_) (fun _ => .pure _) _ _) fun _ => .pure _
  split
  · exact .pure _
  · exact .bind (hI.replaceable _) fun _ => .pure _

theorem OfTrees.previousTx (hI : OfTrees I) : Prog.Keeps I (previousTx env) := by
  refine .bind (.gets _) fun s => ?_
  split
  · exact .pure _
  · refine .bind hI.findUnspent fun unspent => ?_
    split
    · exact .pure _
    · refine .bind (hI.ask _) fun _ => .bind (hI.ask _) fun r => .ite (fun _ => .pure _) fun _ => ?_
      exact .bind (hI.ask _) fun _ => .bind (.gets _) fun _ => .pure _

theorem OfTrees.getTxFee (hI : OfTrees I) (tx : Tx) : Prog.Keeps I (getTxFee env tx) := by
  refine .handle (.bind (.loop (fun r => ?_) (fun _ => .pure _) _ _) fun _ =>
      .pure _) fun e n hn => ?_
  · split
    · exact .pure _
    · exact .bind (hI.ask _) fun _ => .pure _
  · cases e <;> cases hn
    exact .pure _

theorem OfTrees.countTreeRecords (hI : OfTrees I) (commitments : List Bytes) :
    Prog.Keeps I (countTreeRecords env commitments) := by
  induction commitments with
  | nil => exact .pure _
  | cons commitment rest ih =>
      refine .bind (.bind (.gets _) fun s => ?_) fun _ => .bind ih fun _ => .pure _
      split
      · exact .pure _
      · split
        · exact .pure _
        · refine .bind (hI.getCount _) fun count => ?_
          split
          · exact .pure _
          · exact .bind (hI.modifyStamper fun _ => rfl) fun _ => .pure _

theorem OfTrees.adoptGeneration (hI : OfTrees I) (watermark : Nat) :
    Prog.Keeps I (adoptGeneration env watermark) :=
  .bind (hI.ask _) fun _ => hI.dbBatch _

theorem OfTrees.openDatabase (hI : OfTrees I) : Prog.Keeps I (openDatabase env) := by
  refine .bind hI.dbRead fun _ => .bind (hI.modify fun _ => ⟨le_refl _, rfl⟩) fun _ =>
    .bind (.gets _) fun db => ?_
  exact .ite (fun _ => hI.adoptGeneration _) fun _ => .pure _

theorem OfTrees.checkCounts (hI : OfTrees I) : Prog.Keeps I (checkCounts env) :=
  .bind hI.fileCall fun _ => .bind (.gets _) fun _ => .ite (fun _ => .raise _) fun _ => .pure _

theorem OfTrees.probeJournal (hI : OfTrees I) (idx : Nat) :
    Prog.Keeps I (probeJournal env idx) := by
  refine .bind hI.fileCall fun _ => .bind (.gets _) fun disk => ?_
  split
  · exact .raise _
  · exact .bind (hI.dbContains _) fun held => .ite (fun _ => .pure _) fun _ => .raise _

theorem OfTrees.checkJournal (hI : OfTrees I) (idx : Nat) :
    Prog.Keeps I (checkJournal env idx) := by
  refine .ite (fun _ => .pure _) fun _ => .bind hI.fileCall fun _ => .bind (.gets _) fun disk => ?_
  exact .ite (fun _ => .raise _) fun _ => .bind (hI.probeJournal _) fun _ => hI.probeJournal _

theorem OfTrees.readCheckpoint (hI : OfTrees I) : Prog.Keeps I (readCheckpoint env) := by
  refine .bind hI.fileCall fun _ => .bind (.gets _) fun text => ?_
  split
  · exact .pure _
  · exact .bind (.ofExcept _) fun _ => .pure _

theorem OfTrees.openCalendar (hI : OfTrees I) : Prog.Keeps I (openCalendar env) := by
  refine .bind hI.openDatabase fun _ => .bind hI.checkCounts fun _ => .bind ?_ fun checkpoint =>
    .bind ?_ fun _ => .pure _
  · refine .bind (keeps_guarded hI.readCheckpoint fun _ => .raise _) fun checkpoint =>
      .bind (.gets _) fun db => ?_
    split
    · exact .bind (hI.adoptGeneration _) fun _ => .pure _
    · exact .pure _
    · exact .raise _
    · exact .raise _
    · refine .ite (fun _ => .raise _) fun _ => .ite (fun _ => .raise _) fun _ => ?_
      exact .bind (hI.checkJournal _) fun _ => .pure _
  · refine .bind hI.fileCall fun _ => .bind (hI.modify fun _ => ⟨le_refl _, rfl⟩) fun _ =>
      .bind (.gets _) fun on => ?_
    exact .ite (fun _ => hI.fileCall) fun _ => .pure _

theorem OfTrees.openStamper (hI : OfTrees I) : Prog.Keeps I (openStamper env) := by
  refine .bind hI.fileCall fun _ =>
    .bind (keeps_guarded hI.settlePendingReceipt fun e => ?_) fun _ => ?_
  · cases e <;> first | exact .raise _ | exact .pure _
  · exact .bind hI.readCheckpoint fun _ => hI.modifyStamper fun _ => rfl

theorem OfTrees.leave (hI : OfTrees I) : Prog.Keeps I (leave env) :=
  .bind (keeps_guarded hI.flushJournal fun _ => .pure _) fun _ => .raise _

theorem OfTrees.schedule (hI : OfTrees I) : Prog.Keeps I (schedule env) :=
  .bind (hI.ask _) fun _ => .bind (hI.ask _) fun _ => hI.modifyStamper fun _ => rfl

/-! ## What does not -/

/-- Commitments became pending, each behind those that were. -/
def Grown (a b : Trees) : Prop :=
  ∃ more : List Bytes, b = { a with pending := more.foldl addPending a.pending }

theorem grown_refl (a : Trees) : Grown a a := ⟨[], rfl⟩

theorem grown_takeEntry (a : Trees) (commitment : Bytes) (idx : Nat) :
    Prog.Keeps (fun w => Grown a w.trees) (takeEntry env commitment idx) := by
  have hI : OfTrees fun w => Grown a w.trees := .of
  refine .bind (.modify fun w hw => ?_) fun _ => .bind (.gets _) fun on => ?_
  · obtain ⟨more, hmore⟩ := hw
    refine ⟨more ++ [commitment], ?_⟩
    rw [List.foldl_append, List.foldl_cons, List.foldl_nil]
    have hpending : w.stamper.pendingCommitments = more.foldl addPending a.pending :=
      congrArg Trees.pending hmore
    rw [← hpending]
    exact congrArg (fun t : Trees =>
        { t with pending := addPending w.stamper.pendingCommitments commitment }) hmore
  · refine .ite (fun _ => .bind (hI.getCount idx) fun count => ?_) fun _ => .pure _
    split
    · exact .pure _
    · exact hI.modifyStamper fun _ => rfl

theorem grown_fill (a : Trees) : Prog.Keeps (fun w => Grown a w.trees) (fill env) := by
  have hI : OfTrees fun w => Grown a w.trees := .of
  refine .bind (.gets _) fun rounds => .bind (keeps_guarded ?_ fun _ => .pure _) fun _ =>
    hI.modifyStamper fun _ => rfl
  refine .loop (fun _ => .bind (.gets _) fun s => .ite (fun _ => ?_) fun _ => .pure _)
    (fun _ => .pure _) _ _
  refine .bind hI.fileCall fun _ => .bind (.gets _) fun journal => ?_
  split
  · exact .pure _
  · refine .bind (hI.dbContains _) fun held => .ite (fun _ => ?_) fun _ =>
      .bind (grown_takeEntry a _ _) fun _ => ?_
    · exact .bind (hI.modifyStamper fun _ => rfl) fun _ => .pure _
    · exact .bind (hI.modifyStamper fun _ => rfl) fun _ => .pure _

/-- The versions that were broadcast stay or are given up together. -/
def Abandons (a b : Trees) : Prop := b = a ∨ b = { a with unconfirmed := [] }

theorem abandons_trySend (a : Trees) (prev : Tx) (tip : Bytes) (feerate next : ℚ) :
    Prog.Keeps (fun w => Abandons a w.trees) (trySend env prev tip feerate next) := by
  have hI : OfTrees fun w => Abandons a w.trees := .of
  refine .bind (hI.ask _) fun height => .bind (.ofExcept _) fun unsigned =>
    .bind (hI.getTxFee _) fun fee => ?_
  split
  · refine .bind (.modify fun w hw => .inr ?_) fun _ => .pure _
    obtain heq | heq := hw
    · exact congrArg (fun t : Trees => { t with unconfirmed := [] }) heq
    · exact congrArg (fun t : Trees => { t with unconfirmed := [] }) heq
  · refine .bind (.gets _) fun s => .ite (fun _ => .pure _) fun _ => ?_
    split
    · exact .raise _
    · refine .ite (fun _ => .pure _) fun _ => .bind (hI.ask _) fun r =>
        .ite (fun _ => .pure _) fun _ => ?_
      refine .handle (.bind (hI.ask _) fun _ => .pure _) fun e n hn => ?_
      split at hn
      · cases hn
        refine .ite (fun _ => ?_) fun _ => .pure _
        exact .bind (hI.modifyStamper fun _ => rfl) fun _ => .pure _
      · cases hn

theorem abandons_sendLoop (a : Trees) (prev : Tx) (tip : Bytes) (feerate : ℚ) :
    Prog.Keeps (fun w => Abandons a w.trees) (sendLoop env prev tip feerate) := by
  refine .bind (.gets _) fun patience => .bind (.gets _) fun relay =>
    .bind (abandons_trySend a _ _ _ _) fun first => ?_
  split
  · exact .pure _
  · exact .loop (fun _ => abandons_trySend a _ _ _ _) (fun _ => .raise _) _ _

/-- A version was broadcast, over every pending commitment. -/
def Broadcast (lib : Lib) (a b : Trees) : Prop :=
  ∃ older tx fee records, Abandons a { a with unconfirmed := older } ∧
    b = { a with
      unconfirmed := older ++ [⟨tx, lib.merkleTip a.pending, a.pending.length, fee, records⟩] }

theorem broadcast_sendAnchor (w : World) :
    Prog.wp (sendAnchor env) (fun _ t => Abandons w.trees t.trees ∨
        Broadcast env.lib w.trees t.trees) (fun _ t => Abandons w.trees t.trees) w := by
  have hI : OfTrees fun t => t.trees = w.trees := .of (P := fun b => b = w.trees)
  have hJ : OfTrees fun t => Abandons w.trees t.trees := .of
  rw [sendAnchor, Prog.wp_bind]
  refine Prog.wp_mono (hI.previousTx w rfl) (fun prev t ht => ?_) fun _ _ ht => .inl ht
  obtain _ | ⟨prev, feerate⟩ := prev
  · exact .inl (.inl ht)
  rw [Prog.wp_bind, Prog.wp_gets]
  have hpending : t.stamper.pendingCommitments = w.stamper.pendingCommitments :=
    congrArg Trees.pending ht
  dsimp only
  rw [hpending]
  -- what is done with the transaction that was sent
  have hend : ∀ records u (rest : Option (Tx × Int) → M Unit), rest none = pure () →
      (∀ tx fee, rest (some (tx, fee)) = modifyStamper fun s => { s with
        refusedAnchor := none
        unconfirmedTxs := s.unconfirmedTxs ++ [⟨tx, env.lib.merkleTip w.stamper.pendingCommitments,
          w.stamper.pendingCommitments.length, fee, records⟩] }) → Abandons w.trees u.trees →
      Prog.wp (do
        ask env.makeProxy
        let sent ← sendLoop env prev (env.lib.merkleTip w.stamper.pendingCommitments) feerate
        rest sent) (fun _ v => Abandons w.trees v.trees ∨ Broadcast env.lib w.trees v.trees)
        (fun _ v => Abandons w.trees v.trees) u := by
    intro records u rest hnone hsome hu
    rw [Prog.wp_bind]
    refine Prog.wp_mono (hJ.ask _ u hu) (fun _ v hv => ?_) fun _ _ h => h
    rw [Prog.wp_bind]
    refine Prog.wp_mono (abandons_sendLoop _ _ _ _ v hv) (fun sent x hx => ?_) fun _ _ h => h
    obtain _ | ⟨tx, fee⟩ := sent
    · rw [hnone]
      exact .inl hx
    · rw [hsome]
      refine .inr ⟨x.stamper.unconfirmedTxs, tx, fee, records, ?_, ?_⟩
      · obtain heq | heq := hx
        · exact .inl (by rw [← heq]; rfl)
        · exact .inr (by
              rw [show x.stamper.unconfirmedTxs = [] from congrArg Trees.unconfirmed heq])
      · have hrest : { x.trees with unconfirmed := [] } = { w.trees with unconfirmed := [] } := by
          obtain heq | heq := hx <;> rw [heq]
        exact congrArg (fun b : Trees => { b with
          unconfirmed :=
            x.stamper.unconfirmedTxs ++ [(⟨tx, env.lib.merkleTip w.stamper.pendingCommitments,
              w.stamper.pendingCommitments.length, fee, records⟩ : UnconfirmedTimestampTx)] }) hrest
  rw [Prog.wp_ite]
  refine ⟨fun _ => ?_, fun _ => ?_⟩
  · rw [Prog.wp_bind]
    refine Prog.wp_mono (hJ.countTreeRecords _ t (.inl ht)) (fun records u hu => ?_) fun _ _ h => h
    exact hend records u _ rfl (fun _ _ => rfl) hu
  · exact hend 0 t _ rfl (fun _ _ => rfl) (.inl ht)

/-- The end of a pass broadcasts a version only when something is pending. -/
theorem broadcast_anchorWhenDue (w : World) :
    Prog.wp (anchorWhenDue env) (fun _ t => Abandons w.trees t.trees ∨
        (w.trees.pending ≠ [] ∧ Broadcast env.lib w.trees t.trees))
      (fun _ t => Abandons w.trees t.trees) w := by
  have hI : OfTrees fun t => t.trees = w.trees := .of (P := fun b => b = w.trees)
  have hschedule : Prog.wp (schedule env)
      (fun _ t => Abandons w.trees t.trees ∨
          (w.trees.pending ≠ [] ∧ Broadcast env.lib w.trees t.trees))
      (fun _ t => Abandons w.trees t.trees) { w with tick := w.tick + 1 } :=
    Prog.wp_mono (hI.schedule _ rfl) (fun _ _ ht => .inl (.inl ht)) fun _ _ ht => .inl ht
  rw [anchorWhenDue, Prog.wp_bind, Prog.wp_gets, Prog.wp_bind, clock, Prog.wp, Service.ask]
  dsimp only
  rw [Prog.wp_ite, Prog.wp_ite, Prog.wp_ite]
  refine ⟨fun _ => .inl (.inl rfl), fun _ =>
    ⟨fun _ => ⟨fun _ => hschedule, fun _ => .inl (.inl rfl)⟩, fun hne => ?_⟩⟩
  exact Prog.wp_mono (broadcast_sendAnchor _) (fun _ t ht => ht.imp_right fun hb =>
      ⟨hne, hb⟩) fun _ _ ht => ht

/-- A tree that is called mature is put in the history, and goes when its save returns. -/
theorem OfTrees.saveTree (hI : OfTrees I) (height : Int)
    (hhand : ∀ w tree, w.stamper.txsWaitingForConfirmation.lookup height = some tree → I w →
      I { w with history := { w.history with
        handed := w.history.handed ++ [⟨height, w.history.blockAt.lookup height,
          w.history.discovery, w.stamper.config.minConfirmations⟩] } })
    (hrelease : ∀ w tree, I w → I { w with stamper := release height tree w.stamper }) :
    Prog.Keeps I (saveTree env height) := by
  intro w hw
  rw [Service.saveTree, Prog.wp_bind, Prog.wp_gets]
  cases hwaits : w.stamper.txsWaitingForConfirmation.lookup height with
  | none => exact hw
  | some confirmed =>
      have hrest : Prog.Keeps I (guarded (do
          Service.saveConfirmedTimestampTx env confirmed (checkpointAfter w.stamper confirmed)
          pure true) (fun _ => pure false) >>= fun saved => if saved = true then do
            Service.modifyStamper (release height confirmed)
            Service.writeJournalCheckpoint env (checkpointAfter w.stamper confirmed)
          else pure ()) := by
        refine .bind (keeps_guarded (.bind (hI.saveConfirmedTimestampTx _ _) fun _ =>
              .pure _) fun _ => .pure _) fun saved => ?_
        refine .ite (fun _ => .bind (.modify fun t ht => hrelease t confirmed ht) fun _ =>
            ?_) fun _ => .pure _
        exact hI.writeJournalCheckpoint _
      exact hrest _ (hhand w confirmed hwaits hw)

theorem OfTrees.confirmTx (hI : OfTrees I) {block : Block}
    {height : Int} {hash : Bytes} {u : UnconfirmedTimestampTx}
    (hconfirm : ∀ w, I w → I { w with toState := w.toState.confirm env.lib height hash u }) :
    Prog.Keeps I (confirmTx env block height hash u) := by
  refine .bind (.ofExcept _) fun _ w hw => ?_
  rw [Prog.wp_bind, Prog.wp_gets, Prog.wp_ite]
  exact ⟨fun _ => hw, fun _ => hI.schedule _ (hconfirm w hw)⟩

/-- A block, once the tree that waits at its height was put back. -/
theorem OfTrees.processBlock (hI : OfTrees I) {known : KnownBlock} (hconfirm : ∀ w u, I w →
      I { w with toState := w.toState.confirm env.lib known.height known.hash u }) {w : World}
    (hrequeue : Prog.wp (requeue known.height) (fun _ => I) (fun _ => I) w) :
    Prog.wp (processBlock env known) (fun _ => I) (fun _ => I) w := by
  rw [Service.processBlock, Prog.wp_bind]
  refine Prog.wp_mono hrequeue (fun _ t ht => ?_) fun _ _ h => h
  rw [Prog.wp_bind]
  refine Prog.wp_mono (hI.fetchBlock known.hash t ht) (fun block u hu => ?_) fun _ _ h => h
  cases block with
  | none => exact hu
  | some block =>
      dsimp only
      rw [Prog.wp_bind, Prog.wp_gets]
      cases u.stamper.unconfirmedTxs.reverse.find? fun u =>
          (block.vtx.map env.lib.txid).contains (env.lib.txid u.tx) with
      | none => exact hu
      | some found =>
          dsimp only
          rw [Prog.wp_bind]
          exact hI.confirmTx (fun w => hconfirm w found) u hu

/-- A step of the service, but for the scan, a pass and what a process starts from. -/
theorem OfTrees.step (hI : OfTrees I) {allowed : Config → Prop} {w w' : World}
    (hboot : ∀ config, I { w with toState := w.toState.boot config })
    (hfill : I w → Prog.wp (fill env) (fun _ => I) (fun _ => I) w)
    (hpass : I w → Prog.wp (doBitcoin env) (fun _ => I) (fun _ => I) w)
    (hw : w.running = true → I w) (hstep : (service env allowed).step w w') : I w' := by
  obtain ⟨e, henabled, -, rfl⟩ := hstep
  have hrun : ∀ m : M Unit, Prog.wp m (fun _ => I) (fun _ => I) w → I (runProgram m w) := by
    intro m hm
    have ht : I (m w).2 := Prog.of_wp hm
    rw [runProgram]
    split
    next t heq =>
      rw [heq] at ht
      exact hI t _ ⟨le_refl _, rfl⟩ ht
    next t _ heq =>
      rw [heq] at ht
      exact ht
  cases e with
  | start config =>
      refine hrun _ ?_
      have hstart : Prog.Keeps I (Service.openCalendar env >>= fun _ =>
            Service.schedule env >>= fun _ => Service.openStamper env) :=
        .bind hI.openCalendar fun _ => .bind hI.schedule fun _ => hI.openStamper
      rw [Event.program, Prog.wp_handle]
      exact Prog.wp_mono (hstart _ (hboot config)) (fun _ _ h => h) fun _ _ h => h
  | append commitment records => exact hrun _ (hI.appendEntry commitment records w (hw henabled.1))
  | count => exact hrun _ (hI.writeCount w (hw henabled))
  | fill => exact hrun _ (hfill (hw henabled))
  | pass =>
      refine hrun _ ?_
      rw [Event.program, pass, guarded, Prog.wp_handle]
      refine Prog.wp_mono (hpass (hw henabled)) (fun _ _ h => h) fun e t ht => ?_
      cases e <;> exact ht
  | settle => exact hrun _ (hI.settlePendingReceipt w (hw henabled))
  | leave => exact hrun _ (hI.leave w (hw henabled))
  | kill => exact hrun _ (hw henabled)

end Keeps

end OtsServer.Service
