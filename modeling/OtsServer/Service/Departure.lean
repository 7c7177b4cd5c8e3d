import OtsServer.Service.Json

/-!
# The departure clock

A transaction leaves only at the departure step of a pass, when the clock that was armed earlier has
expired and commitments are pending. The clock is armed when a process starts, when an anchor is
found in a block, and by a departure step that finds nothing pending and nothing in flight; nothing
else touches it. So whatever the submissions do, a transaction is sent on a clock that no idle
departure step has seen expired.
-/

namespace OtsServer.Service

/-! ## The departure step -/

section Code

variable (env : Env)

/-- `__do_bitcoin` up to its departure step; whether it comes to it. -/
def approach : M Bool := do
  ask env.makeProxy
  let new ← updateFromProxy env
  let s ← Prog.gets (·.stamper)
  let bestHeight := match new.getLast? with
    | some block => block.height
    | none => bestBlockHeight s
  modifyStamper fun s => { s with unprocessedBlocks := queueBlocks new s.unprocessedBlocks }
  let done ← processBlocks env
  if ¬done then pure false
  else do
    saveMatureTrees env bestHeight
    let s ← Prog.gets (·.stamper)
    pure (¬(new = [] ∧ s.unconfirmedTxs ≠ []))

theorem doBitcoin_eq :
    doBitcoin env =
      (approach env >>= fun reached => if reached then anchorWhenDue env else pure ()) := by
  unfold doBitcoin approach
  simp only [Prog.bind_assoc]
  refine congrArg _ (funext fun _ => congrArg _ (funext fun new => congrArg _ (funext fun s => ?_)))
  refine congrArg _ (funext fun _ => congrArg _ (funext fun done => ?_))
  cases done with
  | false => rfl
  | true =>
      rw [if_neg (not_not.mpr rfl), if_neg (not_not.mpr rfl)]
      simp only [Prog.bind_assoc]
      refine congrArg _ (funext fun _ => congrArg _ (funext fun s => ?_))
      rw [Prog.pure_bind]
      by_cases hwait : new = [] ∧ s.unconfirmedTxs ≠ []
      · rw [if_pos hwait, if_neg (by simp [hwait])]
      · rw [if_neg hwait, if_pos (decide_eq_true hwait)]

end Code

/-! ## What leaves the clock alone -/

/-- Calls may have been made; the clock and the configuration are as they were. -/
structure Leaves (w w' : World) : Prop where
  tick : w.tick ≤ w'.tick
  next : w'.stamper.nextTimestampTx = w.stamper.nextTimestampTx
  config : w'.stamper.config = w.stamper.config

/-- A property that only the clock, the configuration and the time can end. -/
def Clockwork (I : World → Prop) : Prop := ∀ w w', Leaves w w' → I w → I w'

section Keeps

variable {env : Env} {I : World → Prop} {α : Type}

theorem Clockwork.ask (hI : Clockwork I) (f : Nat → Except Exc α) : Prog.Keeps I (ask f) := by
  intro w hw
  have hleft : I { w with tick := w.tick + 1 } := hI w _ ⟨Nat.le_succ _, rfl, rfl⟩ hw
  rw [Prog.wp, Service.ask]
  cases f w.tick <;> exact hleft

theorem Clockwork.modify (hI : Clockwork I) {f : World → World} (hf : ∀ w, Leaves w (f w)) :
    Prog.Keeps I (Prog.modify f : M Unit) :=
  .modify fun w hw => hI w (f w) (hf w) hw

theorem Clockwork.note (hI : Clockwork I) (f : History → History) : Prog.Keeps I (note f) :=
  hI.modify fun _ => ⟨le_refl _, rfl, rfl⟩

theorem Clockwork.modifyDisk (hI : Clockwork I) (f : Disk → Disk) : Prog.Keeps I (modifyDisk f) :=
  hI.modify fun _ => ⟨le_refl _, rfl, rfl⟩

theorem Clockwork.modifyStamper (hI : Clockwork I) {f : Stamper → Stamper}
    (hf : ∀ s, (f s).nextTimestampTx = s.nextTimestampTx ∧ (f s).config = s.config) :
    Prog.Keeps I (modifyStamper f) :=
  hI.modify fun w => ⟨le_refl _, (hf w.stamper).1, (hf w.stamper).2⟩

theorem Clockwork.fileCall (hI : Clockwork I) : Prog.Keeps I (fileCall env) := hI.ask _

theorem Clockwork.fileEffect (hI : Clockwork I) (f : Disk → Disk) :
    Prog.Keeps I (fileEffect env f) :=
  .bind hI.fileCall fun _ => hI.modifyDisk f

theorem Clockwork.fsyncDir (hI : Clockwork I) : Prog.Keeps I (fsyncDir env) :=
  .bind hI.fileCall fun _ => hI.fileCall

theorem Clockwork.osWrite (hI : Clockwork I) (put : Bytes → Disk → Disk) (data : Bytes) :
    Prog.Keeps I (osWrite env put data) := by
  intro w hw
  have hleft : ∀ disk, I { w with tick := w.tick + 1, disk := disk } := fun _ =>
    hI w _ ⟨Nat.le_succ _, rfl, rfl⟩ hw
  rw [Prog.wp, Service.osWrite]
  cases env.write w.tick <;> exact hleft _

theorem Clockwork.writeAll (hI : Clockwork I) (put : Bytes → Disk → Disk) (data : Bytes) :
    Prog.Keeps I (writeAll env put data) := by
  refine .loop (fun view => .ite (fun _ => .pure _) fun _ => ?_) (fun _ => .pure _) _ _
  exact .bind (hI.osWrite put view) fun n => .ite (fun _ => .raise _) fun _ => .pure _

theorem Clockwork.dbRead (hI : Clockwork I) : Prog.Keeps I (dbRead env) := hI.ask _

theorem Clockwork.dbContains (hI : Clockwork I) (key : Key) : Prog.Keeps I (dbContains env key) :=
  .bind hI.dbRead fun _ => .gets _

theorem Clockwork.dbBatch (hI : Clockwork I) (f : Db → Db) : Prog.Keeps I (dbBatch env f) := by
  intro w hw
  have hleft : ∀ disk db, I { w with tick := w.tick + 1, disk := disk, db := db } := fun _ _ =>
    hI w _ ⟨Nat.le_succ _, rfl, rfl⟩ hw
  rw [Prog.wp, Service.dbBatch]
  cases env.batch w.tick with
  | returns => exact hleft _ _
  | raises landed => cases landed <;> exact hleft _ _
  | stops landed => cases landed <;> exact hleft _ _

theorem keeps_guarded {m : M α} {handler : Exc → M α} (hm : Prog.Keeps I m)
    (hh : ∀ e, Prog.Keeps I (handler e)) : Prog.Keeps I (guarded m handler) := by
  refine .handle hm fun e n hn => ?_
  cases e <;> cases hn <;> exact hh _

/-! ### Submissions and the scan -/

theorem Clockwork.flushJournal (hI : Clockwork I) : Prog.Keeps I (flushJournal env) := by
  refine .bind (.gets _) fun buffered =>
    .loop (fun _ => .bind (.gets _) fun buffer => ?_) (fun _ => .pure _) _ _
  refine .ite (fun _ => .pure _) fun _ => .bind (hI.osWrite _ _) fun n => ?_
  exact .bind (hI.modify fun _ => ⟨le_refl _, rfl, rfl⟩) fun _ =>
    .ite (fun _ => .raise _) fun _ => .pure _

theorem Clockwork.appendEntry (hI : Clockwork I) (commitment : Bytes) (records : Option Nat) :
    Prog.Keeps I (appendEntry env commitment records) := by
  refine .bind (hI.modify fun _ => ⟨le_refl _, rfl, rfl⟩) fun _ => ?_
  split
  · exact .raise _
  · refine .bind (.gets _) fun size => .ite (fun _ => .raise _) fun _ =>
      .ite (fun _ => .raise _) fun _ => ?_
    refine .bind (hI.note _) fun _ => .bind (hI.modify fun _ => ⟨le_refl _, rfl, rfl⟩) fun _ => ?_
    exact .bind hI.flushJournal fun _ => .bind hI.fileCall fun _ => hI.modify fun _ =>
      ⟨le_refl _, rfl, rfl⟩

theorem Clockwork.writeCount (hI : Clockwork I) : Prog.Keeps I (writeCount env) := by
  refine .bind (.gets _) fun owed => ?_
  split
  · exact .pure _
  · refine .bind (keeps_guarded ?_ fun _ => .pure _) fun _ => hI.modify fun _ =>
      ⟨le_refl _, rfl, rfl⟩
    exact .ite (fun _ => .bind (hI.osWrite _ _) fun _ => hI.fileCall) fun _ => .raise _

theorem Clockwork.getCount (hI : Clockwork I) (idx : Nat) : Prog.Keeps I (getCount env idx) :=
  keeps_guarded (.bind hI.fileCall fun _ => .gets _) fun _ => .pure _

theorem Clockwork.takeEntry (hI : Clockwork I) (commitment : Bytes) (idx : Nat) :
    Prog.Keeps I (takeEntry env commitment idx) := by
  refine .bind (hI.modifyStamper fun _ => ⟨rfl, rfl⟩) fun _ => .bind (.gets _) fun on =>
    .ite (fun _ => ?_) fun _ => .pure _
  refine .bind (hI.getCount idx) fun count => ?_
  split
  · exact .pure _
  · exact hI.modifyStamper fun _ => ⟨rfl, rfl⟩

theorem Clockwork.scanEntry (hI : Clockwork I) : Prog.Keeps I (scanEntry env) := by
  refine .bind (.gets _) fun s =>
    .ite (fun _ => .bind hI.fileCall fun _ => .bind (.gets _) fun journal => ?_) fun _ => .pure _
  split
  · exact .pure _
  · refine .bind (hI.dbContains _) fun held => .ite (fun _ => ?_) fun _ =>
      .bind (hI.takeEntry _ _) fun _ => ?_
    · exact .bind (hI.modifyStamper fun _ => ⟨rfl, rfl⟩) fun _ => .pure _
    · exact .bind (hI.modifyStamper fun _ => ⟨rfl, rfl⟩) fun _ => .pure _

theorem Clockwork.fill (hI : Clockwork I) : Prog.Keeps I (fill env) := by
  refine .bind (.gets _) fun rounds => .bind (keeps_guarded ?_ fun _ => .pure _) fun _ => ?_
  · exact .loop (fun _ => hI.scanEntry) (fun _ => .pure _) _ _
  · exact hI.modifyStamper fun _ => ⟨rfl, rfl⟩

/-! ### Receipts -/

theorem Clockwork.receiptOnFile (hI : Clockwork I) (txid : Bytes) :
    Prog.Keeps I (receiptOnFile env txid) :=
  .bind hI.fileCall fun _ => .bind (.gets _) fun _ => .ofExcept _

theorem Clockwork.recoverReceiptTail (hI : Clockwork I) :
    Prog.Keeps I (recoverReceiptTail env) := by
  refine .bind hI.fileCall fun _ => .bind (.gets _) fun receipts =>
    .ite (fun _ => .pure _) fun _ => ?_
  refine .bind hI.fileCall fun _ => .ite (fun _ => .pure _) fun _ => .bind ?_ fun keep => ?_
  · refine .loop (fun pos => .ite (fun _ => .pure _) fun _ => ?_) (fun _ => .pure _) _ _
    exact .bind hI.fileCall fun _ => .bind (.gets _) fun _ => .pure _
  · exact .bind (hI.fileEffect _) fun _ => hI.fileCall

theorem Clockwork.appendAnchorReceipt (hI : Clockwork I) (receipt : Receipt) :
    Prog.Keeps I (appendAnchorReceipt env receipt) := by
  refine .bind hI.fileCall fun _ => .bind hI.recoverReceiptTail fun _ =>
    .bind (hI.writeAll _ _) fun _ => ?_
  exact .bind hI.fileCall fun _ => hI.fsyncDir

theorem Clockwork.syncReceipts (hI : Clockwork I) : Prog.Keeps I (syncReceipts env) :=
  .bind hI.fileCall fun _ => .bind hI.fileCall fun _ => hI.fsyncDir

theorem Clockwork.writePendingReceipt (hI : Clockwork I) (receipt : Receipt) :
    Prog.Keeps I (writePendingReceipt env receipt) := by
  refine .bind hI.fileCall fun _ => .bind (hI.writeAll _ _) fun _ => .bind hI.fileCall fun _ => ?_
  exact .bind (hI.fileEffect _) fun _ => hI.fsyncDir

theorem Clockwork.removeMarker (hI : Clockwork I) (name : Bytes) :
    Prog.Keeps I (removeMarker env name) :=
  hI.fileEffect _

theorem Clockwork.settleDue (hI : Clockwork I) (name : Bytes) (receipt : Receipt) :
    Prog.Keeps I (settleDue env name (dueOf env receipt)) := by
  refine .bind (hI.receiptOnFile _) fun onFile => .bind (hI.dbContains _) fun saved =>
    .ite (fun _ => ?_) fun _ => ?_
  · refine .ite (fun _ => .bind hI.syncReceipts fun _ => hI.removeMarker name) fun _ => ?_
    exact .bind (hI.appendAnchorReceipt receipt) fun _ => hI.removeMarker name
  · refine .ite (fun _ => .raise _) fun _ => .bind (hI.removeMarker name) fun _ => ?_
    exact .bind (.gets _) fun _ => hI.note _

theorem Clockwork.settleMarker (hI : Clockwork I) (name : Bytes) :
    Prog.Keeps I (settleMarker env name) := by
  refine .bind hI.fileCall fun _ => .bind (.gets _) fun markers => ?_
  split
  · exact .raise _
  next body _ =>
    dsimp only
    cases env.lib.codec.bodyReceipt body with
    | ok receipt => exact hI.settleDue name receipt
    | error e => exact .ite (fun _ => hI.removeMarker name) fun _ => .raise e

theorem Clockwork.settlePendingReceipt (hI : Clockwork I) :
    Prog.Keeps I (settlePendingReceipt env) := by
  refine .bind (.gets _) fun on =>
    .ite (fun _ => .bind ?_ fun names => .forEach (fun name => ?_) _) fun _ => .pure _
  · exact .bind hI.fileCall fun _ => .bind (.gets _) fun _ => .pure _
  · refine keeps_guarded (hI.settleMarker name) fun e => ?_
    cases e <;> first | exact .raise _ | exact .pure _

theorem Clockwork.owePendingReceipt (hI : Clockwork I) (confirmed : TimestampTx) :
    Prog.Keeps I (owePendingReceipt env confirmed) := by
  refine .bind (hI.ask _) fun now => .bind hI.settlePendingReceipt fun _ =>
    .bind (.gets _) fun overlap => ?_
  exact .bind (hI.note _) fun _ => .bind (hI.writePendingReceipt _) fun _ => .pure _

theorem Clockwork.saveTimestamps (hI : Clockwork I) (confirmed : TimestampTx)
    (watermark : Option Nat) : Prog.Keeps I (saveTimestamps env confirmed watermark) := by
  refine .bind (.bind hI.dbRead fun _ => hI.dbBatch _) fun _ => ?_
  split
  · exact .pure _
  · exact .bind (.gets _) fun _ => hI.note _

theorem Clockwork.writeOwedReceipt (hI : Clockwork I) (receipt : Receipt) :
    Prog.Keeps I (writeOwedReceipt env receipt) := by
  refine .bind (keeps_guarded (.bind (hI.appendAnchorReceipt _) fun _ => .pure _) fun _ =>
      .pure _) fun written => ?_
  refine .ite (fun _ => .handle (hI.removeMarker _) fun e n hn => ?_) fun _ => .pure _
  cases e <;> cases hn
  exact .pure _

theorem Clockwork.saveConfirmedTimestampTx (hI : Clockwork I) (confirmed : TimestampTx)
    (watermark : Option Nat) : Prog.Keeps I (saveConfirmedTimestampTx env confirmed watermark) := by
  refine .bind (.gets _) fun on => .ite (fun _ => ?_) fun _ => hI.saveTimestamps _ _
  exact .bind (hI.owePendingReceipt _) fun _ => .bind (hI.saveTimestamps _ _) fun _ =>
    hI.writeOwedReceipt _

theorem Clockwork.writeJournalCheckpoint (hI : Clockwork I) (idx : Option Nat) :
    Prog.Keeps I (writeJournalCheckpoint env idx) := by
  refine .bind (.gets _) fun db => ?_
  split
  · refine keeps_guarded (.bind hI.fileCall fun _ => .bind hI.fileCall fun _ =>
        .bind hI.fileCall fun _ => ?_) fun _ => .pure _
    exact .bind (hI.fileEffect _) fun _ => hI.fsyncDir
  · exact .pure _

theorem Clockwork.saveTree (hI : Clockwork I) (height : Int) :
    Prog.Keeps I (saveTree env height) := by
  refine .bind (.gets _) fun s => ?_
  split
  · exact .raise _
  · refine .bind (hI.note _) fun _ => .bind (keeps_guarded ?_ fun _ => .pure _) fun saved => ?_
    · exact .bind (hI.saveConfirmedTimestampTx _ _) fun _ => .pure _
    · refine .ite (fun _ => .bind (hI.modifyStamper fun _ => ⟨rfl, rfl⟩) fun _ =>
          ?_) fun _ => .pure _
      exact hI.writeJournalCheckpoint _

theorem Clockwork.saveMatureTrees (hI : Clockwork I) (bestHeight : Int) :
    Prog.Keeps I (saveMatureTrees env bestHeight) :=
  .bind (.gets _) fun _ => .forEach hI.saveTree _

/-! ### Blocks -/

theorem Clockwork.setKnownBlocks (hI : Clockwork I) (f : List KnownBlock → List KnownBlock) :
    Prog.Keeps I (setKnownBlocks f) :=
  hI.modifyStamper fun _ => ⟨rfl, rfl⟩

theorem Clockwork.blockHashAt (hI : Clockwork I) (height : Int) :
    Prog.Keeps I (blockHashAt env height) := by
  refine .handle (.bind (hI.ask _) fun _ => .pure _) fun e n hn => ?_
  cases e <;> cases hn
  exact .pure _

theorem Clockwork.detectReorgs (hI : Clockwork I) : Prog.Keeps I (detectReorgs env) := by
  refine .bind (.gets _) fun _ =>
    .loop (fun _ => .bind (.gets _) fun blocks => ?_) (fun _ => .pure _) _ _
  split
  · exact .pure _
  · refine .bind (hI.blockHashAt _) fun _ => .ite (fun _ => .pure _) fun _ => ?_
    exact .bind (hI.setKnownBlocks _) fun _ => .pure _

theorem Clockwork.discover (hI : Clockwork I) (read : List KnownBlock) :
    Prog.Keeps I (discover env read) := by
  refine .bind (.bind (.gets _) fun blocks => ?_) fun best => .ite (fun _ => .pure _) fun _ => ?_
  · split
    · exact .pure _
    · exact .bind (hI.ask _) fun _ => .pure _
  refine .bind hI.detectReorgs fun _ => .bind (.bind (.gets _) fun blocks => ?_) fun height => ?_
  · split
    · exact hI.ask _
    · exact .pure _
  refine .bind (hI.blockHashAt _) fun hash => ?_
  split
  · exact .pure _
  · exact .bind (hI.setKnownBlocks _) fun _ => .pure _

theorem Clockwork.updateFromProxy (hI : Clockwork I) : Prog.Keeps I (updateFromProxy env) := by
  refine .bind (.gets _) fun known => .bind (.gets _) fun patience => .bind ?_ fun read => ?_
  · refine .handle (.loop hI.discover (fun _ => .raise _) _ _) fun e n hn => ?_
    cases hn
    exact .bind (hI.setKnownBlocks _) fun _ => .raise _
  · exact .bind (.gets _) fun calls => .bind (hI.note _) fun _ => .pure _

theorem Clockwork.requeue (hI : Clockwork I) (height : Int) : Prog.Keeps I (requeue height) := by
  refine hI.modifyStamper fun s => ?_
  split <;> exact ⟨rfl, rfl⟩

theorem Clockwork.fetchBlock (hI : Clockwork I) (hash : Bytes) :
    Prog.Keeps I (fetchBlock env hash) := by
  refine .bind (.gets _) fun patience => .loop (fun _ => ?_) (fun _ => .raise _) _ _
  refine .handle (.bind (hI.ask _) fun _ => .pure _) fun e n hn => ?_
  cases e <;> cases hn
  · exact .pure _
  · exact .bind (hI.ask _) fun _ => .pure _

theorem Clockwork.confirmTx (hI : Clockwork I) (hschedule : Prog.Keeps I (schedule env))
    (block : Block) (height : Int) (hash : Bytes) (unconfirmed : UnconfirmedTimestampTx) :
    Prog.Keeps I (confirmTx env block height hash unconfirmed) := by
  refine .bind (.ofExcept _) fun _ => .bind (.gets _) fun s => .ite (fun _ => .raise _) fun _ => ?_
  exact .bind (hI.modifyStamper fun _ => ⟨rfl, rfl⟩) fun _ => .bind (hI.note _) fun _ => hschedule

theorem Clockwork.processBlock (hI : Clockwork I) (hschedule : Prog.Keeps I (schedule env))
    (known : KnownBlock) : Prog.Keeps I (processBlock env known) := by
  refine .bind (hI.requeue _) fun _ => .bind (hI.fetchBlock _) fun block => ?_
  split
  · exact .pure _
  · refine .bind (.gets _) fun unconfirmed => ?_
    dsimp only
    split
    · exact .pure _
    · exact .bind (hI.confirmTx hschedule _ _ _ _) fun _ => .pure _

theorem Clockwork.processBlocks (hI : Clockwork I) (hschedule : Prog.Keeps I (schedule env)) :
    Prog.Keeps I (processBlocks env) := by
  refine .bind (.gets _) fun rounds =>
    .loop (fun _ => .bind (.gets _) fun queue => ?_) (fun _ => .pure _) _ _
  split
  · exact .pure _
  · refine .bind (hI.processBlock hschedule _) fun done => .ite (fun _ => ?_) fun _ => .pure _
    exact .bind (hI.modifyStamper fun _ => ⟨rfl, rfl⟩) fun _ => .pure _

theorem Clockwork.approach (hI : Clockwork I) (hschedule : Prog.Keeps I (schedule env)) :
    Prog.Keeps I (approach env) := by
  refine .bind (hI.ask _) fun _ => .bind hI.updateFromProxy fun new => .bind (.gets _) fun s => ?_
  refine .bind (hI.modifyStamper fun _ => ⟨rfl, rfl⟩) fun _ =>
    .bind (hI.processBlocks hschedule) fun done => ?_
  refine .ite (fun _ => .pure _) fun _ => ?_
  exact .bind (hI.saveMatureTrees _) fun _ => .bind (.gets _) fun _ => .pure _

/-! ### Sending -/

theorem Clockwork.replaceable (hI : Clockwork I) (unspent : Unspent) :
    Prog.Keeps I (replaceable env unspent) := by
  refine .bind (hI.ask _) fun tx => ?_
  split
  · refine .handle (.bind (hI.ask _) fun _ => .bind (hI.ask _) fun _ => .pure _) fun e n hn => ?_
    cases e <;> cases hn
    exact .pure _
  · exact .pure _

theorem Clockwork.findUnspent (hI : Clockwork I) : Prog.Keeps I (findUnspent env) := by
  refine .bind (hI.ask _) fun listed => .ite (fun _ => .pure _) fun _ => ?_
  refine .bind (hI.ask _) fun _ =>
    .bind (.loop (fun r => ?_) (fun _ => .pure _) _ _) fun _ => .pure _
  split
  · exact .pure _
  · exact .bind (hI.replaceable _) fun _ => .pure _

theorem Clockwork.previousTx (hI : Clockwork I) : Prog.Keeps I (previousTx env) := by
  refine .bind (.gets _) fun s => ?_
  split
  · exact .pure _
  · refine .bind hI.findUnspent fun unspent => ?_
    split
    · exact .pure _
    · refine .bind (hI.ask _) fun _ => .bind (hI.ask _) fun r => .ite (fun _ => .pure _) fun _ => ?_
      exact .bind (hI.ask _) fun _ => .bind (.gets _) fun _ => .pure _

theorem Clockwork.getTxFee (hI : Clockwork I) (tx : Tx) : Prog.Keeps I (getTxFee env tx) := by
  refine .handle (.bind (.loop (fun r => ?_) (fun _ => .pure _) _ _) fun _ =>
      .pure _) fun e n hn => ?_
  · split
    · exact .pure _
    · exact .bind (hI.ask _) fun _ => .pure _
  · cases e <;> cases hn
    exact .pure _

theorem Clockwork.countTreeRecords (hI : Clockwork I) (commitments : List Bytes) :
    Prog.Keeps I (countTreeRecords env commitments) := by
  induction commitments with
  | nil => exact .pure _
  | cons commitment rest ih =>
      refine .bind (.bind (.gets _) fun s => ?_) fun _ => .bind ih fun _ => .pure _
      split
      · exact .pure _
      · split
        · exact .pure _
        · refine .bind (hI.getCount _) fun count => ?_
          split
          · exact .pure _
          · exact .bind (hI.modifyStamper fun _ => ⟨rfl, rfl⟩) fun _ => .pure _

theorem Clockwork.trySend (hI : Clockwork I) (prev : Tx) (tip : Bytes) (feerate next : ℚ) :
    Prog.Keeps I (trySend env prev tip feerate next) := by
  refine .bind (hI.ask _) fun height => .bind (.ofExcept _) fun unsigned =>
    .bind (hI.getTxFee _) fun fee => ?_
  split
  · exact .bind (hI.modifyStamper fun _ => ⟨rfl, rfl⟩) fun _ => .pure _
  · refine .bind (.gets _) fun s => .ite (fun _ => .pure _) fun _ => ?_
    split
    · exact .raise _
    · refine .ite (fun _ => .pure _) fun _ => .bind (hI.ask _) fun r =>
        .ite (fun _ => .pure _) fun _ => ?_
      refine .handle (.bind (hI.ask _) fun _ => .pure _) fun e n hn => ?_
      split at hn
      · cases hn
        refine .ite (fun _ => ?_) fun _ => .pure _
        exact .bind (hI.modifyStamper fun _ => ⟨rfl, rfl⟩) fun _ => .pure _
      · exact nomatch hn

theorem Clockwork.sendLoop (hI : Clockwork I) (prev : Tx) (tip : Bytes) (feerate : ℚ) :
    Prog.Keeps I (sendLoop env prev tip feerate) := by
  refine .bind (.gets _) fun patience => .bind (.gets _) fun relay =>
    .bind (hI.trySend _ _ _ _) fun first => ?_
  split
  · exact .pure _
  · exact .loop (fun _ => hI.trySend _ _ _ _) (fun _ => .raise _) _ _

theorem Clockwork.sendAnchor (hI : Clockwork I) : Prog.Keeps I (sendAnchor env) := by
  refine .bind hI.previousTx fun prev => ?_
  split
  · exact .pure _
  · refine .bind (.gets _) fun s => ?_
    -- what is done with the transaction that was sent, whatever it is
    have hsend : ∀ (prev : Tx) (feerate : ℚ) (rest : Option (Tx × Int) → M Unit),
        Prog.Keeps I (rest none) → (∀ tx fee, Prog.Keeps I (rest (some (tx, fee)))) →
        Prog.Keeps I (do
          Service.ask env.makeProxy
          let sent ← Service.sendLoop env prev (env.lib.merkleTip s.pendingCommitments) feerate
          rest sent) := by
      intro prev feerate rest hnone hsome
      refine .bind (hI.ask _) fun _ => .bind (hI.sendLoop _ _ _) fun sent => ?_
      cases sent with
      | none => exact hnone
      | some sent => exact hsome sent.1 sent.2
    refine .ite (fun _ => .bind (hI.countTreeRecords _) fun _ => ?_) fun _ => ?_
    · exact hsend _ _ _ (.pure _) fun _ _ => hI.modifyStamper fun _ => ⟨rfl, rfl⟩
    · exact hsend _ _ _ (.pure _) fun _ _ => hI.modifyStamper fun _ => ⟨rfl, rfl⟩

/-! ### Start and end -/

theorem Clockwork.adoptGeneration (hI : Clockwork I) (watermark : Nat) :
    Prog.Keeps I (adoptGeneration env watermark) :=
  .bind (hI.ask _) fun _ => hI.dbBatch _

theorem Clockwork.openDatabase (hI : Clockwork I) : Prog.Keeps I (openDatabase env) := by
  refine .bind hI.dbRead fun _ => .bind (hI.modify fun _ => ⟨le_refl _, rfl, rfl⟩) fun _ =>
    .bind (.gets _) fun db => ?_
  exact .ite (fun _ => hI.adoptGeneration _) fun _ => .pure _

theorem Clockwork.checkCounts (hI : Clockwork I) : Prog.Keeps I (checkCounts env) :=
  .bind hI.fileCall fun _ => .bind (.gets _) fun _ => .ite (fun _ => .raise _) fun _ => .pure _

theorem Clockwork.probeJournal (hI : Clockwork I) (idx : Nat) :
    Prog.Keeps I (probeJournal env idx) := by
  refine .bind hI.fileCall fun _ => .bind (.gets _) fun disk => ?_
  split
  · exact .raise _
  · exact .bind (hI.dbContains _) fun held => .ite (fun _ => .pure _) fun _ => .raise _

theorem Clockwork.checkJournal (hI : Clockwork I) (idx : Nat) :
    Prog.Keeps I (checkJournal env idx) := by
  refine .ite (fun _ => .pure _) fun _ => .bind hI.fileCall fun _ => .bind (.gets _) fun disk => ?_
  exact .ite (fun _ => .raise _) fun _ => .bind (hI.probeJournal _) fun _ => hI.probeJournal _

theorem Clockwork.readCheckpoint (hI : Clockwork I) : Prog.Keeps I (readCheckpoint env) := by
  refine .bind hI.fileCall fun _ => .bind (.gets _) fun text => ?_
  split
  · exact .pure _
  · exact .bind (.ofExcept _) fun _ => .pure _

theorem Clockwork.openCalendar (hI : Clockwork I) : Prog.Keeps I (openCalendar env) := by
  refine .bind hI.openDatabase fun _ => .bind hI.checkCounts fun _ => .bind ?_ fun checkpoint =>
    .bind ?_ fun _ => .pure _
  · refine .bind (keeps_guarded hI.readCheckpoint fun _ => .raise _) fun checkpoint =>
      .bind (.gets _) fun db => ?_
    split
    · exact .bind (hI.adoptGeneration _) fun _ => .pure _
    · exact .pure _
    · exact .raise _
    · exact .raise _
    · refine .ite (fun _ => .raise _) fun _ => .ite (fun _ => .raise _) fun _ => ?_
      exact .bind (hI.checkJournal _) fun _ => .pure _
  · refine .bind hI.fileCall fun _ => .bind (hI.modify fun _ => ⟨le_refl _, rfl, rfl⟩) fun _ =>
      .bind (.gets _) fun on => ?_
    exact .ite (fun _ => hI.fileCall) fun _ => .pure _

theorem Clockwork.openStamper (hI : Clockwork I) : Prog.Keeps I (openStamper env) := by
  refine .bind hI.fileCall fun _ =>
    .bind (keeps_guarded hI.settlePendingReceipt fun e => ?_) fun _ => ?_
  · cases e <;> first | exact .raise _ | exact .pure _
  · exact .bind hI.readCheckpoint fun _ => hI.modifyStamper fun _ => ⟨rfl, rfl⟩

theorem Clockwork.leave (hI : Clockwork I) : Prog.Keeps I (leave env) :=
  .bind (keeps_guarded hI.flushJournal fun _ => .pure _) fun _ => .raise _

end Keeps

/-! ## Runs -/

section Runs

variable {env : Env} {w : World}

/-- Where the departure step of a pass begins, if the pass comes to it. -/
def departure? (env : Env) (w : World) : Option World :=
  match approach env w with
  | (.ok true, t) => some t
  | _ => none

/-- The departure step of an event. -/
def Event.departs (env : Env) (w : World) : Event → List World
  | pass => (departure? env w).toList
  | _ => []

/-- The departure steps of a run, in order. -/
def departures (env : Env) : List Event → World → List World
  | [], _ => []
  | e :: es, w => e.departs env w ++ departures env es (runProgram (e.program env) w)

/-- Nothing is pending and nothing is in flight. -/
def World.Idle (w : World) : Prop :=
  w.stamper.pendingCommitments = [] ∧ w.stamper.unconfirmedTxs = []

/-- The clock was armed by the call `m`, which read the time, and the next one. -/
structure ArmedAt (env : Env) (w : World) (m : Nat) : Prop where
  before : m + 2 ≤ w.tick
  next : w.stamper.nextTimestampTx =
    env.clock m + w.stamper.config.minTxInterval * env.uniform (m + 1)

/-- The departure steps of the past, and an interval to wait for. -/
structure Behind (ds : List World) (w : World) : Prop where
  past : ∀ d ∈ ds, d.tick ≤ w.tick
  interval : 0 < w.stamper.config.minTxInterval

theorem Behind.clockwork (ds : List World) : Clockwork (Behind ds) := by
  rintro w w' ⟨htick, -, hconfig⟩ ⟨hpast, hinterval⟩
  exact ⟨fun d hd => (hpast d hd).trans htick, hconfig ▸ hinterval⟩

/-- Since the clock was armed, no idle departure step saw it expired. -/
structure Rolled (env : Env) (ds : List World) (w : World) : Prop extends Behind ds w where
  armed : ∃ m, ArmedAt env w m ∧
    ∀ d ∈ ds, m < d.tick → w.stamper.nextTimestampTx ≤ env.clock d.tick → ¬ d.Idle

theorem Rolled.clockwork (ds : List World) : Clockwork (Rolled env ds) := by
  rintro w w' hleaves ⟨hbehind, m, ⟨hbefore, harmed⟩, hidle⟩
  refine ⟨Behind.clockwork ds w w' hleaves hbehind, m, ⟨hbefore.trans hleaves.tick, ?_⟩, ?_⟩
  · rw [hleaves.next, hleaves.config, harmed]
  · rw [hleaves.next]
    exact hidle

/-- Whatever the clock was, arming it anew leaves every departure step behind. -/
theorem Behind.schedule {ds : List World} (h : Behind ds w) : Rolled env ds (schedule env w).2 := by
  refine ⟨⟨fun d hd => (h.past d hd).trans (Nat.le_add_right _ 2), h.interval⟩,
    w.tick, ⟨le_refl _, rfl⟩, ?_⟩
  exact fun d hd hlt => absurd (h.past d hd) (Nat.not_le.mpr hlt)

theorem Rolled.schedule {ds : List World} : Prog.Keeps (Rolled env ds) (schedule env) := fun _ hw =>
  hw.toBehind.schedule

/-- A departure step joins those of the past. -/
theorem Behind.snoc {ds : List World} {d : World} (h : Behind ds w) (hd : d.tick ≤ w.tick) :
    Behind (ds ++ [d]) w := by
  refine ⟨fun d' hmem => ?_, h.interval⟩
  obtain hmem | hmem := List.mem_append.mp hmem
  · exact h.past d' hmem
  · rw [List.mem_singleton.mp hmem]
    exact hd

/-- A departure step that the clock holds back, or that is not idle. -/
theorem Rolled.snoc {ds : List World} (h : Rolled env ds w)
    (hdue : w.stamper.nextTimestampTx ≤ env.clock w.tick → ¬ w.Idle) :
    Rolled env (ds ++ [w]) w := by
  obtain ⟨hbehind, m, harmed, hidle⟩ := h
  refine ⟨hbehind.snoc (le_refl _), m, harmed, fun d hd hlt hle => ?_⟩
  obtain hd | hd := List.mem_append.mp hd
  · exact hidle d hd hlt hle
  · obtain rfl := List.mem_singleton.mp hd
    exact hdue hle

/-- The departure step itself. -/
theorem Rolled.anchorWhenDue {ds : List World} (h : Rolled env ds w) :
    Rolled env (ds ++ [w]) (anchorWhenDue env w).2 := by
  have hlater : Leaves w { w with tick := w.tick + 1 } := ⟨Nat.le_succ _, rfl, rfl⟩
  change Rolled env _ ((if w.stamper.nextTimestampTx - env.clock w.tick > 0 then _ else _ : M Unit)
      { w with tick := w.tick + 1 }).2
  split_ifs with hwait hpending hflight
  · refine Rolled.clockwork _ _ _ hlater (h.snoc fun hdue => ?_)
    exact absurd hwait (not_lt.mpr (sub_nonpos.mpr hdue))
  · have hbehind : Behind ds { w with tick := w.tick + 1 } :=
      Behind.clockwork _ _ _ hlater h.toBehind
    exact (hbehind.snoc (Nat.le_succ _)).schedule
  · exact Rolled.clockwork _ _ _ hlater (h.snoc fun _ hidle => hflight hidle.2)
  · refine ((Rolled.clockwork (ds ++ [w])).sendAnchor).apply
      (Rolled.clockwork _ _ _ hlater (h.snoc fun _ hidle => ?_))
    exact hpending hidle.1

theorem guarded_state (m : M Unit) (w : World) : (guarded m (fun _ => pure ()) w).2 = (m w).2 := by
  rw [guarded, Prog.handle]
  rcases m w with ⟨e | _, t⟩
  · cases e <;> rfl
  · rfl

theorem runProgram_leaves (m : M Unit) (w : World) : Leaves (m w).2 (runProgram m w) := by
  unfold runProgram
  rcases m w with ⟨e | _, t⟩
  · cases e <;> exact ⟨le_refl _, rfl, rfl⟩
  · exact ⟨le_refl _, rfl, rfl⟩

/-- What a pass leaves, as its departure step goes. -/
theorem Rolled.pass {ds : List World} (h : Rolled env ds w) :
    Rolled env (ds ++ (departure? env w).toList) (pass env w).2 := by
  have happroach : Rolled env ds (approach env w).2 :=
    ((Rolled.clockwork ds).approach Rolled.schedule).apply h
  rw [Service.pass, guarded_state, doBitcoin_eq, departure?]
  rcases hrun : approach env w with ⟨e | reached, t⟩
  · rw [Prog.bind_of_error hrun]
    rw [hrun] at happroach
    rw [Option.toList_none, List.append_nil]
    exact happroach
  · rw [Prog.bind_of_ok hrun]
    rw [hrun] at happroach
    cases reached with
    | false =>
        rw [Option.toList_none, List.append_nil]
        exact happroach
    | true => exact happroach.anchorWhenDue

/-- The departure steps behind are in the past, and while a process runs its clock is rolled. -/
structure Kept (env : Env) (ds : List World) (w : World) : Prop where
  past : ∀ d ∈ ds, d.tick ≤ w.tick
  rolled : w.running = true → Rolled env ds w

theorem Rolled.toKept {ds : List World} (h : Rolled env ds w) : Kept env ds w :=
  ⟨h.past, fun _ => h⟩

/-- A start arms the clock before the process is up. -/
theorem kept_start {ds : List World} (h : ∀ d ∈ ds, d.tick ≤ w.tick) {config : Config}
    (hconfig : 0 < config.minTxInterval) :
    Kept env ds (runProgram ((Event.start config).program env) w) := by
  have hstart : Prog.wp (start env config) (fun _ t => Rolled env ds t)
      (fun _ t => ∀ d ∈ ds, d.tick ≤ t.tick) w := by
    rw [Service.start, Prog.wp_bind, Prog.wp_modify, Prog.wp_bind]
    refine Prog.wp_mono ((Behind.clockwork ds).openCalendar _ ⟨h, hconfig⟩)
      (fun _ t ht => ?_) fun _ _ ht => ht.past
    rw [Prog.wp_bind]
    have hrolled : Rolled env ds (schedule env t).2 := ht.schedule
    refine Prog.wp_of_ok (a := ()) (t := (schedule env t).2) rfl ?_
    exact Prog.wp_mono ((Rolled.clockwork ds).openStamper _ hrolled)
      (fun _ _ hu => hu) fun _ _ hu => hu.past
  rw [Prog.wp] at hstart
  rcases hrun : Service.start env config w with ⟨e | _, t⟩
  · rw [hrun] at hstart
    have hstop : (Event.start config).program env w = (.error .stop, t) := by
      rw [Event.program]
      exact Prog.handle_of_error hrun rfl
    rw [runProgram, hstop]
    exact ⟨hstart, fun hup => absurd hup Bool.false_ne_true⟩
  · rw [hrun] at hstart
    have hup : (Event.start config).program env w = (.ok (), t) := by
      rw [Event.program]
      exact Prog.handle_of_ok hrun
    rw [runProgram, hup]
    exact hstart.toKept

theorem Kept.step {ds : List World} (h : Kept env ds w) {e : Event} (hen : e.Enabled w.toState)
    (hinterval : ∀ config, e = .start config → 0 < config.minTxInterval) :
    Kept env (ds ++ e.departs env w) (runProgram (e.program env) w) := by
  have hkeeps : ∀ m : M Unit, w.running = true → Prog.Keeps (Rolled env ds) m →
      Kept env (ds ++ []) (runProgram m w) := by
    intro m hup hm
    rw [List.append_nil]
    exact (Rolled.clockwork ds _ _ (runProgram_leaves m w) (hm.apply (h.rolled hup))).toKept
  have hclock : Clockwork (Rolled env ds) := Rolled.clockwork ds
  cases e with
  | start config =>
      change Kept env (ds ++ []) _
      rw [List.append_nil]
      exact kept_start h.past (hinterval config rfl)
  | append commitment records => exact hkeeps _ hen.1 (hclock.appendEntry commitment records)
  | count => exact hkeeps _ hen hclock.writeCount
  | fill => exact hkeeps _ hen hclock.fill
  | pass => exact (Rolled.clockwork _ _ _ (runProgram_leaves _ w) (h.rolled hen).pass).toKept
  | settle => exact hkeeps _ hen hclock.settlePendingReceipt
  | leave => exact hkeeps _ hen hclock.leave
  | kill => exact hkeeps _ hen (.raise _)

/-- Over a run of any events, in any order. -/
theorem Kept.run (es : List Event) :
    ∀ {w : World} {ds : List World}, Kept env ds w → Possible env es w →
    (∀ config, .start config ∈ es → 0 < config.minTxInterval) →
      Kept env (ds ++ departures env es w) (runEvents env es w) := by
  induction es with
  | nil =>
      intro w ds h _ _
      rw [departures, List.append_nil]
      exact h
  | cons e es ih =>
      intro w ds h hpossible hinterval
      rw [departures, ← List.append_assoc]
      have hstep := h.step hpossible.1 fun config he => hinterval config (he ▸ List.mem_cons_self)
      exact ih hstep hpossible.2 fun config hmem => hinterval config (List.mem_cons_of_mem _ hmem)

/-! ## What a pass sends -/

/-- The surroundings with other answers to `sendrawtransaction`. -/
def Env.answering (env : Env) (answers : Nat → Tx → Except Exc Unit) : Env :=
  { env with sendrawtransaction := answers }

/-- The pass sends a transaction: the answer to `sendrawtransaction` matters to it. -/
def Broadcasts (env : Env) (w : World) : Prop :=
  ∃ answers, pass (env.answering answers) w ≠ pass env w

theorem approach_answering (answers : Nat → Tx → Except Exc Unit) :
    approach (env.answering answers) = approach env :=
  rfl

theorem doBitcoin_answering (answers : Nat → Tx → Except Exc Unit) (h : ∀ t,
      departure? env w = some t → anchorWhenDue (env.answering answers) t = anchorWhenDue env t) :
    doBitcoin (env.answering answers) w = doBitcoin env w := by
  rw [doBitcoin_eq, doBitcoin_eq, approach_answering]
  rcases hrun : approach env w with ⟨e | reached, t⟩
  · rw [Prog.bind_of_error hrun, Prog.bind_of_error hrun]
  · rw [Prog.bind_of_ok hrun, Prog.bind_of_ok hrun]
    cases reached with
    | false => rfl
    | true => exact h t (by rw [departure?, hrun])

theorem anchorWhenDue_answering (answers : Nat → Tx → Except Exc Unit)
    (h : w.stamper.nextTimestampTx ≤ env.clock w.tick → w.stamper.pendingCommitments = []) :
    anchorWhenDue (env.answering answers) w = anchorWhenDue env w := by
  let later : World := { w with tick := w.tick + 1 }
  have hstep : ∀ send : M Unit,
      (if w.stamper.nextTimestampTx - env.clock w.tick > 0 then pure () else
      if w.stamper.pendingCommitments = [] then if w.stamper.unconfirmedTxs = [] then
        schedule env else pure ()
      else send : M Unit) later =
        (if w.stamper.nextTimestampTx - env.clock w.tick > 0 then pure () else
          if w.stamper.unconfirmedTxs = [] then schedule env else pure () : M Unit) later := by
    intro send
    split_ifs with hwait hpending
    · rfl
    · rfl
    · rfl
    all_goals exact absurd (h (sub_nonpos.mp (not_lt.mp hwait))) hpending
  exact (hstep (sendAnchor (env.answering answers))).trans (hstep (sendAnchor env)).symm

/-- A transaction is sent only at a departure step that finds the clock expired and commitments
pending. -/
theorem Broadcasts.due (h : Broadcasts env w) :
    ∃ t, departure? env w = some t ∧ t.stamper.nextTimestampTx ≤ env.clock t.tick ∧
    t.stamper.pendingCommitments ≠ [] := by
  obtain ⟨answers, hne⟩ := h
  by_contra hnot
  refine hne ?_
  have hsame : doBitcoin (env.answering answers) w = doBitcoin env w :=
    doBitcoin_answering answers fun t ht => anchorWhenDue_answering answers fun hdue =>
      not_not.mp fun hpending => hnot ⟨t, ht, hdue, hpending⟩
  rw [pass, pass, guarded, guarded, Prog.handle, Prog.handle, hsame]

/-! ## The idle departure step -/

/-- After an idle departure step the clock lies in the future of the time it was read. -/
theorem idle_future {ds : List World} (h : Behind ds w) (huniform : ∀ n, 1 ≤ env.uniform n)
    (hidle : w.Idle) :
    ∃ n, w.tick ≤ n ∧ n < (anchorWhenDue env w).2.tick ∧
      env.clock n < (anchorWhenDue env w).2.stamper.nextTimestampTx := by
  change ∃ n, _ ∧ n < ((if w.stamper.nextTimestampTx - env.clock w.tick > 0 then pure () else
      if w.stamper.pendingCommitments = [] then if w.stamper.unconfirmedTxs = [] then
        schedule env else pure ()
      else sendAnchor env : M Unit) { w with tick := w.tick + 1 }).2.tick ∧
    env.clock n < ((if w.stamper.nextTimestampTx - env.clock w.tick > 0 then pure () else
      if w.stamper.pendingCommitments = [] then if w.stamper.unconfirmedTxs = [] then
        schedule env else pure ()
      else sendAnchor env : M Unit) { w with tick := w.tick + 1 }).2.stamper.nextTimestampTx
  split_ifs with hwait hpending hflight
  · exact ⟨w.tick, le_refl _, Nat.lt_succ_self _, sub_pos.mp hwait⟩
  · refine ⟨w.tick + 1, Nat.le_succ _, Nat.lt_add_of_pos_right Nat.two_pos, ?_⟩
    have hlong : w.stamper.config.minTxInterval ≤
        w.stamper.config.minTxInterval * env.uniform (w.tick + 2) :=
      le_mul_of_one_le_right h.interval.le (huniform _)
    exact lt_add_of_pos_right _ (h.interval.trans_le hlong)
  · exact absurd hidle.2 hflight
  · exact absurd hidle.1 hpending

theorem pass_state {t : World} (h : departure? env w = some t) :
    (pass env w).2 = (anchorWhenDue env t).2 := by
  rw [pass, guarded_state, doBitcoin_eq]
  rcases hrun : approach env w with ⟨e | reached, u⟩
  · rw [departure?, hrun] at h
    exact nomatch h
  · rw [departure?, hrun] at h
    cases reached with
    | false => exact nomatch h
    | true =>
        obtain rfl := Option.some.inj h
        rw [Prog.bind_of_ok hrun]
        rfl

/-- No submission triggers a transaction. In every run, a pass that sends one, the first of a cycle
or a later one, comes to its departure step at or after the expiry of a clock that an earlier call
armed, and no idle departure step came between: neither after the clock was armed, nor, where time
does not go back, ever. After every idle departure step the clock lies in the future. -/
theorem no_submission_departs (huniform : ∀ n, 1 ≤ env.uniform n)
    {es : List Event} (hdown : w.running = false) (hpossible : Possible env es w)
    (hinterval : ∀ config, .start config ∈ es → 0 < config.minTxInterval)
    (hup : (runEvents env es w).running = true) :
    (Broadcasts env (runEvents env es w) →
      ∃ t m, departure? env (runEvents env es w) = some t ∧ ArmedAt env t m ∧
        env.clock m < t.stamper.nextTimestampTx ∧
        t.stamper.nextTimestampTx ≤ env.clock t.tick ∧
        (∀ d ∈ departures env es w, m < d.tick →
          t.stamper.nextTimestampTx ≤ env.clock d.tick → ¬ d.Idle) ∧
        (Monotone env.clock → ∀ d ∈ departures env es w,
          t.stamper.nextTimestampTx ≤ env.clock d.tick → ¬ d.Idle)) ∧
    ∀ t, departure? env (runEvents env es w) = some t → t.Idle →
      ∃ n, t.tick ≤ n ∧ n < (pass env (runEvents env es w)).2.tick ∧
        env.clock n < (pass env (runEvents env es w)).2.stamper.nextTimestampTx := by
  have hempty : Kept env [] w := ⟨fun _ hd => (nomatch hd), fun h => nomatch hdown.symm.trans h⟩
  have hkept := hempty.run es hpossible hinterval
  have hrolled : Rolled env (departures env es w) (runEvents env es w) := hkept.rolled hup
  have hreached : ∀ t, departure? env (runEvents env es w) = some t →
      Rolled env (departures env es w) t := by
    intro t ht
    have hclock : Clockwork (Rolled env (departures env es w)) := Rolled.clockwork _
    have happroach := (hclock.approach Rolled.schedule).apply hrolled
    rw [departure?] at ht
    rcases hrun : approach env (runEvents env es w) with ⟨e | reached, u⟩
    · rw [hrun] at ht
      exact nomatch ht
    · rw [hrun] at ht happroach
      cases reached with
      | false => exact nomatch ht
      | true =>
          obtain rfl := Option.some.inj ht
          exact happroach
  constructor
  · intro hbroadcasts
    obtain ⟨t, ht, hdue, -⟩ := hbroadcasts.due
    obtain ⟨hbehind, m, harmed, hidle⟩ := hreached t ht
    have hlong : t.stamper.config.minTxInterval ≤
        t.stamper.config.minTxInterval * env.uniform (m + 1) :=
      le_mul_of_one_le_right hbehind.interval.le (huniform _)
    have hfuture : env.clock m < t.stamper.nextTimestampTx := by
      rw [harmed.next]
      exact lt_add_of_pos_right _ (hbehind.interval.trans_le hlong)
    refine ⟨t, m, ht, harmed, hfuture, hdue, hidle, fun hmono d hd hle => hidle d hd ?_ hle⟩
    -- A step from before the clock was armed read an earlier time.
    by_contra hbefore
    exact absurd (hmono (Nat.le_of_not_lt hbefore)) (not_le.mpr (hfuture.trans_le hle))
  · intro t ht hidle
    rw [pass_state ht]
    exact idle_future (hreached t ht).toBehind huniform hidle

end Runs

namespace Rehearsal

/-- The course with a clock that goes on with every call. -/
def ticking : Env := { course.env lib with clock := fun n => 10000 * n, uniform := fun _ => 1 }

/-- An entry is taken and waits for the clock. -/
def waiting : List Event := [.start (config 10 true), .append entry (some 3), .count, .fill]

theorem waiting_start {config' : Config} (h : .start config' ∈ waiting) :
    config' = config 10 true := by
  simpa [waiting] using h

end Rehearsal

/-- The first anchor, sent on the clock that the start armed. -/
theorem first_anchor_departs_on_time :
    ∃ t m, departure? Rehearsal.ticking (runEvents Rehearsal.ticking Rehearsal.waiting
        (.empty (Rehearsal.config 10 true))) = some t ∧ ArmedAt Rehearsal.ticking t m ∧
      Rehearsal.ticking.clock m < t.stamper.nextTimestampTx ∧
      t.stamper.nextTimestampTx ≤ Rehearsal.ticking.clock t.tick := by
  have hbroadcasts : Broadcasts Rehearsal.ticking
      (runEvents Rehearsal.ticking Rehearsal.waiting (.empty (Rehearsal.config 10 true))) :=
    ⟨fun _ _ => .error .stop, fun h =>
      absurd (congrArg (fun r => r.2.stamper.unconfirmedTxs.length) h) (by decide +kernel)⟩
  obtain ⟨t, m, ht, harmed, hfuture, hdue, -⟩ :=
    (no_submission_departs (fun _ => le_refl _) rfl (by decide +kernel) (fun config' h =>
        by rw [Rehearsal.waiting_start h]; decide +kernel) (by decide +kernel)).1 hbroadcasts
  exact ⟨t, m, ht, harmed, hfuture, hdue⟩

end OtsServer.Service
