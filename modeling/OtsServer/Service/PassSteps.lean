import OtsServer.Service.ReceiptSteps
import Mathlib.Algebra.Order.BigOperators.Group.List

/-!
# Passes as moves

The fill pass, the blocks, the saves and the sending make moves, whatever the node and the
file system answer and wherever one of them raises.
-/

namespace OtsServer.Service

variable {env : Env} {allowed : Config → Prop}

/-! ## Programs that only ask -/

section Silent

variable {α β : Type} {s t : State}

/-- The program leaves the state as it was. -/
def Silent (m : M α) : Prop := ∀ s : State, Prog.Keeps (fun w : World => w.toState = s) m

theorem Silent.does {m : M α} (hm : Silent m) {Q : α → State → Prop} {E : Exc → State → Prop}
    (hok : ∀ a, Q a s) (herr : ∀ e, E e s) : Does m Q E s :=
  ⟨fun w hw => Prog.wp_mono (hm s w hw) (fun a _ ht => ht ▸ hok a) fun e _ ht => ht ▸ herr e⟩

theorem silent_ask (f : Nat → Except Exc α) : Silent (ask f) := by
  intro s w hw
  rw [Prog.wp, ask]
  cases f w.tick <;> exact hw

theorem silent_fetchBlock (hash : Bytes) : Silent (fetchBlock env hash) := by
  refine fun s => .bind (.gets _) fun patience => .loop (fun _ => ?_) (fun _ => .raise _) _ _
  refine .handle (.bind (silent_ask _ s) fun _ => .pure _) fun e n hn => ?_
  cases e <;> cases hn
  · exact .pure _
  · exact .bind (silent_ask _ s) fun _ => .pure _

theorem silent_replaceable (unspent : Unspent) : Silent (replaceable env unspent) := by
  refine fun s => .bind (silent_ask _ s) fun tx => ?_
  split
  · refine .handle (.bind (silent_ask _ s) fun _ => .bind (silent_ask _ s) fun _ =>
        .pure _) fun e n hn => ?_
    cases e <;> cases hn
    exact .pure _
  · exact .pure _

theorem silent_findUnspent : Silent (findUnspent env) := by
  refine fun s => .bind (silent_ask _ s) fun listed => .ite (fun _ => .pure _) fun _ => ?_
  refine .bind (silent_ask _ s) fun _ =>
    .bind (.loop (fun r => ?_) (fun _ => .pure _) _ _) fun _ => .pure _
  split
  · exact .pure _
  · exact .bind (silent_replaceable _ s) fun _ => .pure _

theorem silent_getTxFee (tx : Tx) : Silent (getTxFee env tx) := by
  refine fun s =>
    .handle (.bind (.loop (fun r => ?_) (fun _ => .pure _) _ _) fun _ => .pure _) fun e n hn => ?_
  · split
    · exact .pure _
    · exact .bind (silent_ask _ s) fun _ => .pure _
  · cases e <;> cases hn
    exact .pure _

theorem silent_openCycle : Silent (openCycle env) := by
  refine fun s => .bind (silent_findUnspent s) fun unspent => ?_
  split
  · exact .pure _
  · refine .bind (silent_ask _ s) fun _ => .bind (silent_ask _ s) fun r =>
      .ite (fun _ => .pure _) fun _ => ?_
    exact .bind (silent_ask _ s) fun _ => .bind (.gets _) fun _ => .pure _

theorem silent_previousTx : Silent (previousTx env) := by
  refine fun s => .bind (.gets _) fun m => ?_
  split
  · exact .pure _
  · exact silent_openCycle s

end Silent

/-! ## Fill pass -/

section Fill

variable {s t : State}

theorem does_getCount {idx : Nat} {Q : Option Nat → State → Prop} {E : Exc → State → Prop}
    (h : ∀ count, (∀ n, count = some n → countValue (countBytes s.disk.counts idx) = some n) →
      Q count s) (hstop : E .stop s) : Does (getCount env idx) Q E s := by
  refine does_guarded (.bind (does_fileCall ?_ fun e he => ⟨?_, fun _ _ => ?_⟩))
  · exact does_gets (fun s => countValue (countBytes s.disk.counts idx)) (fun _ => rfl)
      (h _ fun _ hn => hn)
  · rintro (rfl | rfl)
    · exact hstop
    · obtain h | ⟨_, h⟩ := he <;> exact nomatch h
  · exact .pure (h none (by simp))

/-- The state as the pass would leave it if the scan ended here. -/
def State.looked (s : State) : State :=
  s.setStamper fun m => { m with journalCursor := some m.scanIdx }

/-- The scan has made moves, up to the cursor that the end of the pass sets. -/
structure Scans (env : Env) (allowed : Config → Prop) (s t : State) : Prop where
  reaches : Reaches env allowed s t.looked

theorem Scans.stopped (h : Scans env allowed s t) : Stopped env allowed s t :=
  ⟨t.looked, h.reaches.moves, rfl, rfl⟩

/-- How a round of the scan, or the scan, may raise. -/
structure ScanFails (env : Env) (allowed : Config → Prop) (s : State) (e : Exc) (t : State) :
    Prop where
  stopped : e = .stop → Stopped env allowed s t
  raised : e ≠ .stop → e ≠ .systemExit ∧ Scans env allowed s t

theorem does_takeEntry (ht : Scans env allowed s t) {commitment : Bytes}
    (hentry : journalEntry t.disk.journal t.stamper.scanIdx = some commitment)
    (hheld : t.db.holds (.commitment commitment) = false) :
    Does (takeEntry env commitment t.stamper.scanIdx)
      (fun _ u => Scans env allowed s (u.setStamper fun m => { m with scanIdx := m.scanIdx + 1 }))
      (fun e u => e = .stop ∧ Stopped env allowed s u) t := by
  have htake := fun count h =>
    ht.reaches.move (.take _ commitment count hentry hheld h) ht.reaches.running
  refine .bind (does_modifyStamper
      (.bind (does_gets (·.stamper.config.receiptsOn) (fun _ => rfl) ?_)))
  refine .ite (fun hon => ?_) fun _ => .pure ⟨htake none trivial⟩
  refine .bind (does_getCount (fun count hcount => ?_) ⟨rfl, ?_⟩)
  · cases count with
    | none => exact .pure ⟨htake none trivial⟩
    | some count => exact does_modifyStamper ⟨htake (some count) ⟨hon, hcount count rfl⟩⟩
  · exact ⟨_, (htake none trivial).moves, rfl, rfl⟩

theorem does_scanEntry (ht : Scans env allowed s t) :
    Does (scanEntry env) (fun _ => Scans env allowed s) (ScanFails env allowed s) t := by
  have hfile : ∀ e, IsFileError e → ScanFails env allowed s e t := by
    refine fun e he => ⟨fun _ => ht.stopped, fun _ => ⟨?_, ht⟩⟩
    rintro rfl
    obtain h | ⟨_, h⟩ := he <;> exact nomatch h
  have hdb : ∀ e, e = .stop ∨ e = .levelDb → ScanFails env allowed s e t := by
    refine fun e he => ⟨fun _ => ht.stopped, fun _ => ⟨?_, ht⟩⟩
    rintro rfl
    obtain h | h := he <;> exact nomatch h
  refine .bind (does_gets (·.stamper) (fun _ => rfl) (.ite (fun _ => ?_) fun _ => .pure ht))
  refine .bind (does_fileCall (.bind (does_gets (·.disk.journal) (fun _ => rfl) ?_)) hfile)
  cases hentry : journalEntry t.disk.journal t.stamper.scanIdx with
  | none => exact .pure ht
  | some commitment =>
      refine .bind (does_dbContains ?_ hdb)
      cases hheld : t.db.holds (.commitment commitment) with
      | true =>
          have hskip := ht.reaches.move (.skip _ commitment hentry hheld) ht.reaches.running
          exact .bind (does_modifyStamper (.pure ⟨hskip⟩))
      | false =>
          refine .bind ((does_takeEntry ht hentry hheld).mono ?_ ?_)
          · exact fun _ u hu => .bind (does_modifyStamper (.pure hu))
          · exact fun e u hu => ⟨fun _ => hu.2, fun he => absurd hu.1 he⟩

theorem refines_fill : Refines env allowed (fill env) := by
  intro s hs
  refine .bind (.gets_any fun rounds => .bind (does_guarded ?_))
  have hlook : Scans env allowed s s := ⟨(Reaches.refl hs).move (.look s) hs⟩
  have hend : ∀ t, Scans env allowed s t →
      Does (modifyStamper fun m => { m with journalCursor := some m.scanIdx })
          (fun _ => Reaches env allowed s) (Fails env allowed s) t :=
    fun t ht => does_modifyStamper ht.reaches
  refine (Prog.Sees.loop (fun _ _ t => Scans env allowed s t)
    (fun _ _ t ht => (does_scanEntry ht).mono (fun r _ h => by cases r <;> exact h) fun _ _ h => h)
    (fun _ t ht => .pure ht) rounds () hlook).mono (fun _ t ht => hend t ht) ?_
  refine fun e t ht => ⟨?_, fun he _ => .pure (hend t (ht.raised he).2)⟩
  rintro (rfl | rfl)
  · exact ⟨fun _ => ht.stopped rfl, fun h => absurd rfl h⟩
  · exact absurd rfl (ht.raised nofun).1

end Fill

/-! ## Saves -/

section Saves

variable {s t : State}

theorem does_writeJournalCheckpoint (hs : s.running = true) {idx : Option Nat}
    (hidx : ∀ n, idx = some n → s.db.watermark = n) :
    Does (writeJournalCheckpoint env idx) (fun _ => Reaches env allowed s)
      (Fails env allowed s) s := by
  have hrefl : Reaches env allowed s s := .refl hs
  have hfail := fun e (_ : IsFileError e) => hrefl.fails e
  refine .bind (does_gets (·.db) (fun _ => rfl) ?_)
  split
  next n generation hgen =>
    have hwritten := hrefl.move (.checkpoint s n generation hs hgen (hidx n rfl)) hs
    refine does_guarded (Prog.Sees.mono (Q := fun _ => Reaches env allowed s)
      (E := fun _ => Reaches env allowed s) ?_ (fun _ _ h => h) fun e t h =>
        ⟨fun _ => h.fails e, fun _ _ => .pure h⟩)
    refine .bind (does_fileCall ?_ fun _ _ => hrefl)
    refine .bind (does_fileCall ?_ fun _ _ => hrefl)
    refine .bind (does_fileCall ?_ fun _ _ => hrefl)
    refine .bind (does_fileEffect ?_ fun _ _ => hrefl)
    exact does_fsyncDir hwritten fun _ _ => hwritten
  next => exact .pure hrefl

theorem refines_saveTree (height : Int) : Refines env allowed (saveTree env height) := by
  intro s hs
  refine .bind (does_gets (·.stamper) (fun _ => rfl) ?_)
  cases hwaits : s.stamper.txsWaitingForConfirmation.lookup height with
  | none => exact .raise ((Reaches.refl hs).fails _)
  | some confirmed =>
      refine .bind (does_note ?_)
      have hrefl : Reaches env allowed s s := .refl hs
      have hlog := hrefl.move (.log s s.history.discovery
        (s.history.handed ++ [⟨height, s.history.blockAt.lookup height, s.history.discovery,
          s.stamper.config.minConfirmations⟩])) hs
      refine .bind (does_guarded
          (.bind ((does_saveConfirmedTimestampTx env allowed hlog.running hwaits).mono ?_ ?_)))
      · rintro - u ⟨t, receipts, markers, hlt, hstamper, hout, rfl⟩
        refine .pure (.bind (does_modifyStamper ?_))
        have hwaits' : t.stamper.txsWaitingForConfirmation.lookup height = some confirmed :=
          hstamper ▸ hwaits
        have hsave := (hlog.trans hlt).move
          (.save t height confirmed receipts markers hlt.running hwaits' hout) hlt.running
        rw [show checkpointAfter s.stamper confirmed = checkpointAfter t.stamper confirmed by
          rw [hstamper]; rfl]
        refine (does_writeJournalCheckpoint hsave.running fun n hn => ?_).mono
          (fun _ _ h => hsave.trans h) fun _ _ h => hsave.fails_trans h
        exact congrArg (Option.getD · _) hn
      · exact fun e t ht =>
          ⟨fun _ => hlog.fails_trans ht, fun he _ => .pure (.pure (hlog.trans (ht.raised he)))⟩

theorem refines_saveMatureTrees (bestHeight : Int) :
    Refines env allowed (saveMatureTrees env bestHeight) :=
  .bind (.gets _) fun _ => .forEach refines_saveTree _

end Saves

/-! ## Blocks -/

section Blocks

variable {s t : State}

theorem moves_adjust (s : State) (f : Stamper → Stamper)
    (hf : ∀ m : Stamper, f m = { m with
      knownBlocks := (f m).knownBlocks, unprocessedBlocks := (f m).unprocessedBlocks,
      nextTimestampTx := (f m).nextTimestampTx, refusedAnchor := (f m).refusedAnchor }) :
    Moves env.lib allowed s (s.setStamper f) := by
  have h : Move env.lib allowed s _ := .adjust s (f s.stamper).knownBlocks
    (f s.stamper).unprocessedBlocks (f s.stamper).nextTimestampTx (f s.stamper).refusedAnchor
  rw [show s.setStamper f = s.setStamper fun _ => f s.stamper from rfl, hf s.stamper]
  exact .single h

theorem refines_setKnownBlocks (f : List KnownBlock → List KnownBlock) :
    Refines env allowed (setKnownBlocks f) :=
  .modifyStamper fun s _ => moves_adjust s _ fun _ => rfl

theorem refines_schedule : Refines env allowed (schedule env) :=
  .bind (.ask _) fun _ => .bind (.ask _) fun _ => .modifyStamper fun s _ =>
    moves_adjust s _ fun _ => rfl

theorem refines_blockHashAt (height : Int) : Refines env allowed (blockHashAt env height) := by
  refine .handle (.bind (.ask _) fun _ => .pure _) rfl fun e n hn => ?_
  cases e <;> cases hn
  exact .pure _

theorem refines_detectReorgs : Refines env allowed (detectReorgs env) := by
  refine .bind (.gets _) fun _ =>
    .loop (fun _ => .bind (.gets _) fun blocks => ?_) (fun _ => .pure _) _ _
  split
  · exact .pure _
  · refine .bind (refines_blockHashAt _) fun _ => .ite (fun _ => .pure _) fun _ => ?_
    exact .bind (refines_setKnownBlocks _) fun _ => .pure _

theorem refines_discover (read : List KnownBlock) : Refines env allowed (discover env read) := by
  refine .bind (.bind (.gets _) fun blocks => ?_) fun best => .ite (fun _ => .pure _) fun _ => ?_
  · split
    · exact .pure _
    · exact .bind (.ask _) fun _ => .pure _
  refine .bind refines_detectReorgs fun _ =>
    .bind (.bind (.gets _) fun blocks => ?_) fun height => ?_
  · split
    · exact .ask _
    · exact .pure _
  refine .bind (refines_blockHashAt _) fun hash => ?_
  split
  · exact .pure _
  · exact .bind (refines_setKnownBlocks _) fun _ => .pure _

/-- A raise in the discovery restores the known blocks, whatever ends it. -/
theorem refines_updateFromProxy : Refines env allowed (updateFromProxy env) := by
  refine .bind (.gets _) fun known => .bind (.gets _) fun patience => .bind ?_ fun read => ?_
  · refine fun s hs => .handle ((Refines.loop refines_discover (fun _ => .raise _) _ _ s hs).mono
      (fun _ _ h => h) fun e t ht =>
        .bind (does_modifyStamper (.raise ⟨fun he => ?_, fun he => ?_⟩)))
    · obtain ⟨u, hu, hd, hh⟩ := ht.stopped he
      exact ⟨u, hu, hd, hh⟩
    · exact ⟨(ht.raised he).moves.trans (moves_adjust t _ fun _ => rfl), (ht.raised he).running⟩
  · refine .bind (.gets _) fun calls => .bind (fun s hs => does_note ?_) fun _ => .pure _
    exact (Reaches.refl hs).move (.log s (calls - 1) s.history.handed) hs

variable (env allowed) in
theorem does_requeue (hs : s.running = true) (height : Int) {E : Exc → State → Prop} :
    Does (requeue height) (fun _ t => Reaches env allowed s t ∧
      t.stamper.txsWaitingForConfirmation.lookup height = none) E s := by
  refine does_modifyStamper ?_
  cases hwaits : s.stamper.txsWaitingForConfirmation.lookup height with
  | none =>
      rw [State.setStamper, hwaits]
      exact ⟨.refl hs, hwaits⟩
  | some reorged =>
      rw [State.setStamper, hwaits]
      exact ⟨(Reaches.refl hs).move (.requeue s height reorged hwaits) hs, AList.lookup_erase _ _⟩

theorem does_confirmTx (hs : s.running = true) {block : Block} {height : Int} {hash : Bytes}
    {u : UnconfirmedTimestampTx} (hu : u ∈ s.stamper.unconfirmedTxs)
    (hnone : s.stamper.txsWaitingForConfirmation.lookup height = none) :
    Does (confirmTx env block height hash u) (fun _ => Reaches env allowed s)
      (Fails env allowed s) s := by
  have hrefl : Reaches env allowed s s := .refl hs
  refine .bind (.ofExcept (fun _ _ => ?_) fun e _ => hrefl.fails e)
  refine .bind (does_gets id (fun _ => rfl) (.ite (fun _ => .raise (hrefl.fails _)) fun _ => ?_))
  have hconfirm := hrefl.move (.confirm s height hash u hu hnone) hs
  exact .bind (does_modifyStamper (.bind (does_note (refines_schedule.from hconfirm))))

theorem refines_processBlock (known : KnownBlock) :
    Refines env allowed (processBlock env known) := by
  refine fun s hs => .bind ((does_requeue env allowed hs known.height).mono ?_ fun _ _ h => h)
  rintro - t ⟨hst, hnone⟩
  refine .bind ((silent_fetchBlock known.hash).does (fun block => ?_) fun e => hst.fails e)
  cases block with
  | none => exact .pure hst
  | some block =>
      refine .bind (does_gets (·.stamper.unconfirmedTxs) (fun _ => rfl) ?_)
      dsimp only
      split
      next => exact .pure hst
      next u hu =>
        refine .bind ((does_confirmTx hst.running ?_ hnone).mono (fun _ _ h => .pure (hst.trans h))
          fun _ _ h => hst.fails_trans h)
        exact List.mem_reverse.mp (List.mem_of_find?_eq_some hu)

theorem refines_processBlocks : Refines env allowed (processBlocks env) := by
  refine .bind (.gets _) fun rounds =>
    .loop (fun _ => .bind (.gets _) fun queue => ?_) (fun _ => .pure _) _ _
  split
  · exact .pure _
  · refine .bind (refines_processBlock _) fun done => .ite (fun _ => ?_) fun _ => .pure _
    exact .bind (.modifyStamper fun s _ => moves_adjust s _ fun _ => rfl) fun _ => .pure _

end Blocks

/-! ## Sending -/

section Send

variable {s t : State}

/-- What sending keeps: the pending commitments, and no record count is lost. -/
structure Sends (env : Env) (allowed : Config → Prop) (s t : State) : Prop where
  reaches : Reaches env allowed s t
  pending : t.stamper.pendingCommitments = s.stamper.pendingCommitments
  records : ∀ c, (s.stamper.commitmentRecords.lookup c).getD 0 ≤
    (t.stamper.commitmentRecords.lookup c).getD 0

theorem Sends.refl (hs : s.running = true) : Sends env allowed s s :=
  ⟨.refl hs, rfl, fun _ => le_rfl⟩

theorem Sends.trans {u : State} (h : Sends env allowed s t) (h' : Sends env allowed t u) :
    Sends env allowed s u :=
  ⟨h.reaches.trans h'.reaches, h'.pending.trans h.pending, fun c =>
    (h.records c).trans (h'.records c)⟩

theorem knownRecords_mono {m m' : AList fun _ : Bytes => Nat}
    (h : ∀ c, (m.lookup c).getD 0 ≤ (m'.lookup c).getD 0) (commitments : List Bytes) :
    knownRecords m commitments ≤ knownRecords m' commitments :=
  List.sum_le_sum fun c _ => h c

theorem does_countCommitment (hs : s.running = true) (hon : s.stamper.config.receiptsOn = true)
    (commitment : Bytes) :
    Does (countCommitment env commitment)
      (fun count t => Sends env allowed s t ∧ t.stamper.config = s.stamper.config ∧
        count ≤ (t.stamper.commitmentRecords.lookup commitment).getD 0)
      (Fails env allowed s) s := by
  have hrefl : Sends env allowed s s := .refl hs
  refine .bind (does_gets (·.stamper) (fun _ => rfl) ?_)
  cases hcount : s.stamper.commitmentRecords.lookup commitment with
  | some count => exact .pure ⟨hrefl, rfl, by rw [hcount]; rfl⟩
  | none =>
      dsimp only
      cases hidx : s.stamper.commitmentIdxs.lookup commitment with
      | none => exact .pure ⟨hrefl, rfl, Nat.zero_le _⟩
      | some idx =>
          refine .bind (does_getCount (fun count hread => ?_) (hrefl.reaches.fails _))
          cases count with
          | none => exact .pure ⟨hrefl, rfl, Nat.zero_le _⟩
          | some count =>
              have hreread :=
                hrefl.reaches.move (.reread s commitment idx count hidx ⟨hon, hread count rfl⟩) hs
              refine .bind (does_modifyStamper (.pure ⟨⟨hreread, rfl, fun c => ?_⟩, rfl, ?_⟩))
              · change _ ≤ ((s.stamper.commitmentRecords.insert commitment count).lookup c).getD 0
                by_cases hc : c = commitment
                · rw [hc, hcount]
                  exact Nat.zero_le _
                · rw [AList.lookup_insert_ne hc]
              · change _ ≤
                  ((s.stamper.commitmentRecords.insert commitment count).lookup commitment).getD 0
                rw [AList.lookup_insert]
                exact le_rfl

/-- The sum over a tree is at most what its counts, as they are known then, add up to. -/
theorem does_countTreeRecords (commitments : List Bytes) : ∀ (s : State), s.running = true →
    s.stamper.config.receiptsOn = true →
    Does (countTreeRecords env commitments)
      (fun records t => Sends env allowed s t ∧
        records ≤ knownRecords t.stamper.commitmentRecords commitments)
      (Fails env allowed s) s := by
  induction commitments with
  | nil => exact fun s hs _ => .pure ⟨.refl hs, le_rfl⟩
  | cons commitment rest ih =>
      intro s hs hon
      refine .bind ((does_countCommitment hs hon commitment).mono ?_ fun _ _ h => h)
      rintro count t ⟨hst, hconfig, hcount⟩
      refine .bind ((ih t hst.reaches.running (hconfig ▸ hon)).mono ?_ fun _ _ h =>
          hst.reaches.fails_trans h)
      rintro records u ⟨htu, hrecords⟩
      refine .pure ⟨hst.trans htu, ?_⟩
      rw [knownRecords, List.map_cons, List.sum_cons]
      exact Nat.add_le_add (hcount.trans (htu.records commitment)) hrecords

theorem does_trySend (hs : s.running = true) (prev : Tx) (tip : Bytes) (feerate next : ℚ) :
    Does (trySend env prev tip feerate next) (fun _ => Sends env allowed s)
      (Fails env allowed s) s := by
  have hrefl : Sends env allowed s s := .refl hs
  have hfail := fun e => hrefl.reaches.fails e
  refine .bind ((silent_ask _).does (fun height => ?_) hfail)
  refine .bind (.ofExcept (fun unsigned _ => ?_) fun e _ => hfail e)
  refine .bind ((silent_getTxFee _).does (fun fee => ?_) hfail)
  cases fee with
  | none =>
      refine .bind (does_modifyStamper (.pure ⟨?_, rfl, fun _ => le_rfl⟩))
      exact hrefl.reaches.move (.abandon s) hs
  | some fee =>
      refine .bind (does_gets (·.stamper) (fun _ => rfl) (.ite (fun _ => .pure hrefl) fun _ => ?_))
      split
      next => exact .raise (hfail _)
      next txin _ =>
        refine .ite (fun _ => .pure hrefl) fun _ => ?_
        refine .bind ((silent_ask _).does (fun r => .ite (fun _ => .pure hrefl) fun _ => ?_) hfail)
        refine .handle (.bind ((silent_ask _).does (fun _ => .pure hrefl) fun e => ?_))
        split
        next n hn =>
          split at hn
          · obtain rfl := Option.some.inj hn
            refine .ite (fun _ => .bind (does_modifyStamper (.pure ⟨?_, rfl, fun _ => le_rfl⟩)))
              fun _ => .pure hrefl
            exact ⟨moves_adjust s _ fun _ => rfl, hs⟩
          · exact nomatch hn
        next => exact hfail e

theorem does_sendLoop (hs : s.running = true) (prev : Tx) (tip : Bytes) (feerate : ℚ) :
    Does (sendLoop env prev tip feerate) (fun _ => Sends env allowed s)
      (Fails env allowed s) s := by
  refine .bind (.gets_any fun patience => .bind (.gets_any fun relay => ?_))
  refine .bind ((does_trySend hs prev tip feerate relay).mono ?_ fun _ _ h => h)
  intro first t hst
  cases first with
  | inr sent => exact .pure hst
  | inl feerate =>
      refine .loop (fun _ _ t => Sends env allowed s t) (fun _ feerate u hu => ?_)
        (fun _ u hu => .raise (hu.reaches.fails _)) patience feerate hst
      refine (does_trySend hu.reaches.running prev tip feerate feerate).mono (fun r v hv => ?_)
        fun _ _ h => hu.reaches.fails_trans h
      cases r <;> exact hu.trans hv

theorem does_sendAnchor (hs : s.running = true) (hpending : s.stamper.pendingCommitments ≠ []) :
    Does (sendAnchor env) (fun _ => Reaches env allowed s) (Fails env allowed s) s := by
  have hrefl : Sends env allowed s s := .refl hs
  refine .bind (silent_previousTx.does (fun prev => ?_) fun e => hrefl.reaches.fails e)
  obtain _ | ⟨prev, feerate⟩ := prev
  · exact .pure hrefl.reaches
  refine .bind (does_gets (·.stamper) (fun _ => rfl) ?_)
  have hend : ∀ records t (rest : Option (Tx × Int) → M Unit), rest none = pure () →
      (∀ tx fee, rest (some (tx, fee)) = modifyStamper fun m => { m with
        refusedAnchor := none
        unconfirmedTxs := m.unconfirmedTxs ++ [⟨tx, env.lib.merkleTip s.stamper.pendingCommitments,
          s.stamper.pendingCommitments.length, fee, records⟩] }) → Sends env allowed s t →
      records ≤ knownRecords t.stamper.commitmentRecords s.stamper.pendingCommitments →
      Does (do
        ask env.makeProxy
        let sent ← sendLoop env prev (env.lib.merkleTip s.stamper.pendingCommitments) feerate
        rest sent) (fun _ => Reaches env allowed s) (Fails env allowed s) t := by
    intro records t rest hnone hsome hst hrecords
    refine .bind ((silent_ask _).does (fun _ => ?_) fun e => hst.reaches.fails e)
    refine .bind ((does_sendLoop hst.reaches.running prev _ feerate).mono ?_ fun _ _ h =>
        hst.reaches.fails_trans h)
    intro sent u htu
    have hsu := hst.trans htu
    obtain _ | ⟨tx, fee⟩ := sent
    · rw [hnone]
      exact .pure hsu.reaches
    rw [hsome]
    have hadjust : Reaches env allowed s (u.setStamper fun m => { m with refusedAnchor := none }) :=
      hsu.reaches.trans ⟨moves_adjust u _ fun _ => rfl, hsu.reaches.running⟩
    refine does_modifyStamper
      (hadjust.move (.send _ ⟨tx, _, _, fee, records⟩ ?_ ?_ ?_) hadjust.running)
    · exact hsu.pending ▸ hpending
    · exact congrArg List.length hsu.pending.symm
    · refine hrecords.trans ((knownRecords_mono htu.records _).trans ?_)
      rw [← hsu.pending]
      exact le_rfl
  refine .ite (fun hon => ?_) fun _ => ?_
  · exact .bind ((does_countTreeRecords _ s hs hon).mono
        (fun records t h => hend records t _ rfl (fun _ _ => rfl) h.1 h.2) fun _ _ h => h)
  · exact hend 0 s _ rfl (fun _ _ => rfl) hrefl (Nat.zero_le _)

end Send

/-! ## A pass -/

theorem refines_anchorWhenDue : Refines env allowed (anchorWhenDue env) := by
  intro s hs
  refine .bind (does_gets (·.stamper) (fun _ => rfl) ?_)
  refine .bind ((silent_ask _).does (fun now => ?_) fun e => (Reaches.refl hs).fails e)
  refine .ite (fun _ => .pure (.refl hs)) fun _ => .ite (fun _ => ?_) fun hpending => ?_
  · exact .ite (fun _ => refines_schedule s hs) fun _ => .pure (.refl hs)
  · exact does_sendAnchor hs hpending

theorem refines_doBitcoin : Refines env allowed (doBitcoin env) := by
  refine .bind (.ask _) fun _ => .bind refines_updateFromProxy fun new =>
    .bind (.gets _) fun m => ?_
  refine .bind (.modifyStamper fun s _ => moves_adjust s _ fun _ => rfl) fun _ => ?_
  refine .bind refines_processBlocks fun done => .ite (fun _ => .pure _) fun _ => ?_
  refine .bind (refines_saveMatureTrees _) fun _ => .bind (.gets _) fun m => ?_
  exact .ite (fun _ => .pure _) fun _ => refines_anchorWhenDue

theorem refines_pass : Refines env allowed (pass env) := refines_doBitcoin.guarded fun _ => .pure _

end OtsServer.Service
