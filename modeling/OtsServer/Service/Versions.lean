import OtsServer.Service.Trees

/-!
# Versions of an anchor

A version that was broadcast remembers of its tree only how many of the pending commitments
it is over. While one is unconfirmed the pending commitments only grow at their end: the scan
and the trees that a reorg returns add behind what is there, and what leaves them leaves when a
version is found, which ends every version. So the first commitments are the ones the tip
was made of, whichever version a block contains; they leave together, and go to a height where
no tree waits.
-/

namespace Prog

variable {σ ε α β : Type} {m m' : Prog σ ε α} {s : σ}

/-- Two programs that go on alike from wherever the first part ends. -/
theorem bind_congr {f g : α → Prog σ ε β}
    (h : wp m (fun a t => f a t = g a t) (fun _ _ => True) s) : (m >>= f) s = (m >>= g) s := by
  rcases hm : m s with ⟨e | a, t⟩
  · rw [bind_of_error hm, bind_of_error hm]
  · rw [wp, hm] at h
    rw [bind_of_ok hm, bind_of_ok hm]
    exact h

theorem bind_congr_left {f : α → Prog σ ε β} (h : m s = m' s) : (m >>= f) s = (m' >>= f) s := by
  rcases hm : m s with ⟨e | a, t⟩
  · rw [bind_of_error hm, bind_of_error (h.symm.trans hm)]
  · rw [bind_of_ok hm, bind_of_ok (h.symm.trans hm)]

/-- Two loops whose rounds are alike where the invariant holds. -/
theorem loop_congr {I : σ → Prop} {body body' : β → Prog σ ε (β ⊕ α)} {out : β → Prog σ ε α}
    (hbody : ∀ b t, I t → body b t = body' b t) (hkeeps : ∀ b, Keeps I (body b)) :
    ∀ n b s, I s → loop body out n b s = loop body' out n b s := by
  intro n
  induction n with
  | zero => exact fun _ _ _ => rfl
  | succ n ih =>
      intro b s hs
      rw [loop, loop, ← bind_congr_left (hbody b s hs)]
      refine bind_congr (wp_mono (hkeeps b s hs) (fun r t ht => ?_) fun _ _ _ => trivial)
      cases r with
      | inl b => exact ih b t ht
      | inr a => rfl

end Prog

namespace OtsServer.Service

/-! ## The versions -/

/-- Every version is over some first commitments that are pending, and its tip is theirs. -/
structure Versions (lib : Lib) (pending : List Bytes) (unconfirmed : List UnconfirmedTimestampTx) :
    Prop where
  within : ∀ u ∈ unconfirmed, 0 < u.n ∧ u.n ≤ pending.length
  tip : ∀ u ∈ unconfirmed, u.tip = lib.merkleTip (pending.take u.n)
  ordered : unconfirmed.Pairwise fun u v => u.n ≤ v.n

section Versions

variable {lib : Lib} {pending more : List Bytes} {unconfirmed : List UnconfirmedTimestampTx}

theorem Versions.nil (lib : Lib) (pending : List Bytes) : Versions lib pending [] where
  within _ hu := absurd hu List.not_mem_nil
  tip _ hu := absurd hu List.not_mem_nil
  ordered := .nil

theorem prefix_foldl_addPending (more : List Bytes) :
    ∀ pending : List Bytes, pending <+: more.foldl addPending pending := by
  induction more with
  | nil => exact fun pending => List.prefix_rfl
  | cons c more ih =>
      intro pending
      refine List.IsPrefix.trans ?_ (ih _)
      rw [addPending]
      split_ifs
      · exact List.prefix_rfl
      · exact List.prefix_append _ _

/-- Commitments that become pending behind the others change no version's tree. -/
theorem Versions.grow (h : Versions lib pending unconfirmed) (hgrown : pending <+: more) :
    Versions lib more unconfirmed := by
  obtain ⟨rest, rfl⟩ := hgrown
  refine ⟨fun u hu => ?_, fun u hu => ?_, h.ordered⟩
  · obtain ⟨hpos, hle⟩ := h.within u hu
    rw [List.length_append]
    exact ⟨hpos, by omega⟩
  · rw [List.take_append_of_le_length (h.within u hu).2]
    exact h.tip u hu

/-- A version over everything that is pending. -/
theorem Versions.broadcast (h : Versions lib pending unconfirmed) (hne : pending ≠ [])
    (tx : Tx) (fee : Int) (records : Nat) :
    Versions lib pending
      (unconfirmed ++ [⟨tx, lib.merkleTip pending, pending.length, fee, records⟩]) := by
  refine ⟨fun u hu => ?_, fun u hu => ?_,
    List.pairwise_append.mpr ⟨h.ordered, List.pairwise_singleton _ _, ?_⟩⟩
  · obtain hu | hu := List.mem_append.mp hu
    · exact h.within u hu
    · rw [List.mem_singleton.mp hu]
      exact ⟨List.length_pos_of_ne_nil hne, le_rfl⟩
  · obtain hu | hu := List.mem_append.mp hu
    · exact h.tip u hu
    · rw [List.mem_singleton.mp hu, List.take_length]
  · intro u hu v hv
    rw [List.mem_singleton.mp hv]
    exact (h.within u hu).2

end Versions

/-! ## What keeps them -/

section Keeps

variable {env : Env}

/-- What every part of the code keeps of the versions. -/
def Versioned (lib : Lib) (w : World) : Prop := Versions lib w.trees.pending w.trees.unconfirmed

theorem versioned_ofTrees (lib : Lib) : OfTrees (Versioned lib) :=
  .of (P := fun a => Versions lib a.pending a.unconfirmed)

theorem versioned_requeue (lib : Lib) (height : Int) :
    Prog.Keeps (Versioned lib) (requeue height) := by
  refine .modify fun w hw => ?_
  cases hwaits : w.stamper.txsWaitingForConfirmation.lookup height with
  | none =>
      simp only [hwaits]
      exact hw
  | some reorged =>
      simp only [hwaits]
      exact hw.grow (prefix_foldl_addPending _ _)

theorem versioned_processBlock (known : KnownBlock) :
    Prog.Keeps (Versioned env.lib) (processBlock env known) :=
  fun w hw => (versioned_ofTrees _).processBlock (fun _ _ _ => .nil _ _)
    (versioned_requeue _ _ w hw)

theorem versioned_processBlocks : Prog.Keeps (Versioned env.lib) (processBlocks env) := by
  refine .bind (.gets _) fun rounds =>
    .loop (fun _ => .bind (.gets _) fun queue => ?_) (fun _ => .pure _) _ _
  split
  · exact .pure _
  · refine .bind (versioned_processBlock _) fun done => .ite (fun _ => ?_) fun _ => .pure _
    exact .bind (.modify fun _ hw => hw) fun _ => .pure _

theorem versioned_saveMatureTrees (bestHeight : Int) :
    Prog.Keeps (Versioned env.lib) (saveMatureTrees env bestHeight) :=
  .bind (.gets _) fun _ => .forEach (fun height =>
    (versioned_ofTrees _).saveTree height (fun _ _ _ hw => hw) fun _ _ hw => hw) _

theorem versioned_setKnownBlocks (lib : Lib) (f : List KnownBlock → List KnownBlock) :
    Prog.Keeps (Versioned lib) (setKnownBlocks f) := .modify fun _ hw => hw

theorem versioned_blockHashAt (height : Int) :
    Prog.Keeps (Versioned env.lib) (blockHashAt env height) := by
  refine .handle (.bind ((versioned_ofTrees _).ask _) fun _ => .pure _) fun e n hn => ?_
  cases e <;> cases hn
  exact .pure _

theorem versioned_updateFromProxy : Prog.Keeps (Versioned env.lib) (updateFromProxy env) := by
  have hI := versioned_ofTrees env.lib
  refine .bind (.gets _) fun known => .bind (.gets _) fun patience => .bind ?_ fun read => ?_
  · refine .handle (.loop (fun read => ?_) (fun _ => .raise _) _ _) fun e n hn => ?_
    · refine .bind (.bind (.gets _) fun blocks => ?_) fun best => .ite (fun _ => .pure _) fun _ =>
        .bind ?_ fun _ => ?_
      · split
        · exact .pure _
        · exact .bind (hI.ask _) fun _ => .pure _
      · refine .bind (.gets _) fun _ =>
          .loop (fun _ => .bind (.gets _) fun blocks => ?_) (fun _ => .pure _) _ _
        split
        · exact .pure _
        · refine .bind (versioned_blockHashAt _) fun _ => .ite (fun _ => .pure _) fun _ => ?_
          exact .bind (versioned_setKnownBlocks _ _) fun _ => .pure _
      · refine .bind (.bind (.gets _) fun blocks => ?_) fun height =>
          .bind (versioned_blockHashAt _) fun hash => ?_
        · split
          · exact hI.ask _
          · exact .pure _
        · split
          · exact .pure _
          · exact .bind (versioned_setKnownBlocks _ _) fun _ => .pure _
    · cases hn
      exact .bind (versioned_setKnownBlocks _ _) fun _ => .raise _
  · exact .bind (.gets _) fun calls => .bind (.modify fun _ hw => hw) fun _ => .pure _

theorem versioned_anchorWhenDue : Prog.Keeps (Versioned env.lib) (anchorWhenDue env) := by
  intro w hw
  have hgiven : ∀ b : Trees, Abandons w.trees b → Versions env.lib b.pending b.unconfirmed := by
    rintro b (rfl | rfl)
    · exact hw
    · exact .nil _ _
  refine Prog.wp_mono (broadcast_anchorWhenDue w) (fun _ t ht => ?_) fun _ t ht => hgiven _ ht
  obtain ht | ⟨hne, older, tx, fee, records, holder, heq⟩ := ht
  · exact hgiven _ ht
  · rw [Versioned, heq]
    exact (hgiven _ holder).broadcast hne tx fee records

theorem versioned_doBitcoin : Prog.Keeps (Versioned env.lib) (doBitcoin env) := by
  have hI := versioned_ofTrees env.lib
  refine .bind (hI.ask _) fun _ => .bind versioned_updateFromProxy fun new =>
    .bind (.gets _) fun s => ?_
  refine .bind (.modify fun _ hw => hw) fun _ => .bind versioned_processBlocks fun done =>
    .ite (fun _ => .pure _) fun _ => ?_
  refine .bind (versioned_saveMatureTrees _) fun _ => .bind (.gets _) fun s => ?_
  exact .ite (fun _ => .pure _) fun _ => versioned_anchorWhenDue

theorem versioned_fill {w : World} (hw : Versioned env.lib w) :
    Prog.wp (fill env) (fun _ => Versioned env.lib) (fun _ => Versioned env.lib) w := by
  have hgrown : ∀ t : World, Grown w.trees t.trees → Versioned env.lib t := by
    rintro t ⟨more, heq⟩
    rw [Versioned, heq]
    exact hw.grow (prefix_foldl_addPending _ _)
  exact Prog.wp_mono (grown_fill w.trees w (grown_refl _)) (fun _ => hgrown) fun _ => hgrown

end Keeps

/-! ## Passes without a check -/

section Code

variable (env : Env)

/-- A version found in a block, by its count alone: its commitments leave the pending ones and wait
at the block's height. `otherwise` is done when they are not there, are not the tip's, or a tree
waits there already. -/
def rebuildTx (otherwise : M Unit) (block : Block) (height : Int) (hash : Bytes)
    (u : UnconfirmedTimestampTx) : M Unit :=
  do
  Prog.ofExcept (makeTimestampFromBlockTx env.lib u block)
  let s ← Prog.gets (·.stamper)
  if (0 < u.n ∧ u.n ≤ s.pendingCommitments.length) ∧
      env.lib.merkleTip (s.pendingCommitments.take u.n) = u.tip ∧
      s.txsWaitingForConfirmation.lookup height = none then do
    Prog.modify fun w => { w with toState := w.toState.confirm env.lib height hash u }
    schedule env
  else otherwise

variable (confirm : Block → Int → Bytes → UnconfirmedTimestampTx → M Unit)

/-- `processBlock`, with what is done for a version that the block contains. -/
def processBlockBy (known : KnownBlock) : M Bool := do
  requeue known.height
  let block ← fetchBlock env known.hash
  match block with
  | none => pure false
  | some block => do
      let unconfirmed ← Prog.gets (·.stamper.unconfirmedTxs)
      let txids := block.vtx.map env.lib.txid
      match unconfirmed.reverse.find? fun u => txids.contains (env.lib.txid u.tx) with
      | none => pure true
      | some u => do
          confirm block known.height known.hash u
          pure true

def processBlocksBy : M Bool := do
  let rounds ← Prog.gets fun w => w.stamper.unprocessedBlocks.length + 1
  Prog.loop (fun _ : Unit => do
      let queue ← Prog.gets (·.stamper.unprocessedBlocks)
      match queue with
      | [] => pure (.inr true)
      | known :: rest => do
          let done ← processBlockBy env confirm known
          if done then do
            modifyStamper fun s => { s with unprocessedBlocks := rest }
            pure (.inl ())
          else pure (.inr false))
    (fun _ => pure true) rounds ()

def doBitcoinBy : M Unit := do
  ask env.makeProxy
  let new ← updateFromProxy env
  let s ← Prog.gets (·.stamper)
  let bestHeight := match new.getLast? with
    | some block => block.height
    | none => bestBlockHeight s
  modifyStamper fun s => { s with unprocessedBlocks := queueBlocks new s.unprocessedBlocks }
  let done ← processBlocksBy env confirm
  if ¬done then pure ()
  else do
    saveMatureTrees env bestHeight
    let s ← Prog.gets (·.stamper)
    if new = [] ∧ s.unconfirmedTxs ≠ [] then pure () else anchorWhenDue env

end Code

section Rebuilt

variable {env : Env} {allowed : Config → Prop} {w : World}

/-- Where the versions are over what is pending and nothing waits, the two are one. -/
theorem confirmTx_eq (hw : Versioned env.lib w)
    {u : UnconfirmedTimestampTx} (hu : u ∈ w.stamper.unconfirmedTxs)
    {height : Int} (hfree : w.stamper.txsWaitingForConfirmation.lookup height = none)
    (otherwise : M Unit) (block : Block) (hash : Bytes) :
    confirmTx env block height hash u w = rebuildTx env otherwise block height hash u w := by
  refine Prog.bind_congr ?_
  cases makeTimestampFromBlockTx env.lib u block with
  | error e => trivial
  | ok _ =>
      have htip : env.lib.merkleTip (w.stamper.pendingCommitments.take u.n) = u.tip :=
        (hw.tip u hu).symm
      change (if env.lib.merkleTip (w.stamper.pendingCommitments.take u.n) ≠ u.tip then _ else _ :
          M Unit) w = (if _ then _ else otherwise : M Unit) w
      rw [if_neg (not_not.mpr htip), if_pos ⟨hw.within u hu, htip, hfree⟩]
      rfl

theorem processBlock_eq (otherwise : M Unit) (known : KnownBlock) (hw : Versioned env.lib w) :
    processBlock env known w = processBlockBy env (rebuildTx env otherwise) known w := by
  refine Prog.bind_congr ?_
  have hfree : Prog.wp (requeue known.height)
      (fun _ t => t.stamper.txsWaitingForConfirmation.lookup known.height = none)
          (fun _ _ => True) w := by
    change AList.lookup known.height _ = none
    cases hwaits : w.stamper.txsWaitingForConfirmation.lookup known.height with
    | none => simp only [hwaits]
    | some reorged =>
        simp only [hwaits]
        exact AList.lookup_erase _ _
  refine Prog.wp_mono ((versioned_requeue _ _).wp_and hw hfree)
    (fun _ t ht => ?_) fun _ _ _ => trivial
  have hI : OfTrees fun v => v.trees = t.trees := .of (P := fun b => b = t.trees)
  refine Prog.bind_congr
    (Prog.wp_mono (hI.fetchBlock _ t rfl) (fun block v hv => ?_) fun _ _ _ => trivial)
  cases block with
  | none => rfl
  | some block =>
      have hversioned : Versioned env.lib v := by
        rw [Versioned, hv]
        exact ht.1
      have hnone : v.stamper.txsWaitingForConfirmation.lookup known.height = none := by
        rw [show v.stamper.txsWaitingForConfirmation = t.stamper.txsWaitingForConfirmation from
          congrArg Trees.waiting hv]
        exact ht.2
      refine Prog.bind_congr ?_
      rw [Prog.wp_gets]
      cases hfind : v.stamper.unconfirmedTxs.reverse.find?
          fun u => (block.vtx.map env.lib.txid).contains (env.lib.txid u.tx) with
      | none => rfl
      | some u =>
          have hmem := List.mem_reverse.mp (List.mem_of_find?_eq_some hfind)
          exact Prog.bind_congr_left (confirmTx_eq hversioned hmem hnone otherwise block known.hash)

theorem processBlocks_eq (otherwise : M Unit) (hw : Versioned env.lib w) :
    processBlocks env w = processBlocksBy env (rebuildTx env otherwise) w := by
  refine Prog.bind_congr ?_
  rw [Prog.wp_gets]
  refine Prog.loop_congr (I := Versioned env.lib) (fun _ t ht => Prog.bind_congr ?_)
    (fun _ => .bind (.gets _) fun queue => ?_) _ _ _ hw
  · rw [Prog.wp_gets]
    cases t.stamper.unprocessedBlocks with
    | nil => rfl
    | cons known rest => exact Prog.bind_congr_left (processBlock_eq otherwise known ht)
  · split
    · exact .pure _
    · refine .bind (versioned_processBlock _) fun done => .ite (fun _ => ?_) fun _ => .pure _
      exact .bind (.modify fun _ hw => hw) fun _ => .pure _

/-- A pass makes of a block what the counts of its versions say, in every state that keeps them. -/
theorem doBitcoin_rebuilds (otherwise : M Unit) (hw : Versioned env.lib w) :
    doBitcoin env w = doBitcoinBy env (rebuildTx env otherwise) w := by
  have hI := versioned_ofTrees env.lib
  refine Prog.bind_congr (Prog.wp_mono (hI.ask _ w hw) (fun _ t ht => ?_) fun _ _ _ => trivial)
  refine Prog.bind_congr
    (Prog.wp_mono (versioned_updateFromProxy t ht) (fun new u hu => ?_) fun _ _ _ => trivial)
  refine Prog.bind_congr ?_
  rw [Prog.wp_gets]
  refine Prog.bind_congr ?_
  exact Prog.bind_congr_left (processBlocks_eq otherwise hu)

/-- What is pending and was broadcast in a process that is up. -/
theorem versioned_reachable (h : (service env allowed).Reachable w) (hup : w.running = true) :
    Versioned env.lib w := by
  refine Transition.System.Inductive.reachable (I := fun w => w.running = true →
      Versioned env.lib w) ⟨?_, ?_⟩ h hup
  · exact fun w hw hup => absurd (hw.1.symm.trans hup) Bool.false_ne_true
  · intro w w' _ hw hstep _
    exact (versioned_ofTrees _).step (fun _ => .nil _ _) versioned_fill
      (versioned_doBitcoin w) hw hstep

/-- In every reachable state each version is over the first pending commitments that its tip is
made of, the later over no fewer. So a pass that finds one in a block takes exactly those, to a
height where no tree waits: what it would do `otherwise` is never done. -/
theorem versions_are_rebuilt (h : (service env allowed).Reachable w) (hup : w.running = true) :
    Versions env.lib w.stamper.pendingCommitments w.stamper.unconfirmedTxs ∧
      ∀ otherwise : M Unit, doBitcoin env w = doBitcoinBy env (rebuildTx env otherwise) w :=
  ⟨versioned_reachable h hup, fun otherwise =>
    doBitcoin_rebuilds otherwise (versioned_reachable h hup)⟩

/-- The versions of a process that has broadcast its first. -/
def Rehearsal.broadcast : World :=
  runEvents (Rehearsal.course.env Rehearsal.lib) Rehearsal.events.dropLast
    (.empty (Rehearsal.config 10 true))

theorem Rehearsal.reachable_broadcast :
    (service (Rehearsal.course.env Rehearsal.lib) fun _ => True).Reachable Rehearsal.broadcast :=
  reachable_runEvents (by decide +kernel) fun _ _ => trivial

/-- A version that a block is about to contain. -/
theorem first_version_is_rebuilt :
    Rehearsal.broadcast.stamper.unconfirmedTxs.map (·.n) = [1] ∧ Versions Rehearsal.lib
        Rehearsal.broadcast.stamper.pendingCommitments Rehearsal.broadcast.stamper.unconfirmedTxs ∧
      ∀ otherwise : M Unit, doBitcoin (Rehearsal.course.env Rehearsal.lib) Rehearsal.broadcast =
        doBitcoinBy (Rehearsal.course.env Rehearsal.lib)
          (rebuildTx (Rehearsal.course.env Rehearsal.lib) otherwise) Rehearsal.broadcast :=
  ⟨by decide +kernel, versions_are_rebuilt Rehearsal.reachable_broadcast (by decide +kernel)⟩

end Rebuilt

end OtsServer.Service
