import OtsServer.Service.PassSteps

/-!
# Steps as moves

Submissions, starts and exits make moves too, so every step of the service does, and every
reachable state is one that moves reach from an empty directory.
-/

namespace OtsServer.Service

variable {env : Env} {allowed : Config → Prop}

/-! ## Submissions -/

section Submissions

variable {s t : State}

/-- The state after some first bytes of the buffer landed. -/
def State.flushed (n : Nat) (s : State) : State :=
  { s with
    disk := appendJournal (s.journalBuffer.take n) s.disk
    journalBuffer := s.journalBuffer.drop n }

theorem flushed_flushed (s : State) (k n : Nat) : (s.flushed k).flushed n = s.flushed (k + n) := by
  unfold State.flushed
  simp only [List.drop_drop, List.take_add, appendJournal, List.append_assoc]

theorem flushed_zero (s : State) : s.flushed 0 = s := by
  rw [State.flushed, List.take_zero, List.drop_zero, appendJournal, List.append_nil]

theorem flushed_length (s : State) : s.flushed s.journalBuffer.length =
    { s with disk := appendJournal s.journalBuffer s.disk, journalBuffer := [] } := by
  rw [State.flushed, List.take_length, List.drop_length]

theorem flushed_of_le {n : Nat} (h : s.journalBuffer.length ≤ n) :
    s.flushed n = s.flushed s.journalBuffer.length := by
  rw [flushed_length, State.flushed, List.take_of_length_le h, List.drop_eq_nil_of_le h]

/-- What a write took leaves the buffer. -/
theorem flushed_write (s : State) (n : Nat) :
    { s.setDisk (appendJournal (s.journalBuffer.take n)) with
      journalBuffer := s.journalBuffer.drop (min n s.journalBuffer.length) } = s.flushed n := by
  obtain h | h := Nat.le_total n s.journalBuffer.length
  · rw [Nat.min_eq_left h]
    rfl
  · rw [flushed_of_le h, flushed_length, Nat.min_eq_right h, List.drop_length,
      List.take_of_length_le h]
    rfl

theorem does_flushJournal {Q : Unit → State → Prop} {E : Exc → State → Prop}
    (h : Q () { s with disk := appendJournal s.journalBuffer s.disk, journalBuffer := [] })
    (herr : ∀ errno n, E (.osError errno) (s.flushed n))
    (hstop : ∀ n t, t.disk = (s.flushed n).disk → t.history = s.history → E .stop t) :
    Does (flushJournal env) Q E s := by
  -- some first bytes landed, and the rounds suffice for the rest
  let inv (n : Nat) (_ : Unit) (t : State) : Prop :=
    ∃ k, t = s.flushed k ∧ t.journalBuffer.length < n
  refine .bind (does_gets (·.journalBuffer) (fun _ => rfl) (.loop inv (fun n _ t ht => ?_)
    (fun _ t ht => ?_) _ () ⟨0, (flushed_zero s).symm, Nat.lt_succ_self _⟩))
  · obtain ⟨k, rfl, hlt⟩ := ht
    refine .bind (does_gets (·.journalBuffer) (fun _ => rfl)
        (.ite (fun hnil => .pure ?_) fun hne => ?_))
    · rwa [flushed_of_le (List.drop_eq_nil_iff.mp hnil), flushed_length]
    · refine .bind (does_osWrite (fun m => .bind (Prog.Sees.modify (g := fun t => { t with
          journalBuffer :=
            (s.flushed k).journalBuffer.drop (min m (s.flushed k).journalBuffer.length) })
          (fun _ => rfl) ?_)) (fun errno => herr errno k) fun m => hstop (k + m) _ ?_ rfl)
      · rw [flushed_write, flushed_flushed]
        refine .ite (fun _ => .raise (herr _ _)) fun hm => .pure ⟨k + m, rfl, ?_⟩
        rw [← flushed_flushed]
        have hpos := List.length_pos_of_ne_nil hne
        simp only [State.flushed, List.length_drop] at hlt hpos hm ⊢
        omega
      · rw [← flushed_flushed]
        rfl
  · exact absurd ht.choose_spec.2 (Nat.not_lt_zero _)

theorem length_journalRecord {commitment record : Bytes}
    (h : journalRecord commitment = some record) : record.length = commitmentSize := by
  rw [journalRecord] at h
  split_ifs at h with h36 h44
  · rw [← Option.some.inj h, List.length_append, List.length_replicate, h36]
    rfl
  · rw [← Option.some.inj h, h44]

theorem does_appendEntry (hs : s.running = true) (hagg : s.aggregating = true)
    (howed : s.countOwed = none) (commitment : Bytes) (records : Option Nat) :
    Does (appendEntry env commitment records) (fun _ => Reaches env allowed s)
      (Fails env allowed s) s := by
  have hrefl : Reaches env allowed s s := .refl hs
  have hhalt := hrefl.move (.halt s) hs
  refine .bind (Prog.Sees.modify (g := fun t => { t with aggregating := false }) (fun _ => rfl) ?_)
  cases hrecord : journalRecord commitment with
  | none => exact .raise (hhalt.fails _)
  | some record =>
      refine .bind (does_gets (fun t => t.disk.journal.length + t.journalBuffer.length)
          (fun _ => rfl) ?_)
      refine .ite (fun _ => .raise (hhalt.fails _)) fun haligned => ?_
      refine .ite (fun _ => .raise (hhalt.fails _)) fun hfits => .bind (does_note ?_)
      refine .bind (Prog.Sees.modify
          (g := fun t => { t with journalBuffer := t.journalBuffer ++ record }) (fun _ => rfl) ?_)
      have haligned := not_not.mp haligned
      have hfits := Nat.not_lt.mp hfits
      have hlen := length_journalRecord hrecord
      have hfails := fun n => hrefl.move
        (.appendFails s record records n hs hagg howed haligned hfits hlen) hs
      refine .bind (does_flushJournal ?_ (fun errno n => (hfails n).fails _) fun n t hd hh =>
        ⟨fun _ => ⟨_, (hfails n).moves, hd, hh⟩, fun h => absurd rfl h⟩)
      refine .bind (does_fileCall ?_ fun e _ => ?_)
      · exact Prog.Sees.modify (g := fun t => { t with
          aggregating := true
          countOwed := if t.stamper.config.receiptsOn then records.map
            ((s.disk.journal.length + s.journalBuffer.length) / commitmentSize, ·) else none })
          (fun _ => rfl)
            (hrefl.move (.append s record records hs hagg howed haligned hfits hlen) hs)
      · have hall := hfails (s.journalBuffer ++ record).length
        rw [List.take_length, List.drop_length] at hall
        exact hall.fails e

theorem refines_writeCount : Refines env allowed (writeCount env) := by
  intro s hs
  have hrefl : Reaches env allowed s s := .refl hs
  refine .bind (does_gets (·.countOwed) (fun _ => rfl) ?_)
  cases howed : s.countOwed with
  | none => exact .pure hrefl
  | some owed =>
      obtain ⟨idx, counted⟩ := owed
      have hcount := fun n => hrefl.move (.count s idx counted n hs howed) hs
      -- the count is no longer owed, whatever of it was written
      have hend : ∀ n t, t = s.setDisk (fun d => { d with
            counts := pwrite d.counts (idx * recordSize)
              ((Bytes.ofNatBE recordSize (storedCount counted)).take n) }) →
          Does (Prog.modify fun w : World => { w with countOwed := none })
              (fun _ => Reaches env allowed s) (Fails env allowed s) t := by
        rintro n t rfl
        exact Prog.Sees.modify (g := fun t => { t with countOwed := none })
          (fun _ => rfl) (hcount n)
      refine .bind (does_guarded
          (.ite (fun _ => .bind (does_osWrite (fun n => ?_) (fun errno => ?_) fun n => ?_))
            fun _ => .raise ⟨fun h => by simp at h, fun _ _ => .pure (hend 0 _ rfl)⟩))
      · refine does_fileCall (hend n _ rfl) fun e he => ⟨?_, fun _ _ => .pure (hend n _ rfl)⟩
        rintro (rfl | rfl)
        · exact ⟨fun _ => ⟨_, (hcount n).moves, rfl, rfl⟩, fun h => absurd rfl h⟩
        · obtain h | ⟨_, h⟩ := he <;> exact nomatch h
      · exact ⟨fun h => by simp at h, fun _ _ => .pure (hend 0 _ rfl)⟩
      · refine ⟨fun _ => ⟨fun _ => ?_, fun h => absurd rfl h⟩, fun h => absurd rfl h⟩
        exact ⟨_, (hcount n).moves, rfl, rfl⟩

end Submissions

/-! ## Start -/

section Start

variable {s t : State} {config : Config}

/-- The process is coming up: so far it has what a new process has, and a new database may have
got its generation. -/
structure Boots (env : Env) (allowed : Config → Prop) (config : Config) (s t : State) : Prop where
  boots : ∃ u, Moves env.lib allowed s u ∧ u.running = false ∧ t = u.boot config

theorem Boots.stopped (h : Boots env allowed config s t) : Stopped env allowed s t := by
  obtain ⟨u, hu, -, rfl⟩ := h.boots
  exact ⟨u, hu, rfl, rfl⟩

theorem does_adoptGeneration (h : Boots env allowed config s t) (hgen : t.db.generation = none) :
    Does (adoptGeneration env 0) (fun _ u => Boots env allowed config s u ∧ u.db.generation ≠ none)
        (fun _ => Stopped env allowed s) t := by
  obtain ⟨u, hu, hdown, rfl⟩ := h.boots
  refine .bind (does_ask (fun n token htoken => ?_) fun n e he => nomatch he)
  have hadopt := hu.tail (.adopt u token.1 hdown hgen token.2)
  refine does_dbBatch ⟨⟨_, hadopt, hdown, rfl⟩, nofun⟩ (fun _ _ => h.stopped) fun _ _ => ?_
  exact ⟨_, hadopt, rfl, rfl⟩

theorem does_openDatabase (h : Boots env allowed config s t) :
    Does (openDatabase env) (fun _ => Boots env allowed config s)
      (fun _ => Stopped env allowed s) t := by
  refine .bind (does_dbRead ?_ fun _ _ => h.stopped)
  refine .bind (Prog.Sees.modify (g := fun t => { t with db := t.disk.db }) (fun _ => rfl) ?_)
  have heq : ({ t with db := t.disk.db } : State) = t := by
    obtain ⟨u, -, -, rfl⟩ := h.boots
    rfl
  rw [heq]
  refine .bind (does_gets (·.db) (fun _ => rfl) (.ite (fun hnew => ?_) fun _ => .pure h))
  exact (does_adoptGeneration h hnew.1).mono (fun _ _ h => h.1) fun _ _ h => h

theorem does_checkCounts {Q : Unit → State → Prop} {E : Exc → State → Prop}
    (h : Q () t) (herr : ∀ e, E e t) : Does (checkCounts env) Q E t :=
  .bind (does_fileCall (.bind (does_gets (·.disk) (fun _ => rfl)
    (.ite (fun _ => .raise (herr _)) fun _ => .pure h))) fun e _ => herr e)

theorem does_probeJournal {idx : Nat} {Q : Unit → State → Prop} {E : Exc → State → Prop}
    (h : Q () t) (herr : ∀ e, E e t) : Does (probeJournal env idx) Q E t := by
  refine .bind (does_fileCall (.bind (does_gets (·.disk) (fun _ => rfl) ?_)) fun e _ => herr e)
  split
  · exact .raise (herr _)
  · exact .bind (does_dbContains (.ite (fun _ => .pure h) fun _ => .raise (herr _))
        fun e _ => herr e)

theorem does_checkJournal {idx : Nat} {Q : Unit → State → Prop} {E : Exc → State → Prop}
    (h : Q () t) (herr : ∀ e, E e t) : Does (checkJournal env idx) Q E t := by
  refine .ite (fun _ => .pure h) fun _ => ?_
  refine .bind (does_fileCall (.bind (does_gets (·.disk) (fun _ => rfl) ?_)) fun e _ => herr e)
  refine .ite (fun _ => .raise (herr _)) fun _ => ?_
  exact .bind (does_probeJournal (does_probeJournal h herr) herr)

theorem does_readCheckpoint {Q : Option (Nat × Option Text) → State → Prop} {E : Exc → State → Prop}
    (h : ∀ checkpoint, CheckpointIs t.disk.knownGood ((checkpoint.map (·.1)).getD 0) →
      Q checkpoint t) (herr : ∀ e, E e t) : Does (readCheckpoint env) Q E t := by
  refine .bind (does_fileCall (.bind (does_gets (·.disk.knownGood) (fun _ => rfl) ?_))
      fun e _ => herr e)
  cases hfile : t.disk.knownGood with
  | none => exact .pure (h none (.inl ⟨hfile, rfl⟩))
  | some text =>
      refine .bind (.ofExcept (fun checkpoint hparse => ?_) fun e _ => herr e)
      exact .pure (h (some checkpoint) (.inr ⟨text, checkpoint.2, hfile, hparse⟩))

/-- A start that goes on has a generation. -/
theorem does_verifyStorageGeneration (h : Boots env allowed config s t) :
    Does (verifyStorageGeneration env) (fun _ u => Boots env allowed config s u ∧
        u.db.generation ≠ none) (fun _ => Stopped env allowed s) t := by
  have hstop : ∀ _ : Exc, Stopped env allowed s t := fun _ => h.stopped
  refine .bind (does_guarded (does_readCheckpoint (fun checkpoint hcheckpoint => ?_) fun e => ?_))
  · clear hcheckpoint
    refine .bind (does_gets (·.db) (fun _ => rfl) ?_)
    split
    next hgen =>
      exact .bind ((does_adoptGeneration h hgen).mono (fun _ _ h => .pure h) fun _ _ h => h)
    next hgen => exact .pure ⟨h, hgen ▸ nofun⟩
    next => exact .raise h.stopped
    next => exact .raise h.stopped
    next hgen =>
      refine .ite (fun _ => .raise h.stopped) fun _ => .ite (fun _ => .raise h.stopped) fun _ => ?_
      exact .bind (does_checkJournal (.pure ⟨h, hgen ▸ nofun⟩) hstop)
  · exact ⟨fun _ => h.stopped, fun _ _ => .raise h.stopped⟩

theorem does_openJournal (h : Boots env allowed config s t) (hgen : t.db.generation ≠ none)
    (hallowed : allowed config) :
    Does (openJournal env) (fun _ u => Reaches env allowed s u ∧ u.stamper = Stamper.fresh config)
        (fun _ => Stopped env allowed s) t := by
  refine .bind (does_fileCall ?_ fun _ _ => h.stopped)
  refine .bind (Prog.Sees.modify
      (g := fun t => { t with journalBuffer := journalPadding t.disk.journal }) (fun _ => rfl) ?_)
  obtain ⟨u, hu, hdown, rfl⟩ := h.boots
  have hboot : Reaches env allowed s
      { u.boot config with journalBuffer := journalPadding (u.boot config).disk.journal } :=
    ⟨hu.tail (.boot u config hdown hgen hallowed), rfl⟩
  refine .bind (does_gets (·.stamper.config.receiptsOn) (fun _ => rfl) ?_)
  exact .ite (fun _ => does_fileCall ⟨hboot, rfl⟩ fun _ _ => .of_moves hboot.moves) fun _ =>
    .pure ⟨hboot, rfl⟩

/-- The stamper has what its constructor gave it. -/
def IsFresh (m : Stamper) : Prop :=
  ∃ config next, m = { Stamper.fresh config with nextTimestampTx := next }

theorem does_seek (h : Reaches env allowed s t) (hfresh : IsFresh t.stamper) :
    Does (do
        let checkpoint ← readCheckpoint env
        modifyStamper fun m => { m with scanIdx := (checkpoint.map (·.1)).getD 0 })
      (fun _ => Reaches env allowed s) (fun _ => Stopped env allowed s) t := by
  obtain ⟨config, next, hfresh⟩ := hfresh
  refine .bind (does_readCheckpoint (fun checkpoint hcheckpoint => ?_) fun _ => .of_moves h.moves)
  exact does_modifyStamper (h.move (.seek t config next _ hfresh hcheckpoint) h.running)

theorem does_openStamper (h : Reaches env allowed s t) (hfresh : IsFresh t.stamper) :
    Does (openStamper env) (fun _ => Reaches env allowed s) (fun _ => Stopped env allowed s) t := by
  refine .bind (does_fileCall ?_ fun _ _ => .of_moves h.moves)
  refine .bind (does_guarded ((does_settlePendingReceipt env allowed h.running).mono ?_ ?_))
  · rintro - u ⟨htu, r, m, d, rfl⟩
    exact does_seek (h.trans htu) hfresh
  · rintro e u ⟨htu, r, m, d, rfl⟩
    have hstop : Stopped env allowed s _ := .of_moves (h.trans htu).moves
    refine ⟨fun _ => hstop, fun _ _ => ?_⟩
    cases e <;> first | exact .raise hstop | exact .pure (does_seek (h.trans htu) hfresh)

theorem does_start (hs : s.running = false) (hallowed : allowed config) :
    Does (start env config) (fun _ => Reaches env allowed s)
      (fun _ => Stopped env allowed s) s := by
  refine .bind (Prog.Sees.modify (g := State.boot config) (fun _ => rfl) ?_)
  have hboot : Boots env allowed config s (s.boot config) := ⟨s, .refl, hs, rfl⟩
  refine .bind (.bind ((does_openDatabase hboot).mono (fun _ t ht => ?_) fun _ _ h => h))
  refine .bind (does_checkCounts ?_ fun _ => ht.stopped)
  refine .bind ((does_verifyStorageGeneration ht).mono ?_ fun _ _ h => h)
  rintro checkpoint u ⟨hu, hgen⟩
  refine .bind ((does_openJournal hu hgen hallowed).mono ?_ fun _ _ h => h)
  rintro - v ⟨hv, hfresh⟩
  refine .pure (.bind (.bind (does_ask (fun _ now _ => ?_) fun _ _ he => nomatch he)))
  refine .bind (does_ask (fun _ factor _ => does_modifyStamper ?_) fun _ _ he => nomatch he)
  refine does_openStamper (hv.trans ⟨moves_adjust v _ fun _ => rfl, hv.running⟩)
    ⟨config, now + v.stamper.config.minTxInterval * factor, ?_⟩
  rw [State.setStamper, hfresh]

end Start

/-! ## Steps -/

section Steps

variable {w w' : World}

/-- A program that makes moves, run as a step. -/
theorem moves_runProgram {m : M Unit}
    (h : Does m (fun _ => Reaches env allowed w.toState) (Fails env allowed w.toState) w.toState) :
    Moves env.lib allowed w.toState (runProgram m w).toState := by
  have hwp := h.out w rfl
  revert hwp
  rw [Prog.wp, runProgram]
  rcases m w with ⟨e | _, t⟩
  · intro hfails
    cases e
    case stop => exact (hfails.stopped rfl).moves
    all_goals exact (hfails.raised Exc.noConfusion).moves
  · exact fun h => h.moves

theorem refines_leave : Refines env allowed (leave env) := by
  intro s hs
  have hflush : ∀ n, Reaches env allowed s (s.flushed n) :=
    fun n => (Reaches.refl hs).move (.flush s n hs) hs
  have hstop : ∀ t, Reaches env allowed s t →
      Does (Prog.raise .stop : M Unit) (fun _ => Reaches env allowed s) (Fails env allowed s) t :=
    fun t ht => .raise (ht.fails _)
  refine .bind (does_guarded (does_flushJournal ?_
        (fun errno n => ⟨fun h => by simp at h, fun _ _ => ?_⟩) fun n t hd hh => ⟨fun _ =>
        ⟨fun _ => ⟨_, (hflush n).moves, hd, hh⟩, fun h => absurd rfl h⟩, fun h => absurd rfl h⟩))
  · rw [← flushed_length]
    exact hstop _ (hflush _)
  · exact .pure (hstop _ (hflush n))

/-- Every step of the service makes moves. -/
theorem step_moves (h : (service env allowed).step w w') :
    Moves env.lib allowed w.toState w'.toState := by
  obtain ⟨e, henabled, hallowed, rfl⟩ := h
  apply moves_runProgram
  cases e with
  | start config =>
      rw [Event.program]
      refine .handle ((does_start henabled (hallowed config rfl)).mono (fun _ _ h => h) ?_)
      exact fun e t ht => .raise ⟨fun _ => ht, fun h => absurd rfl h⟩
  | append commitment records =>
      obtain ⟨hs, hagg, howed⟩ := henabled
      exact does_appendEntry hs hagg howed commitment records
  | count => exact refines_writeCount _ henabled
  | fill => exact refines_fill _ henabled
  | pass => exact refines_pass _ henabled
  | settle =>
      exact (does_settlePendingReceipt env allowed henabled).mono (fun _ _ h => h.reaches)
        fun e _ h => h.reaches.fails e
  | leave => exact refines_leave _ henabled
  | kill => exact Refines.raise .stop _ henabled

/-- A state as the first process finds it. -/
structure Initial (s : State) : Prop where
  down : s.running = false
  disk : s.disk = Disk.empty
  history : s.history = History.empty

/-- What every move keeps, and holds before the first process, holds of every reachable state. -/
theorem reachable_of_moves {I : State → Prop} (hinit : ∀ s, Initial s → I s)
    (hmove : ∀ s t, I s → Move env.lib allowed s t → I t) (h : (service env allowed).Reachable w) :
    I w.toState := by
  refine Transition.System.Inductive.reachable (I := fun w => I w.toState) ⟨?_, ?_⟩ h
  · exact fun w hw => hinit _ ⟨hw.1, hw.2.1, hw.2.2.1⟩
  · intro w w' _ hw hstep
    exact Relation.ReflTransGen.head_induction_on (motive := fun a _ => I a → I w'.toState)
      (step_moves hstep) id (fun hm _ ih ha => ih (hmove _ _ ha hm)) hw

end Steps

end OtsServer.Service
