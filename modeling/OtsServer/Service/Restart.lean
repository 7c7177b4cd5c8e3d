import OtsServer.Service.Watermarks

/-!
# Restarts

What a stop leaves is accepted by the next start. The sidecar never describes an entry
that the journal does not hold, the checkpoint file is whole and of the database's
generation, and its index is covered by the watermark; so each check of the start passes
when its calls return, and the index it gives has every entry below it in the database.
-/

namespace OtsServer.Service

/-! ## Sizes -/

/-- The length that no journal exceeds, a whole number of entries. -/
def journalLimit : Nat := commitmentSize * (maxFileSize / commitmentSize + 1)

/-- What the sizes of the files are bounded by. -/
structure Sizes (s : State) : Prop where
  journal : s.disk.journal.length ≤ journalLimit
  buffer : s.running = true → s.disk.journal.length + s.journalBuffer.length ≤ journalLimit
  counts : s.disk.counts.length ≤ recordSize * journalEntries s.disk.journal
  owed : s.running = true → ∀ idx records, s.countOwed = some (idx, records) →
    idx < journalEntries s.disk.journal

section Sizes

variable {lib : Lib} {allowed : Config → Prop} {s t : State}

theorem journalEntries_append (journal more : Bytes) :
    journalEntries journal ≤ journalEntries (journal ++ more) := by
  refine Nat.div_le_div_right ?_
  rw [List.length_append]
  exact Nat.le_add_right _ _

theorem Sizes.counts_append (h : s.disk.counts.length ≤ recordSize * journalEntries s.disk.journal)
    (more : Bytes) : s.disk.counts.length ≤ recordSize * journalEntries (s.disk.journal ++ more) :=
  h.trans (Nat.mul_le_mul_left _ (journalEntries_append _ _))

theorem journalLimit_ge {n : Nat} (h : n + commitmentSize ≤ maxFileSize) :
    n + commitmentSize ≤ journalLimit :=
  h.trans (Nat.lt_mul_div_succ maxFileSize commitmentSize_pos).le

/-- Padding to a whole entry stays within a whole number of entries. -/
theorem journalPadding_le {journal : Bytes} (h : journal.length ≤ journalLimit) :
    journal.length + (journalPadding journal).length ≤ journalLimit := by
  rw [journalPadding]
  split_ifs with hpartial
  · rw [List.length_replicate]
    have hpos := commitmentSize_pos
    have hmod := Nat.mod_lt journal.length hpos
    have hdiv := Nat.div_add_mod journal.length commitmentSize
    have hround : journal.length + (commitmentSize - journal.length % commitmentSize) =
        commitmentSize * (journal.length / commitmentSize + 1) := by
      rw [Nat.mul_succ]
      omega
    rw [hround]
    refine Nat.mul_le_mul_left _
      (Nat.succ_le_of_lt (Nat.lt_of_mul_lt_mul_left (a := commitmentSize) ?_))
    rw [journalLimit] at h
    omega
  · exact h

theorem pwrite_length_le (file : Bytes) (offset : Nat) (data : Bytes) :
    (pwrite file offset data).length ≤ max file.length (offset + data.length) := by
  rw [pwrite]
  split_ifs with h
  · exact le_max_left _ _
  · simp only [List.length_append, List.length_take, List.length_replicate, List.length_drop]
    omega

theorem sizes_initial (h : Initial s) : Sizes s where
  journal := by
    rw [h.disk]
    exact Nat.zero_le _
  buffer hup := nomatch h.down.symm.trans hup
  counts := by
    rw [h.disk]
    exact Nat.zero_le _
  owed hup := nomatch h.down.symm.trans hup

theorem Sizes.move (h : Sizes s) (hm : Move lib allowed s t) : Sizes t := by
  cases hm with
  | stop _ hdown hdisk =>
      have hnot : t.running ≠ true := fun hup => nomatch hdown.symm.trans hup
      exact ⟨hdisk ▸ h.journal, fun hup => absurd hup hnot, hdisk ▸ h.counts,
        fun hup => absurd hup hnot⟩
  | adopt token hdown =>
      have hnot : s.running ≠ true := fun hup => nomatch hdown.symm.trans hup
      exact ⟨h.journal, fun hup => absurd hup hnot, h.counts, fun hup => absurd hup hnot⟩
  | boot =>
      exact ⟨h.journal, fun _ => journalPadding_le h.journal, h.counts,
        fun _ _ _ howed => nomatch howed⟩
  | append record records hup _ _ haligned hsize hrecord =>
      have hlength : (s.disk.journal ++ (s.journalBuffer ++ record)).length =
          s.disk.journal.length + s.journalBuffer.length + commitmentSize := by
        rw [List.length_append, List.length_append, hrecord, Nat.add_assoc]
      have hbound := journalLimit_ge hsize
      refine ⟨hlength.trans_le hbound, fun _ => hlength.trans_le hbound,
        Sizes.counts_append h.counts _, fun _ => ?_⟩
      intro idx n howed
      dsimp only at howed
      split_ifs at howed
      obtain ⟨_, -, heq⟩ := Option.map_eq_some_iff.mp howed
      obtain ⟨rfl, -⟩ := Prod.mk.inj heq
      change _ < (s.disk.journal ++ (s.journalBuffer ++ record)).length / commitmentSize
      rw [hlength, Nat.add_div_right _ commitmentSize_pos]
      exact Nat.lt_succ_self _
  | appendFails record records n hup _ howed haligned hsize hrecord =>
      have hlength : (s.disk.journal ++ (s.journalBuffer ++ record).take n).length +
          ((s.journalBuffer ++ record).drop n).length =
          s.disk.journal.length + s.journalBuffer.length + commitmentSize := by
        rw [List.length_append, Nat.add_assoc, ← List.length_append, List.take_append_drop,
          List.length_append, hrecord, Nat.add_assoc]
      have hbound := hlength.trans_le (journalLimit_ge hsize)
      exact ⟨(Nat.le_add_right _ _).trans hbound, fun _ => hbound, Sizes.counts_append h.counts _,
        fun _ _ _ hsome => nomatch howed.symm.trans hsome⟩
  | flush n hup =>
      have hlength : (s.disk.journal ++ s.journalBuffer.take n).length +
          (s.journalBuffer.drop n).length = s.disk.journal.length + s.journalBuffer.length := by
        rw [List.length_append, Nat.add_assoc, ← List.length_append, List.take_append_drop]
      have hbound := hlength.trans_le (h.buffer hup)
      exact ⟨(Nat.le_add_right _ _).trans hbound, fun _ => hbound, Sizes.counts_append h.counts _,
        fun _ idx records howed =>
          (h.owed hup idx records howed).trans_le (journalEntries_append _ _)⟩
  | count idx records n hup howed =>
      refine ⟨h.journal, h.buffer, (pwrite_length_le _ _ _).trans (max_le h.counts ?_),
        fun _ _ _ hsome => nomatch hsome⟩
      have hlt := h.owed hup idx records howed
      have htake : ((Bytes.ofNatBE recordSize (storedCount records)).take n).length ≤
          recordSize := by
        rw [List.length_take, Bytes.ofNatBE_length]
        exact min_le_right _ _
      calc
        idx * recordSize + _ ≤ recordSize * idx + recordSize := by
          rw [Nat.mul_comm]
          exact Nat.add_le_add_left htake _
        _ = recordSize * (idx + 1) := (Nat.mul_succ _ _).symm
        _ ≤ _ := Nat.mul_le_mul_left _ hlt
  | adjust | seek | look | skip | take | requeue | confirm | abandon | send | halt | log
  | reread | notice | mark | land | save | checkpoint | tail | recover | settle | discard
  | setAside =>
      exact ⟨h.journal, h.buffer, h.counts, h.owed⟩

theorem sizes_reachable {env : Env} {w : World} (h : (service env allowed).Reachable w) :
    Sizes w.toState :=
  reachable_of_moves (fun _ => sizes_initial) (fun _ _ => Sizes.move) h

end Sizes

/-! ## The checkpoint file -/

section Checkpoint

theorem decimal_length_le {n k : Nat} (h : n < 10 ^ (k + 1)) : (decimal n).length ≤ k + 1 := by
  rw [decimal]
  split_ifs
  · exact Nat.succ_le_succ (Nat.zero_le _)
  · rw [List.length_reverse, List.length_map]
    exact (Nat.digits_length_le_iff (by decide) n).mpr h

theorem lowerAscii_of_isHexDigit {c : Char} (h : isHexDigit c = true) : lowerAscii c = c := by
  rw [lowerAscii, if_neg]
  simp only [isHexDigit, Bool.or_eq_true, Bool.and_eq_true, decide_eq_true_eq] at h
  omega

theorem checkpointGeneration_hexText {token : Bytes} (h : token.length = 16) :
    checkpointGeneration (Bytes.hexText token) = .ok (Bytes.hexText token) := by
  have hdigits := Json.hexText_digits token
  have hlower : (Bytes.hexText token).map lowerAscii = Bytes.hexText token := by
    conv_rhs => rw [← List.map_id (Bytes.hexText token)]
    exact List.map_congr_left fun c hc => lowerAscii_of_isHexDigit (hdigits c hc)
  rw [checkpointGeneration, hlower, if_neg]
  rw [Bytes.hexText_length, h]
  exact not_or.mpr ⟨fun hne => hne rfl, not_not.mpr (List.all_eq_true.mpr hdigits)⟩

theorem splitFields_hex {word : Text} (hword : ∀ c ∈ word, isHexDigit c = true) (fields : List Text)
    (rest : Text) : ∀ field : Text,
    splitFields fields field (word ++ rest) = splitFields fields (field ++ word) rest := by
  induction word with
  | nil => simp
  | cons c word ih =>
      intro field
      have hc := hword c (List.mem_cons_self ..)
      simp only [isHexDigit, Bool.or_eq_true, Bool.and_eq_true, decide_eq_true_eq] at hc
      rw [List.cons_append, splitFields, if_neg,
        ih (fun d hd => hword d (List.mem_cons_of_mem c hd))]
      · rw [List.append_assoc, List.singleton_append]
      · simp only [Bool.and_eq_true, decide_eq_true_eq, not_and]
        omega

/-- A checkpoint that was written whole is read back. -/
theorem parseCheckpoint_text {idx : Nat} {token : Bytes} (hidx : idx < 10 ^ 20)
    (htoken : token.length = 16) :
    parseCheckpoint (checkpointText idx (Bytes.hexText token)) =
      .ok (idx, some (Bytes.hexText token)) := by
  have hgeneration : Bytes.hexText token ≠ [] := by
    rw [Ne, ← List.length_eq_zero_iff, Bytes.hexText_length, htoken]
    decide
  have hsplit : splitFields [] [] (checkpointText idx (Bytes.hexText token)) =
      [decimal idx, Bytes.hexText token] := by
    rw [checkpointText, List.append_assoc, splitFields_word (decimal_digits idx), List.nil_append,
      List.cons_append, splitFields_space (decimal_ne_nil idx),
      splitFields_hex (Json.hexText_digits token),
      splitFields, if_pos (by decide), List.nil_append, if_neg hgeneration, splitFields, if_pos rfl]
    rfl
  have hascii : (checkpointText idx (Bytes.hexText token)).all (·.toNat < 128) = true := by
    rw [List.all_eq_true]
    intro c hc
    rw [decide_eq_true_eq]
    obtain hc | hc := List.mem_append.mp hc
    · obtain hc | hc := List.mem_append.mp hc
      · exact (Json.decimal_printable idx c hc).2
      · obtain rfl | hc := List.mem_cons.mp hc
        · decide
        · exact (Json.hexText_printable token c hc).2
    · rw [List.mem_singleton.mp hc]
      decide
  have hindex : checkpointIndex (decimal idx) = .ok idx := by
    rw [checkpointIndex, if_neg, decimalValue_decimal]
    refine not_or.mpr ⟨decimal_ne_nil idx,
      not_or.mpr ⟨not_lt.mpr (decimal_length_le hidx), not_not.mpr ?_⟩⟩
    exact List.all_eq_true.mpr (decimal_digits idx)
  rw [parseCheckpoint, if_neg (not_not.mpr hascii), hsplit]
  dsimp only
  rw [hindex, checkpointGeneration_hexText htoken]

end Checkpoint

/-! ## The start -/

/-- No call of the start fails. -/
structure Env.Returns (env : Env) : Prop where
  file : ∀ n, env.file n = .done
  read : ∀ n, env.read n = .done
  batch : ∀ n, env.batch n = .returns

section Start

variable {env : Env} {s t : State} {E : Exc → State → Prop}

theorem returns_ask {α : Type} {f : Nat → Except Exc α} {a : α} {Q : α → State → Prop}
    (hf : ∀ n, f n = .ok a) (h : Q a s) : Does (ask f) Q E s :=
  does_ask (fun n _ hb => Except.ok.inj ((hf n).symm.trans hb) ▸ h) fun n _ he =>
    nomatch (hf n).symm.trans he

theorem returns_fileCall {Q : Unit → State → Prop} (henv : env.Returns) (h : Q () s) :
    Does (fileCall env) Q E s :=
  returns_ask (fun n => congrArg FileAnswer.result (henv.file n)) h

theorem returns_dbRead {Q : Unit → State → Prop} (henv : env.Returns) (h : Q () s) :
    Does (dbRead env) Q E s :=
  returns_ask (fun n => by rw [henv.read n]) h

theorem returns_dbContains {key : Key} {Q : Bool → State → Prop} (henv : env.Returns)
    (h : Q (s.db.holds key) s) : Does (dbContains env key) Q E s :=
  .bind (returns_dbRead henv (does_gets (fun s => s.db.holds key) (fun _ => rfl) h))

theorem returns_dbBatch {f : Db → Db} {Q : Unit → State → Prop} (henv : env.Returns)
    (h : Q () { s.setDisk (fun d => { d with db := f d.db }) with db := f s.db }) :
    Does (dbBatch env f) Q E s := by
  refine ⟨?_⟩
  rintro w rfl
  rw [Prog.wp, dbBatch, henv.batch]
  exact h

/-- A start that has opened the database it found, or a new one. -/
structure Opened (s t : State) : Prop where
  journal : t.disk.journal = s.disk.journal
  counts : t.disk.counts = s.disk.counts
  knownGood : t.disk.knownGood = s.disk.knownGood
  db : s.disk.knownGood = none ∨ t.db = s.disk.db
  generation : t.db.generation ≠ none

theorem returns_openDatabase (henv : env.Returns) (hg : Generations s.books)
    (hdisk : t.disk = s.disk) : Does (openDatabase env) (fun _ => Opened s) E t := by
  have hjournal : t.disk.journal = s.disk.journal := congrArg _ hdisk
  have hcounts : t.disk.counts = s.disk.counts := congrArg _ hdisk
  have hknown : t.disk.knownGood = s.disk.knownGood := congrArg _ hdisk
  have hdb : t.disk.db = s.disk.db := congrArg _ hdisk
  refine .bind (returns_dbRead henv ?_)
  refine .bind (Prog.Sees.modify (g := fun t => { t with db := t.disk.db }) (fun _ => rfl) ?_)
  refine .bind (does_gets (·.db) (fun _ => rfl) ?_)
  refine .ite (fun hnew => ?_) fun hnot => .pure ?_
  · have hnone : s.disk.db.generation = none := hdb ▸ hnew.1
    refine .bind (does_ask (fun n token _ => returns_dbBatch henv ?_) fun n e he => nomatch he)
    exact ⟨hjournal, hcounts, hknown, .inl (hg.new hnone).2.2, nofun⟩
  · refine ⟨hjournal, hcounts, hknown, .inr hdb, fun hnone => hnot ⟨hnone, ?_⟩⟩
    have hkeys : s.disk.db.keys = [] :=
      (hg.new (show s.disk.db.generation = none from hdb ▸ hnone)).2.1
    exact hdb.symm ▸ hkeys

theorem returns_checkCounts {Q : Unit → State → Prop} (henv : env.Returns)
    (hcounts : t.disk.counts.length ≤ recordSize * journalEntries t.disk.journal) (h : Q () t) :
    Does (checkCounts env) Q E t := by
  refine .bind (returns_fileCall henv (.bind (does_gets (·.disk) (fun _ => rfl) ?_)))
  refine .ite (fun habove => absurd habove (not_lt.mpr ?_)) fun _ => .pure h
  rw [ceilDiv, Nat.div_le_iff_le_mul_add_pred (by decide)]
  have : 0 < recordSize := by decide
  omega

theorem returns_probeJournal {idx : Nat} {Q : Unit → State → Prop} (henv : env.Returns)
    (hmeta : MetaFree t.disk.journal) (hstored : Stored t.disk.journal t.db idx) (h : Q () t) :
    Does (probeJournal env idx) Q E t := by
  obtain ⟨entry, he, hdb⟩ := hstored
  refine .bind (returns_fileCall henv (.bind (does_gets (·.disk) (fun _ => rfl) ?_)))
  rw [he]
  refine .bind (returns_dbContains henv ?_)
  rw [(hmeta.holds_iff he).mpr hdb]
  exact .pure h

theorem returns_checkJournal {idx : Nat} {Q : Unit → State → Prop} (henv : env.Returns)
    (hmeta : MetaFree t.disk.journal) (hstored : ∀ i < idx, Stored t.disk.journal t.db i)
    (h : Q () t) : Does (checkJournal env idx) Q E t := by
  refine .ite (fun _ => .pure h) fun hne => ?_
  have hpos := Nat.pos_of_ne_zero hne
  obtain ⟨entry, he, -⟩ := hstored (idx - 1) (Nat.sub_lt hpos Nat.one_pos)
  have hlt := journalEntry_lt he
  refine .bind (returns_fileCall henv (.bind (does_gets (·.disk) (fun _ => rfl) ?_)))
  refine .ite (fun hshort => by omega) fun _ => .bind ?_
  refine returns_probeJournal henv hmeta (hstored _ (Nat.sub_lt hpos Nat.one_pos)) ?_
  exact returns_probeJournal henv hmeta (hstored 0 hpos) h

/-- What the start reads of a checkpoint that was written. -/
theorem returns_readCheckpoint {Q : Option (Nat × Option Text) → State → Prop} (henv : env.Returns)
    (hnone : t.disk.knownGood = none → Q none t) (hsome : ∀ text, t.disk.knownGood = some text →
      ∃ checkpoint, parseCheckpoint text = .ok checkpoint ∧ Q (some checkpoint) t) :
    Does (readCheckpoint env) Q E t := by
  refine .bind (returns_fileCall henv (.bind (does_gets (·.disk.knownGood) (fun _ => rfl) ?_)))
  cases hfile : t.disk.knownGood with
  | none => exact .pure (hnone hfile)
  | some text =>
      obtain ⟨checkpoint, hparse, hQ⟩ := hsome text hfile
      refine .bind (.ofExcept (fun c hc => ?_) fun e he => nomatch hparse.symm.trans he)
      obtain rfl : checkpoint = c := Except.ok.inj (hparse.symm.trans hc)
      exact .pure hQ

/-- What a start finds on disk. -/
structure Consistent (s : State) : Prop where
  sizes : Sizes s
  generations : Generations s.books
  ledger : s.books.Ledger
  metaFree : MetaFree s.disk.journal
  knownGood : Covers s.disk.db.watermark s.disk.knownGood

theorem journalEntries_lt {journal : Bytes} (h : journal.length ≤ journalLimit) :
    journalEntries journal < 10 ^ 20 := by
  have hlimit : journalLimit / commitmentSize < 10 ^ 20 := by decide
  exact (Nat.div_le_div_right h).trans_lt hlimit

theorem Consistent.idx_lt (h : Consistent s) {idx : Nat} (hidx : idx ≤ s.disk.db.watermark) :
    idx < 10 ^ 20 := by
  cases idx with
  | zero => exact Nat.pow_pos (by decide)
  | succ idx =>
      obtain ⟨entry, he, -⟩ := h.ledger.watermark idx hidx
      exact (Nat.succ_le_of_lt (journalEntry_lt he)).trans_lt (journalEntries_lt h.sizes.journal)

theorem returns_verifyStorageGeneration (henv : env.Returns) (hs : Consistent s)
    (hopen : Opened s t) {Q : Option Nat → State → Prop} (hQ : ∀ checkpoint : Option Nat,
      (∀ i < checkpoint.getD 0, Stored s.disk.journal s.disk.db i) → Q checkpoint t) :
    Does (verifyStorageGeneration env) Q E t := by
  have hzero : ∀ i < (none : Option Nat).getD 0, Stored s.disk.journal s.disk.db i := fun i hi =>
    absurd hi (Nat.not_lt_zero i)
  obtain ⟨generation, hgeneration⟩ := Option.ne_none_iff_exists'.mp hopen.generation
  refine .bind (does_guarded (returns_readCheckpoint henv (fun hnone => ?_) fun text htext => ?_))
  · refine .bind (does_gets (·.db) (fun _ => rfl) ?_)
    rw [hgeneration]
    exact .pure (hQ none hzero)
  · rw [hopen.knownGood] at htext
    obtain ⟨idx, g, rfl, hg⟩ := hs.generations.knownGood text htext
    obtain ⟨token, htoken, rfl⟩ := hs.generations.token g hg
    have hdb : t.db = s.disk.db := hopen.db.resolve_left fun hnone => nomatch hnone.symm.trans htext
    have hidx : idx ≤ s.disk.db.watermark := by
      obtain ⟨idx', g', heq, hle⟩ := hs.knownGood _ htext
      exact (checkpointText_index heq).trans_le hle
    have hstored : ∀ i < idx, Stored s.disk.journal s.disk.db i := fun i hi =>
      hs.ledger.watermark i (hi.trans_le hidx)
    refine ⟨_, parseCheckpoint_text (hs.idx_lt hidx) htoken, ?_⟩
    refine .bind (does_gets (·.db) (fun _ => rfl) ?_)
    rw [hdb, show s.disk.db.generation = _ from hg]
    refine .ite (fun hne => absurd rfl hne) fun _ =>
      .ite (fun habove => absurd hidx (not_le.mpr habove)) fun _ => ?_
    refine .bind (returns_checkJournal henv (hopen.journal ▸ hs.metaFree) ?_
        (.pure (hQ (some idx) hstored)))
    rw [hopen.journal, hdb]
    exact hstored

theorem returns_openJournal {Q : Unit → State → Prop} (henv : env.Returns) (h : ∀ t, Q () t) :
    Does (openJournal env) Q E t := by
  refine .bind (returns_fileCall henv ?_)
  refine .bind (Prog.Sees.modify
      (g := fun t => { t with journalBuffer := journalPadding t.disk.journal }) (fun _ => rfl) ?_)
  refine .bind (does_gets (·.stamper.config.receiptsOn) (fun _ => rfl) ?_)
  exact .ite (fun _ => returns_fileCall henv (h _)) fun _ => .pure (h _)

theorem returns_openCalendar (henv : env.Returns) (hs : Consistent s) (hdisk : t.disk = s.disk) :
    Does (openCalendar env)
      (fun checkpoint _ => ∀ i < checkpoint.getD 0, Stored s.disk.journal s.disk.db i) E t := by
  refine .bind ((returns_openDatabase (E := E) henv hs.generations hdisk).mono
      (fun _ u hopen => ?_) fun _ _ h => h)
  refine .bind (returns_checkCounts henv ?_ ?_)
  · rw [hopen.counts, hopen.journal]
    exact hs.sizes.counts
  · refine .bind (returns_verifyStorageGeneration henv hs hopen fun checkpoint hstored => ?_)
    exact .bind (returns_openJournal henv fun _ => .pure hstored)

end Start

/-- Whatever a run left on disk, the checks of the next start pass when its calls return, and every
entry below the index they give is in the database; no entry is under the database's own prefix. -/
theorem stop_leaves_an_accepted_start {env : Env} {allowed : Config → Prop} {w : World}
    (h : (service env allowed).Reachable w) (hmeta : MetaFree w.disk.journal)
    {env' : Env} (henv' : env'.Returns) (config : Config) :
    ∃ checkpoint t,
      openCalendar env' { w with toState := w.toState.boot config } = (.ok checkpoint, t) ∧
      ∀ idx < checkpoint.getD 0, ∃ entry, journalEntry w.disk.journal idx = some entry ∧
        w.disk.db.holds (.commitment entry) = true := by
  have hs : Consistent w.toState :=
    ⟨sizes_reachable h, generations_reachable h, ledger_reachable h, hmeta,
      (marks_reachable h hmeta).knownGood⟩
  have hopen :=
    (returns_openCalendar (E := fun _ _ => False) henv' hs (t := w.toState.boot config) rfl).out
    { w with toState := w.toState.boot config } rfl
  rw [Prog.wp] at hopen
  rcases hresult : openCalendar env' { w with toState := w.toState.boot config }
    with ⟨e | checkpoint, t⟩
  · rw [hresult] at hopen
    exact hopen.elim
  · rw [hresult] at hopen
    refine ⟨checkpoint, t, rfl, fun idx hidx => ?_⟩
    obtain ⟨entry, he, hdb⟩ := hopen idx hidx
    exact ⟨entry, he, (hmeta.holds_iff he).mpr hdb⟩

theorem Env.quiet_returns (lib : Lib) : (Env.quiet lib).Returns :=
  ⟨fun _ => rfl, fun _ => rfl, fun _ => rfl⟩

/-- The start after an anchor was saved. -/
theorem start_after_saved_anchor :
    ∃ checkpoint t, openCalendar (.quiet Rehearsal.lib)
      { Rehearsal.saved with toState := Rehearsal.saved.toState.boot (.standard true) } =
        (.ok checkpoint, t) ∧ ∀ idx < checkpoint.getD 0, ∃ entry,
        journalEntry Rehearsal.saved.disk.journal idx = some entry ∧
        Rehearsal.saved.disk.db.holds (.commitment entry) = true :=
  stop_leaves_an_accepted_start Rehearsal.reachable_saved (by decide +kernel)
    (Env.quiet_returns _) _

namespace UnderPrefix

open Rehearsal

/-- The run up to the first save, with its checkpoint written. -/
def checkpointed : World :=
  runEvents (Course.env lib { course with file := fun _ => .done })
    [.start (config 10 false), .append first none, .append second none, .fill, .pass, .pass, .kill]
    (.empty (config 10 false))

theorem reachable_checkpointed :
    (service (Course.env lib { course with file := fun _ => .done }) fun _ => True).Reachable
    checkpointed :=
  reachable_runEvents (by decide +kernel) fun _ _ => trivial

/-- The database does not own to an entry under its prefix, and the next start is refused. -/
theorem start_is_refused :
    ¬∀ w, (service (Course.env lib { course with file := fun _ => .done }) fun _ =>
        True).Reachable w → ∀ env' : Env, env'.Returns → ∀ config, ∃ checkpoint t,
      openCalendar env' { w with toState := w.toState.boot config } = (.ok checkpoint, t) := by
  intro h
  obtain ⟨checkpoint, t, ht⟩ :=
    h checkpointed reachable_checkpointed (.quiet lib) (Env.quiet_returns lib) (config 10 false)
  have hrefused : (openCalendar (.quiet lib)
      { checkpointed with toState := checkpointed.toState.boot (config 10 false) }).1 =
          .error .systemExit := by
    decide +kernel
  rw [ht] at hrefused
  exact nomatch hrefused

end UnderPrefix

end OtsServer.Service
