import OtsServer.Service.Steps
import OtsServer.Service.Json

/-!
# The ledger of obligations

Where every journal entry that the scan has passed is: in the database, pending, or in
a tree that waits. The ledger also knows the lowest index of each entry not yet in the
database, which makes the watermark of a save sound: it is the least of these indexes
over the entries the save leaves, or the scan cursor when it leaves none.

`Books` is what the ledger reads of the state; a move that changes nothing of it keeps
the ledger by definition.
-/

namespace OtsServer.Service

structure Books where
  up : Bool
  journal : Bytes
  /-- The database on disk. -/
  durable : Db
  knownGood : Option Text
  db : Db
  pending : List Bytes
  waiting : AList fun _ : Int => TimestampTx
  unconfirmed : List UnconfirmedTimestampTx
  idxs : AList fun _ : Bytes => Nat
  scanIdx : Nat
  cursor : Option Nat

def State.books (s : State) : Books :=
  { up := s.running
    journal := s.disk.journal
    durable := s.disk.db
    knownGood := s.disk.knownGood
    db := s.db
    pending := s.stamper.pendingCommitments
    waiting := s.stamper.txsWaitingForConfirmation
    unconfirmed := s.stamper.unconfirmedTxs
    idxs := s.stamper.commitmentIdxs
    scanIdx := s.stamper.scanIdx
    cursor := s.stamper.journalCursor }

namespace Books

/-- Someone answers for the entry. -/
def Owned (b : Books) (entry : Bytes) : Prop :=
  b.db.HasCommitment entry ∨ entry ∈ b.pending ∨
    ∃ height tree, b.waiting.lookup height = some tree ∧ entry ∈ tree.commitments

/-- The scan has not run. -/
def Idle (b : Books) : Prop :=
  b.cursor = none ∧ b.pending = [] ∧ b.waiting = ∅ ∧ b.unconfirmed = [] ∧ b.idxs = ∅

/-- What holds of the memory of a process. -/
structure Live (b : Books) : Prop where
  durable : ∀ k ∈ b.db.keys, k ∈ b.durable.keys
  watermark : ∀ i < b.db.watermark, Stored b.journal b.db i
  knownGood : ∀ idx, CheckpointIs b.knownGood idx → ∀ i < idx, Stored b.journal b.db i
  scanned : ∀ i < b.scanIdx, ∃ entry, journalEntry b.journal i = some entry ∧ b.Owned entry
  /-- An entry not in the database has an index, and none above its own. -/
  indexed : ∀ i < b.scanIdx, ∀ entry, journalEntry b.journal i = some entry →
    ¬b.db.HasCommitment entry → ∃ k ≤ i, b.idxs.lookup entry = some k
  index : ∀ entry k, b.idxs.lookup entry = some k → k < b.scanIdx ∧
    journalEntry b.journal k = some entry
  cursor : b.cursor = some b.scanIdx ∨ b.Idle

/-- What holds of the disk, and of the process when there is one. -/
structure Ledger (b : Books) : Prop where
  watermark : ∀ i < b.durable.watermark, Stored b.journal b.durable i
  knownGood : ∀ idx, CheckpointIs b.knownGood idx → ∀ i < idx, Stored b.journal b.durable i
  live : b.up = true → b.Live

variable {b : Books} {entry : Bytes}

/-- The ledger over a longer journal. -/
theorem Ledger.append (h : b.Ledger) (more : Bytes) :
    { b with journal := b.journal ++ more }.Ledger where
  watermark i hi := (h.watermark i hi).append more
  knownGood idx hidx i hi := (h.knownGood idx hidx i hi).append more
  live hup :=
    have hl := h.live hup
    { hl with
      watermark := fun i hi => (hl.watermark i hi).append more
      knownGood := fun idx hidx i hi => (hl.knownGood idx hidx i hi).append more
      scanned := fun i hi => by
        obtain ⟨entry, he, howned⟩ := hl.scanned i hi
        exact ⟨entry, journalEntry_append he more, howned⟩
      indexed := fun i hi entry he => by
        obtain ⟨entry', he', -⟩ := hl.scanned i hi
        have : entry' = entry := Option.some.inj ((journalEntry_append he' more).symm.trans he)
        exact hl.indexed i hi entry (this ▸ he')
      index := fun entry k hk =>
        ⟨(hl.index entry k hk).1, journalEntry_append (hl.index entry k hk).2 more⟩
      cursor := hl.cursor }

/-- An owned entry stays owned when the pending commitments and the trees that wait only hand
commitments to each other. -/
theorem Owned.mono {b' : Books}
    (h : b.Owned entry) (hdb : b.db.HasCommitment entry → b'.Owned entry)
    (hpending : entry ∈ b.pending → b'.Owned entry) (hwaiting : ∀ height tree,
      b.waiting.lookup height = some tree → entry ∈ tree.commitments → b'.Owned entry) :
    b'.Owned entry := by
  obtain h | h | ⟨height, tree, h, hm⟩ := h
  · exact hdb h
  · exact hpending h
  · exact hwaiting height tree h hm

end Books

/-! ## The scan -/

theorem mem_addPending {pending : List Bytes} {c entry : Bytes} :
    entry ∈ addPending pending c ↔ entry ∈ pending ∨ entry = c := by
  rw [addPending]
  split_ifs with h
  · exact ⟨.inl, fun h' => h'.elim id fun h' => h' ▸ h⟩
  · rw [List.mem_append, List.mem_singleton]

theorem mem_foldl_addPending {commitments : List Bytes} {entry : Bytes} : ∀ {pending : List Bytes},
    entry ∈ commitments.foldl addPending pending ↔ entry ∈ pending ∨ entry ∈ commitments := by
  induction commitments with
  | nil => simp
  | cons c commitments ih =>
      intro pending
      rw [List.foldl_cons, ih, mem_addPending, List.mem_cons, or_assoc]

theorem lookup_setDefault_of_some {idxs : AList fun _ : Bytes => Nat} {c entry : Bytes}
    {idx k : Nat} (h : idxs.lookup entry = some k) :
    (setDefault idxs c idx).lookup entry = some k := by
  rw [setDefault]
  split_ifs with hc
  · exact h
  · rw [AList.lookup_insert_ne, h]
    rintro rfl
    exact hc (AList.lookup_isSome.mp (h ▸ rfl))

theorem lookup_setDefault_self (idxs : AList fun _ : Bytes => Nat) (c : Bytes) (idx : Nat) :
    (∃ k, idxs.lookup c = some k ∧ (setDefault idxs c idx).lookup c = some k) ∨
      (setDefault idxs c idx).lookup c = some idx := by
  rw [setDefault]
  split_ifs with hc
  · obtain ⟨k, hk⟩ := Option.isSome_iff_exists.mp (AList.lookup_isSome.mpr hc)
    exact .inl ⟨k, hk, hk⟩
  · exact .inr (AList.lookup_insert _)

theorem lookup_setDefault {idxs : AList fun _ : Bytes => Nat} {c entry : Bytes} {idx k : Nat}
    (h : (setDefault idxs c idx).lookup entry = some k) :
    idxs.lookup entry = some k ∨ (entry = c ∧ k = idx) := by
  rw [setDefault] at h
  split_ifs at h with hc
  · exact .inl h
  · by_cases he : entry = c
    · rw [he, AList.lookup_insert, Option.some.injEq] at h
      exact .inr ⟨he, h.symm⟩
    · rw [AList.lookup_insert_ne he] at h
      exact .inl h

/-- Releasing commitments leaves the others. -/
theorem lookup_foldl_erase {β : Type} {entry : Bytes} (commitments : List Bytes) :
    ∀ m : AList fun _ : Bytes => β, (commitments.foldl (fun m c => m.erase c) m).lookup entry =
      if entry ∈ commitments then none else m.lookup entry := by
  induction commitments with
  | nil => simp
  | cons c commitments ih =>
      intro m
      rw [List.foldl_cons, ih]
      by_cases hc : entry = c
      · subst hc
        rw [AList.lookup_erase, ite_self, if_pos (List.mem_cons_self ..)]
      · simp only [List.mem_cons, hc, false_or, AList.lookup_erase_ne hc]

/-! ## The watermark -/

section Watermark

variable {s : State} {height : Int} {confirmed : TimestampTx}

theorem mem_checkpointRemaining {idxs : AList fun _ : Bytes => Nat} {k : Nat}
    {commitments : List Bytes} :
    k ∈ (idxs.entries.filter fun e => decide (e.1 ∉ commitments)).map (·.2) ↔
      ∃ entry ∉ commitments, idxs.lookup entry = some k := by
  simp only [List.mem_map, List.mem_filter, decide_eq_true_eq]
  constructor
  · rintro ⟨⟨entry, k⟩, ⟨hmem, hnot⟩, rfl⟩
    exact ⟨entry, hnot, AList.mem_lookup_iff.mpr hmem⟩
  · rintro ⟨entry, hnot, hk⟩
    exact ⟨⟨entry, k⟩, ⟨AList.mem_lookup_iff.mp hk, hnot⟩, rfl⟩

/-- What `__checkpoint_after` computes: no index that the save leaves is below it, and it is one
of them or the cursor. -/
theorem checkpointAfter_spec {m : Stamper} {idx : Nat}
    (h : checkpointAfter m confirmed = some idx) :
    (∀ entry ∉ confirmed.commitments, ∀ k, m.commitmentIdxs.lookup entry = some k → idx ≤ k) ∧
      ((∃ entry ∉ confirmed.commitments, m.commitmentIdxs.lookup entry = some idx) ∨
        m.journalCursor = some idx) := by
  rw [checkpointAfter] at h
  split at h
  next hmin =>
    obtain rfl := Option.some.inj h
    obtain ⟨hmem, hle⟩ := List.min?_eq_some_iff.mp hmin
    refine ⟨fun entry hnot k hk => hle k (mem_checkpointRemaining.mpr ⟨entry, hnot, hk⟩), .inl ?_⟩
    exact mem_checkpointRemaining.mp hmem
  next hmin =>
    refine ⟨fun entry hnot k hk => ?_, .inr h⟩
    have hnil := List.min?_eq_none_iff.mp hmin
    have hmem := mem_checkpointRemaining.mpr ⟨entry, hnot, hk⟩
    rw [hnil] at hmem
    exact absurd hmem (List.not_mem_nil)

/-- A watermark covers only what is stored once the save's commitments are. -/
theorem stored_below_watermark (hl : s.books.Live) {idx : Nat}
    (hidx : checkpointAfter s.stamper confirmed = some idx) (lib : Lib) (watermark : Option Nat) :
    ∀ i < idx, Stored s.disk.journal (s.db.put (savedKeys lib confirmed) watermark) i := by
  intro i hi
  obtain ⟨hbelow, hsource⟩ := checkpointAfter_spec hidx
  have hscan : idx ≤ s.stamper.scanIdx := by
    obtain ⟨entry, -, hk⟩ | hcursor := hsource
    · exact (hl.index entry idx hk).1.le
    · obtain hc | hidle := hl.cursor
      · exact (Option.some.inj (hcursor.symm.trans hc)).le
      · exact nomatch hidle.1.symm.trans hcursor
  obtain ⟨entry, he, -⟩ := hl.scanned i (hi.trans_le hscan)
  refine ⟨entry, he, ?_⟩
  by_cases hdb : s.db.HasCommitment entry
  · exact List.mem_append_left _ hdb
  · obtain ⟨k, hki, hk⟩ := hl.indexed i (hi.trans_le hscan) entry he hdb
    have hmem : entry ∈ confirmed.commitments := by
      by_contra hnot
      exact absurd (hbelow entry hnot k hk) (by omega)
    exact List.mem_append_right _ (List.mem_cons_of_mem _ (List.mem_map_of_mem hmem))

end Watermark

/-! ## Moves keep the ledger -/

section Moves

variable {lib : Lib} {allowed : Config → Prop} {s t : State}

theorem ledger_initial (h : Initial s) : s.books.Ledger where
  watermark i hi := by
    rw [show s.books.durable.watermark = 0 by rw [State.books, h.disk]; rfl] at hi
    exact absurd hi (Nat.not_lt_zero i)
  knownGood idx hidx i hi := by
    rw [show s.books.knownGood = none by rw [State.books, h.disk]; rfl] at hidx
    obtain ⟨-, rfl⟩ | ⟨_, _, h, _⟩ := hidx
    · exact absurd hi (Nat.not_lt_zero i)
    · exact nomatch h
  live hup := nomatch h.down.symm.trans hup

theorem ledger_boot (h : s.books.Ledger) (config : Config) (buffer : Bytes) :
    ({ s.boot config with journalBuffer := buffer } : State).books.Ledger where
  watermark := h.watermark
  knownGood := h.knownGood
  live _ :=
    { durable := fun _ hk => hk
      watermark := h.watermark
      knownGood := h.knownGood
      scanned := fun i hi => absurd hi (Nat.not_lt_zero i)
      indexed := fun i hi => absurd hi (Nat.not_lt_zero i)
      index := fun _ _ hk => nomatch hk
      cursor := .inr ⟨rfl, rfl, rfl, rfl, rfl⟩ }

/-- A fresh stamper may start anywhere below which everything is stored. -/
theorem ledger_seek (h : s.books.Ledger) {config : Config} {next : ℚ} {idx : Nat}
    (hfresh : s.stamper = { Stamper.fresh config with nextTimestampTx := next })
    (hidx : CheckpointIs s.disk.knownGood idx) :
    (s.setStamper fun m => { m with scanIdx := idx }).books.Ledger where
  watermark := h.watermark
  knownGood := h.knownGood
  live hup := by
    have hl := h.live hup
    have hstored := hl.knownGood idx hidx
    refine ⟨hl.durable, hl.watermark, hl.knownGood, fun i hi => ?_, fun i hi entry he hnot => ?_,
      fun entry k hk => ?_, .inr ?_⟩
    · obtain ⟨entry, he, hdb⟩ := hstored i hi
      exact ⟨entry, he, .inl hdb⟩
    · exact absurd ((hstored i hi).hasCommitment he) hnot
    · rw [State.books, State.setStamper, hfresh] at hk
      cases hk
    · rw [State.books, State.setStamper, hfresh]
      exact ⟨rfl, rfl, rfl, rfl, rfl⟩

theorem ledger_look (h : s.books.Ledger) : s.looked.books.Ledger where
  watermark := h.watermark
  knownGood := h.knownGood
  live hup :=
    have hl := h.live hup
    { durable := hl.durable, watermark := hl.watermark, knownGood := hl.knownGood
      scanned := hl.scanned, indexed := hl.indexed, index := hl.index, cursor := .inl rfl }

theorem ledger_skip (h : s.books.Ledger) {commitment : Bytes}
    (hentry : journalEntry s.disk.journal s.stamper.scanIdx = some commitment)
    (hheld : s.db.holds (.commitment commitment) = true) :
    (s.setStamper fun m => { m with
      scanIdx := m.scanIdx + 1, journalCursor := some (m.scanIdx + 1) }).books.Ledger where
  watermark := h.watermark
  knownGood := h.knownGood
  live hup := by
    have hl := h.live hup
    have hdb := Db.hasCommitment_of_holds hheld
    refine ⟨hl.durable, hl.watermark, hl.knownGood, fun i hi => ?_, fun i hi entry he hnot => ?_,
      fun entry k hk => ?_, .inl rfl⟩
    · obtain hlt | rfl := Nat.lt_succ_iff_lt_or_eq.mp hi
      · exact hl.scanned i hlt
      · exact ⟨commitment, hentry, .inl hdb⟩
    · obtain hlt | rfl := Nat.lt_succ_iff_lt_or_eq.mp hi
      · exact hl.indexed i hlt entry he hnot
      · exact absurd (Option.some.inj (hentry.symm.trans he) ▸ hdb) hnot
    · exact ⟨(hl.index entry k hk).1.trans (Nat.lt_succ_self _), (hl.index entry k hk).2⟩

theorem ledger_take (h : s.books.Ledger) {commitment : Bytes} (count : Option Nat)
    (hentry : journalEntry s.disk.journal s.stamper.scanIdx = some commitment) :
    (s.setStamper (Stamper.take commitment count)).books.Ledger where
  watermark := h.watermark
  knownGood := h.knownGood
  live hup := by
    have hl := h.live hup
    have hmem : ∀ {entry}, entry ∈ s.stamper.pendingCommitments ∨ entry = commitment →
        entry ∈ (s.setStamper (Stamper.take commitment count)).books.pending := mem_addPending.mpr
    refine ⟨hl.durable, hl.watermark, hl.knownGood, fun i hi => ?_, fun i hi entry he hnot => ?_,
      fun entry k hk => ?_, .inl rfl⟩
    · obtain hlt | rfl := Nat.lt_succ_iff_lt_or_eq.mp hi
      · obtain ⟨entry, he, howned⟩ := hl.scanned i hlt
        refine ⟨entry, he, howned.mono .inl (fun h => .inr (.inl (hmem (.inl h)))) ?_⟩
        exact fun height tree htree hm => .inr (.inr ⟨height, tree, htree, hm⟩)
      · exact ⟨commitment, hentry, .inr (.inl (hmem (.inr rfl)))⟩
    · obtain hlt | rfl := Nat.lt_succ_iff_lt_or_eq.mp hi
      · obtain ⟨k, hki, hk⟩ := hl.indexed i hlt entry he hnot
        exact ⟨k, hki, lookup_setDefault_of_some hk⟩
      · obtain rfl := Option.some.inj (hentry.symm.trans he)
        obtain ⟨k, hk,
          hk'⟩ | hk := lookup_setDefault_self s.stamper.commitmentIdxs commitment s.stamper.scanIdx
        · exact ⟨k, (hl.index _ k hk).1.le, hk'⟩
        · exact ⟨s.stamper.scanIdx, le_rfl, hk⟩
    · obtain hk | ⟨rfl, rfl⟩ := lookup_setDefault hk
      · exact ⟨(hl.index entry k hk).1.trans (Nat.lt_succ_self _), (hl.index entry k hk).2⟩
      · exact ⟨Nat.lt_succ_self _, hentry⟩

theorem ledger_requeue (h : s.books.Ledger) {height : Int} {reorged : TimestampTx}
    (hwaits : s.stamper.txsWaitingForConfirmation.lookup height = some reorged) :
    (s.setStamper (Stamper.requeue height reorged)).books.Ledger where
  watermark := h.watermark
  knownGood := h.knownGood
  live hup := by
    have hl := h.live hup
    refine { hl with
      scanned := fun i hi => ?_
      cursor := .inl (hl.cursor.resolve_right fun hidle => ?_) }
    · obtain ⟨entry, he, howned⟩ := hl.scanned i hi
      refine ⟨entry, he, howned.mono .inl ?_ ?_⟩
      · exact fun h => .inr (.inl (mem_foldl_addPending.mpr (.inl h)))
      · intro height' tree htree hm
        by_cases hh : height' = height
        · subst hh
          obtain rfl := Option.some.inj (hwaits.symm.trans htree)
          exact .inr (.inl (mem_foldl_addPending.mpr (.inr hm)))
        · exact .inr (.inr ⟨height', tree, (AList.lookup_erase_ne hh).trans htree, hm⟩)
    · rw [show s.stamper.txsWaitingForConfirmation = ∅ from hidle.2.2.1] at hwaits
      exact nomatch hwaits

theorem ledger_confirm (h : s.books.Ledger) {height : Int} {hash : Bytes}
    {u : UnconfirmedTimestampTx} (hu : u ∈ s.stamper.unconfirmedTxs)
    (hnone : s.stamper.txsWaitingForConfirmation.lookup height = none) :
    (s.confirm lib height hash u).books.Ledger where
  watermark := h.watermark
  knownGood := h.knownGood
  live hup := by
    have hl := h.live hup
    refine { hl with
      scanned := fun i hi => ?_
      cursor := .inl (hl.cursor.resolve_right fun hidle => ?_) }
    · obtain ⟨entry, he, howned⟩ := hl.scanned i hi
      refine ⟨entry, he, howned.mono .inl (fun hm => ?_) fun height' tree htree hm => ?_⟩
      · rw [show s.books.pending = s.stamper.pendingCommitments from rfl,
          ← List.take_append_drop u.n s.stamper.pendingCommitments, List.mem_append] at hm
        exact hm.elim (fun hm =>
            .inr (.inr ⟨height, minedTree s.stamper height u, AList.lookup_insert _, hm⟩))
          fun hm => .inr (.inl hm)
      · refine .inr (.inr ⟨height', tree, (AList.lookup_insert_ne ?_).trans htree, hm⟩)
        rintro rfl
        exact nomatch hnone.symm.trans htree
    · rw [show s.stamper.unconfirmedTxs = [] from hidle.2.2.2.1] at hu
      exact absurd hu List.not_mem_nil

variable (lib) in
theorem ledger_land (h : s.books.Ledger) (hup : s.running = true) (confirmed : TimestampTx) :
    (s.setDisk (Disk.land lib confirmed (checkpointAfter s.stamper confirmed))).books.Ledger := by
  have hl := h.live hup
  refine ⟨?_, fun idx hidx i hi => (h.knownGood idx hidx i hi).put _ _, fun _ =>
    { hl with durable := fun k hk => List.mem_append_left _ (hl.durable k hk) }⟩
  intro i hi
  cases hidx : checkpointAfter s.stamper confirmed with
  | none =>
      rw [hidx] at hi
      exact (h.watermark i hi).put _ _
  | some idx =>
      rw [hidx] at hi
      refine (stored_below_watermark hl hidx lib none i hi).mono fun k hk => ?_
      exact List.mem_append.mpr ((List.mem_append.mp hk).imp_left (hl.durable k))

variable (lib) in
theorem ledger_save (h : s.books.Ledger)
    (hup : s.running = true) {height : Int} {confirmed : TimestampTx}
    (hwaits : s.stamper.txsWaitingForConfirmation.lookup height = some confirmed) (receipts : Bytes)
    (markers : AList fun _ : Bytes => Bytes) :
    (s.save lib height confirmed receipts markers).books.Ledger := by
  have hl := h.live hup
  have hsaved : ∀ entry ∈ confirmed.commitments, ∀ db : Db, ∀ w,
      (db.put (savedKeys lib confirmed) w).HasCommitment entry :=
    fun entry hm _ _ => List.mem_append_right _ (List.mem_cons_of_mem _ (List.mem_map_of_mem hm))
  have hgrow : ∀ entry w, s.db.HasCommitment entry →
      (s.db.put (savedKeys lib confirmed) w).HasCommitment entry :=
    fun _ _ h => List.mem_append_left _ h
  have hlanded := ledger_land lib h hup confirmed
  refine ⟨hlanded.watermark, hlanded.knownGood, fun _ => ⟨?_, ?_, ?_, ?_, ?_, ?_, ?_⟩⟩
  · exact fun k hk => List.mem_append.mpr ((List.mem_append.mp hk).imp_left (hl.durable k))
  · intro i hi
    cases hidx : checkpointAfter s.stamper confirmed with
    | none =>
        simp only [State.books, State.save, hidx] at hi
        exact (hl.watermark i hi).put _ _
    | some idx =>
        simp only [State.books, State.save, hidx] at hi
        exact stored_below_watermark hl hidx lib _ i hi
  · exact fun idx hidx i hi => (hl.knownGood idx hidx i hi).put _ _
  · intro i hi
    obtain ⟨entry, he, howned⟩ := hl.scanned i hi
    refine ⟨entry, he, howned.mono (fun h => .inl (hgrow entry _ h)) (fun h => .inr (.inl h)) ?_⟩
    intro height' tree htree hm
    by_cases hh : height' = height
    · subst hh
      obtain rfl := Option.some.inj (hwaits.symm.trans htree)
      exact .inl (hsaved entry hm _ _)
    · exact .inr (.inr ⟨height', tree, (AList.lookup_erase_ne hh).trans htree, hm⟩)
  · intro i hi entry he hnot
    obtain ⟨k, hki, hk⟩ := hl.indexed i hi entry he fun h => hnot (hgrow entry _ h)
    refine ⟨k, hki, (lookup_foldl_erase _ _).trans ?_⟩
    rw [if_neg fun hm => hnot (hsaved entry hm _ _)]
    exact hk
  · intro entry k hk
    replace hk := (lookup_foldl_erase _ _).symm.trans hk
    split_ifs at hk
    exact hl.index entry k hk
  · refine .inl (hl.cursor.resolve_right fun hidle => ?_)
    rw [show s.stamper.txsWaitingForConfirmation = ∅ from hidle.2.2.1] at hwaits
    exact nomatch hwaits

theorem ledger_checkpoint (h : s.books.Ledger) (hup : s.running = true) {idx : Nat}
    {generation : Text} (hidx : s.db.watermark = idx) :
    (s.setDisk fun disk =>
        { disk with knownGood := some (checkpointText idx generation) }).books.Ledger := by
  have hl := h.live hup
  have hcheckpoint : ∀ n, CheckpointIs (some (checkpointText idx generation)) n →
      n = s.db.watermark := by
    rintro n (⟨h, -⟩ | ⟨text, generation', h, hparse⟩)
    · exact nomatch h
    · rw [← Option.some.inj h] at hparse
      exact (parseCheckpoint_index hparse).trans hidx.symm
  refine ⟨h.watermark, fun n hn i hi => ?_, fun _ => { hl with knownGood := fun n hn i hi => ?_ }⟩
  · rw [hcheckpoint n hn] at hi
    exact (hl.watermark i hi).mono hl.durable
  · rw [hcheckpoint n hn] at hi
    exact hl.watermark i hi

/-- Every move keeps the ledger. -/
theorem Books.Ledger.move (h : s.books.Ledger) (hm : Move lib allowed s t) : t.books.Ledger := by
  cases hm with
  | adopt token hdown =>
      exact ⟨fun i hi => absurd hi (Nat.not_lt_zero i), h.knownGood, fun hup =>
        nomatch hdown.symm.trans hup⟩
  | boot config => exact ledger_boot h config _
  | stop _ hdown hdisk =>
      refine ⟨?_, ?_, fun hup => nomatch hdown.symm.trans hup⟩
      · simpa only [State.books, hdisk] using h.watermark
      · simpa only [State.books, hdisk] using h.knownGood
  | append record records => exact h.append _
  | appendFails record records n => exact h.append _
  | flush => exact h.append _
  | adjust => exact h
  | seek config next idx hfresh hidx => exact ledger_seek h hfresh hidx
  | look => exact ledger_look h
  | skip commitment hentry hheld => exact ledger_skip h hentry hheld
  | take commitment count hentry => exact ledger_take h count hentry
  | requeue height reorged hwaits => exact ledger_requeue h hwaits
  | confirm height hash u hu hnone => exact ledger_confirm h hu hnone
  | abandon =>
      refine ⟨h.watermark, h.knownGood, fun hup => ?_⟩
      have hl := h.live hup
      exact { hl with
        cursor := hl.cursor.imp id fun hidle =>
          ⟨hidle.1, hidle.2.1, hidle.2.2.1, rfl, hidle.2.2.2.2⟩ }
  | send u hpending =>
      refine ⟨h.watermark, h.knownGood, fun hup => ?_⟩
      have hl := h.live hup
      exact { hl with cursor := .inl (hl.cursor.resolve_right fun hidle => hpending hidle.2.1) }
  | land height confirmed hup hwaits => exact ledger_land lib h hup confirmed
  | save height confirmed receipts markers hup hwaits =>
      exact ledger_save lib h hup hwaits receipts markers
  | checkpoint idx generation hup _ hidx => exact ledger_checkpoint h hup hidx
  | halt | count | log | reread | notice | mark | tail | recover | settle | discard | setAside =>
      exact h

end Moves

theorem ledger_reachable {env : Env} {allowed : Config → Prop} {w : World}
    (h : (service env allowed).Reachable w) : w.books.Ledger :=
  reachable_of_moves (I := fun s => s.books.Ledger) (fun _ => ledger_initial)
    (fun _ _ => Books.Ledger.move) h

/-! ## Conservation -/

section Conservation

variable {journal commitment : Bytes}

theorem inJournalFrom_of_entry {idx : Nat} (he : journalEntry journal idx = some commitment) :
    ∀ n start, start ≤ idx → idx < start + n → inJournalFrom journal commitment n start = true := by
  intro n
  induction n with
  | zero => omega
  | succ n ih =>
      intro start hle hlt
      obtain ⟨recent, hrecent⟩ := exists_journalEntry (hle.trans_lt (journalEntry_lt he))
      rw [inJournalFrom, hrecent]
      dsimp only
      rw [Bool.or_eq_true, decide_eq_true_eq]
      obtain rfl | hne := Nat.eq_or_lt_of_le hle
      · exact .inl (Option.some.inj (hrecent.symm.trans he))
      · exact .inr (ih (start + 1) hne (by omega))

/-- An owned entry that is not in the database is pending or in a tree, and the answer says so. -/
theorem isPending_of_outstanding {lib : Lib} {s : State} {idx cursor : Nat}
    (hcursor : s.stamper.journalCursor = some cursor)
    (he : journalEntry s.disk.journal idx = some commitment)
    (howned : idx < cursor → s.books.Owned commitment) (hnot : ¬s.db.HasCommitment commitment) :
    ∃ reason, isPending lib s commitment = some reason := by
  rw [isPending]
  split_ifs with hpending hjournal
  · exact ⟨_, rfl⟩
  · exact ⟨_, rfl⟩
  · have hlt : idx < cursor := by
      by_contra hge
      refine hjournal ?_
      rw [hcursor]
      have := journalEntry_lt he
      exact inJournalFrom_of_entry he _ cursor (not_lt.mp hge) (by omega)
    obtain h | h | ⟨height, tree, htree, hm⟩ := howned hlt
    · exact absurd h hnot
    · exact absurd h hpending
    · rw [← Option.isSome_iff_exists, Option.isSome_map, List.find?_isSome]
      exact ⟨⟨height, tree⟩, List.mem_reverse.mpr (AList.mem_lookup_iff.mp htree),
        decide_eq_true hm⟩

/-- Every entry that the scan has passed is in the database, pending, or in a tree that waits;
and `is_pending` has a reason for every entry that is not in the database. -/
theorem obligations_are_conserved {env : Env} {allowed : Config → Prop} {w : World}
    (h : (service env allowed).Reachable w) (hup : w.running = true)
    (hmeta : MetaFree w.disk.journal) {cursor : Nat}
    (hcursor : w.stamper.journalCursor = some cursor) :
    (∀ idx < cursor, ∃ entry, journalEntry w.disk.journal idx = some entry ∧
      (w.db.holds (.commitment entry) = true ∨ entry ∈ w.stamper.pendingCommitments ∨
        ∃ height tree, w.stamper.txsWaitingForConfirmation.lookup height = some tree ∧
          entry ∈ tree.commitments)) ∧
    ∀ idx entry, journalEntry w.disk.journal idx = some entry →
      w.db.holds (.commitment entry) = false →
        ∃ reason, isPending env.lib w.toState entry = some reason := by
  have hl := (ledger_reachable h).live hup
  have hscan : cursor = w.stamper.scanIdx := by
    obtain hc | hidle := hl.cursor
    · exact Option.some.inj (hcursor.symm.trans hc)
    · exact nomatch hcursor.symm.trans hidle.1
  have howned : ∀ idx entry, idx < cursor → journalEntry w.disk.journal idx = some entry →
      w.books.Owned entry := by
    intro idx entry hlt he
    obtain ⟨entry', he', howned⟩ := hl.scanned idx (hlt.trans_eq hscan)
    exact Option.some.inj (he'.symm.trans he) ▸ howned
  refine ⟨fun idx hlt => ?_, fun idx entry he hnot => ?_⟩
  · obtain ⟨entry, he, -⟩ := hl.scanned idx (hlt.trans_eq hscan)
    exact ⟨entry, he, (howned idx entry hlt he).imp_left fun hdb => (hmeta.holds_iff he).mpr hdb⟩
  · refine isPending_of_outstanding hcursor he (fun hlt => howned idx entry hlt he) fun hdb => ?_
    exact nomatch hnot.symm.trans ((hmeta.holds_iff he).mpr hdb)

/-- A process starts, takes a submission and scans it. -/
def firstScan : List Event := [.start (.standard false), .append (List.replicate 36 1) none, .fill]

theorem reachable_firstScan : (service (.quiet .idle) fun _ => True).Reachable
    (runEvents (.quiet .idle) firstScan (.empty (.standard false))) :=
  reachable_runEvents (by decide +kernel) fun _ _ => trivial

/-- An entry that was scanned waits to be stamped. -/
theorem obligation_of_first_entry :
    ∃ reason, isPending Lib.idle
      (runEvents (.quiet .idle) firstScan (.empty (.standard false))).toState
      (List.replicate 36 1) = some reason :=
  (obligations_are_conserved (reachable_firstScan) (by decide +kernel)
    (by decide +kernel) (show _ = some 1 by decide +kernel)).2 0 _ (by decide +kernel)
    (by decide +kernel)

end Conservation

end OtsServer.Service
