import OtsServer.Service.Counts
import OtsServer.Service.Owed

/-!
# Bills

A receipt bills the leaves of its tree. The number comes from the sidecar, is summed when a version
is broadcast, goes with whichever version is mined, and may be read back from a marker in a later
process. It is never more than the leaves that were counted in the rounds of the tree's entries, and
no entry is in the trees of two receipts: an entry is pending, in one tree that waits, or in the
database, and a tree is saved out of the ones that wait.

Two receipts can share an entry only where a batch raised and landed: the process does not see it,
and anchors its entries again. The save of the second anchor finds the marker of the first then, and
the history says so.
-/

namespace OtsServer.Service

/-! ## What is read of a state -/

structure Account where
  up : Bool
  journal : Bytes
  submitted : List (Bytes × Nat)
  mined : List Found
  lines : List Bytes
  markers : AList fun _ : Bytes => Bytes
  durable : List Key
  held : List Key
  pending : List Bytes
  waiting : AList fun _ : Int => TimestampTx
  unconfirmed : List UnconfirmedTimestampTx
  records : AList fun _ : Bytes => Nat
  scanIdx : Nat

def State.account (s : State) : Account :=
  { up := s.running
    journal := s.disk.journal
    submitted := s.history.submitted
    mined := s.history.mined
    lines := completeLines s.disk.receipts
    markers := s.disk.markers
    durable := s.disk.db.keys
    held := s.db.keys
    pending := s.stamper.pendingCommitments
    waiting := s.stamper.txsWaitingForConfirmation
    unconfirmed := s.stamper.unconfirmedTxs
    records := s.stamper.commitmentRecords
    scanIdx := s.stamper.scanIdx }

/-- The counted leaves of the rounds that gave the entries. -/
def leavesOfAll (submitted : List (Bytes × Nat)) (entries : List Bytes) : Nat :=
  (entries.map (leavesOf submitted)).sum

/-- No two places of the journal hold one entry. -/
def DistinctEntries (journal : Bytes) : Prop :=
  ∀ i j entry, journalEntry journal i = some entry → journalEntry journal j = some entry → i = j

instance (journal : Bytes) : Decidable (DistinctEntries journal) :=
  decidable_of_iff
    (∀ i < journalEntries journal, ∀ j < journalEntries journal, ∀ entry ∈ journalEntry journal i,
      journalEntry journal j = some entry → i = j)
    ⟨fun h i j entry hi hj => h i (journalEntry_lt hi) j (journalEntry_lt hj) entry hi hj,
      fun h i _ j _ entry hi hj => h i j entry hi hj⟩

/-- Anchors found under one txid have one tree. -/
def OneTree (mined : List Found) : Prop :=
  ∀ m ∈ mined, ∀ m' ∈ mined, m.txid = m'.txid → m.commitments = m'.commitments

instance (mined : List Found) : Decidable (OneTree mined) :=
  inferInstanceAs
    (Decidable (∀ m ∈ mined, ∀ m' ∈ mined, m.txid = m'.txid → m.commitments = m'.commitments))

/-- No save came to its marker while the marker of another anchor stood whose batch had raised and
landed, with an entry of its own. -/
def NoOverlap (overlapped : List (Bytes × Bool)) : Prop := ∀ o ∈ overlapped, o.2 = false

instance (overlapped : List (Bytes × Bool)) : Decidable (NoOverlap overlapped) :=
  inferInstanceAs (Decidable (∀ o ∈ overlapped, o.2 = false))

namespace Account

variable {a b : Account} {entry : Bytes} {height : Int} {tree : TimestampTx}

/-! ## Entries have one place -/

/-- The entry is pending or in a tree that waits. -/
def Unsaved (a : Account) (entry : Bytes) : Prop :=
  entry ∈ a.pending ∨ ∃ height tree, a.waiting.lookup height = some tree ∧ entry ∈ tree.commitments

/-- What is pending and the trees that wait have no entry twice, and none that the database
holds. -/
structure Apart (a : Account) : Prop where
  pending : a.pending.Nodup
  tree : ∀ height tree, a.waiting.lookup height = some tree → tree.commitments.Nodup
  left : ∀ height tree, a.waiting.lookup height = some tree → tree.commitments.Disjoint a.pending
  trees : ∀ height height' tree tree', height ≠ height' → a.waiting.lookup height = some tree →
    a.waiting.lookup height' = some tree' → tree.commitments.Disjoint tree'.commitments
  scanned : ∀ entry, a.Unsaved entry → ∃ i < a.scanIdx, journalEntry a.journal i = some entry
  unsaved : ∀ entry, a.Unsaved entry → Key.commitment entry ∉ a.held

/-- What is pending and what waits has stayed, and the database the process sees. -/
theorem Apart.same (h : a.Apart) (hpending : b.pending = a.pending)
    (hwaiting : b.waiting = a.waiting) (hheld : b.held = a.held)
    (hjournal : ∃ more, b.journal = a.journal ++ more) (hscan : a.scanIdx ≤ b.scanIdx) :
    b.Apart where
  pending := hpending ▸ h.pending
  tree := hwaiting ▸ h.tree
  left := by
    rw [hpending, hwaiting]
    exact h.left
  trees := hwaiting ▸ h.trees
  scanned entry hentry := by
    rw [Unsaved, hpending, hwaiting] at hentry
    obtain ⟨i, hi, he⟩ := h.scanned entry hentry
    obtain ⟨more, hmore⟩ := hjournal
    rw [hmore]
    exact ⟨i, hi.trans_le hscan, journalEntry_append he more⟩
  unsaved entry hentry := by
    rw [Unsaved, hpending, hwaiting] at hentry
    rw [hheld]
    exact h.unsaved entry hentry

/-- Nothing is pending and no tree waits. -/
theorem Apart.idle (hpending : a.pending = []) (hwaiting : a.waiting = ∅) : a.Apart := by
  have hnone : ∀ height tree, a.waiting.lookup height ≠ some tree := by
    intro height tree htree
    rw [hwaiting, AList.lookup_empty] at htree
    cases htree
  have hunsaved : ∀ entry, ¬a.Unsaved entry := by
    rintro entry (he | ⟨height, tree, htree, -⟩)
    · rw [hpending] at he
      exact List.not_mem_nil he
    · exact hnone height tree htree
  exact
    { pending := hpending ▸ List.nodup_nil
      tree := fun height tree htree => absurd htree (hnone height tree)
      left := fun height tree htree => absurd htree (hnone height tree)
      trees := fun height _ tree _ _ htree => absurd htree (hnone height tree)
      scanned := fun entry hentry => absurd hentry (hunsaved entry)
      unsaved := fun entry hentry => absurd hentry (hunsaved entry) }

theorem nodup_addPending {pending : List Bytes} (h : pending.Nodup) (c : Bytes) :
    (addPending pending c).Nodup := by
  rw [addPending]
  split_ifs with hc
  · exact h
  · exact List.nodup_append.mpr ⟨h, List.nodup_singleton c, fun x hx y hy => by
      rw [List.mem_singleton.mp hy]
      rintro rfl
      exact hc hx⟩

theorem nodup_foldl_addPending (more : List Bytes) : ∀ {pending : List Bytes}, pending.Nodup →
    (more.foldl addPending pending).Nodup := by
  induction more with
  | nil => exact fun h => h
  | cons c more ih => exact fun h => ih (nodup_addPending h c)

/-- The scan takes an entry that is nowhere yet. -/
theorem Apart.take (h : a.Apart) (hdistinct : DistinctEntries a.journal)
    (hentry : journalEntry a.journal a.scanIdx = some entry)
    (hnew : Key.commitment entry ∉ a.held) (records : AList fun _ : Bytes => Nat) :
    { a with
      pending := addPending a.pending entry
      records := records
      scanIdx := a.scanIdx + 1 }.Apart := by
  have hfresh : ¬a.Unsaved entry := by
    intro hunsaved
    obtain ⟨i, hi, he⟩ := h.scanned entry hunsaved
    exact hi.ne (hdistinct i a.scanIdx entry he hentry)
  have hcases : ∀ e, ({ a with
      pending := addPending a.pending entry
      records := records
      scanIdx := a.scanIdx + 1 } : Account).Unsaved e → a.Unsaved e ∨ e = entry := by
    rintro e (he | he)
    · exact (mem_addPending.mp he).imp_left .inl
    · exact .inl (.inr he)
  refine ⟨nodup_addPending h.pending entry, h.tree, fun height tree htree e he hpending => ?_,
    h.trees, fun e he => ?_, fun e he => ?_⟩
  · obtain hpending | rfl := mem_addPending.mp hpending
    · exact h.left height tree htree he hpending
    · exact hfresh (.inr ⟨height, tree, htree, he⟩)
  · obtain he | rfl := hcases e he
    · obtain ⟨i, hi, hei⟩ := h.scanned e he
      exact ⟨i, hi.trans (Nat.lt_succ_self _), hei⟩
    · exact ⟨a.scanIdx, Nat.lt_succ_self _, hentry⟩
  · obtain he | rfl := hcases e he
    · exact h.unsaved e he
    · exact hnew

/-- A tree goes back to what is pending. -/
theorem Apart.requeue (h : a.Apart) (htree : a.waiting.lookup height = some tree) :
    { a with
      pending := tree.commitments.foldl addPending a.pending
      waiting := a.waiting.erase height }.Apart := by
  have hcases : ∀ e, ({ a with
      pending := tree.commitments.foldl addPending a.pending
      waiting := a.waiting.erase height } : Account).Unsaved e → a.Unsaved e := by
    rintro e (he | ⟨height', tree', htree', he⟩)
    · obtain he | he := mem_foldl_addPending.mp he
      · exact .inl he
      · exact .inr ⟨height, tree, htree, he⟩
    · exact .inr ⟨height', tree', lookup_of_lookup_erase htree', he⟩
  refine ⟨nodup_foldl_addPending _ h.pending, fun height' tree' htree' => h.tree height' tree'
    (lookup_of_lookup_erase htree'), ?_, ?_,
    fun e he => h.scanned e (hcases e he), fun e he => h.unsaved e (hcases e he)⟩
  · intro height' tree' htree' e he hpending
    have hne : height' ≠ height := by
      rintro rfl
      cases htree'.symm.trans (AList.lookup_erase _ _)
    obtain hpending | hreturned := mem_foldl_addPending.mp hpending
    · exact h.left height' tree' (lookup_of_lookup_erase htree') he hpending
    · exact h.trees height' height tree' tree hne (lookup_of_lookup_erase htree') htree he hreturned
  · intro height₁ height₂ tree₁ tree₂ hne h₁ h₂
    exact h.trees height₁ height₂ tree₁ tree₂ hne (lookup_of_lookup_erase h₁)
      (lookup_of_lookup_erase h₂)

/-- The first commitments that are pending leave as a tree. -/
theorem Apart.confirm (h : a.Apart) (n : Nat) (hfree : a.waiting.lookup height = none)
    (htree : tree.commitments = a.pending.take n)
    (mined : List Found) :
    { a with
      mined := mined
      pending := a.pending.drop n
      waiting := a.waiting.insert height tree
      unconfirmed := [] }.Apart := by
  have hwaiting : ∀ height' tree', (a.waiting.insert height tree).lookup height' = some tree' →
      (height' = height ∧ tree' = tree) ∨ a.waiting.lookup height' = some tree' := by
    intro height' tree' htree'
    by_cases hheight : height' = height
    · subst hheight
      exact .inl ⟨rfl, Option.some.inj (htree'.symm.trans (AList.lookup_insert _))⟩
    · exact .inr ((AList.lookup_insert_ne hheight).symm.trans htree')
  have hmem : ∀ e ∈ tree.commitments, e ∈ a.pending := fun e he => List.mem_of_mem_take (htree ▸ he)
  have hcases : ∀ e, ({ a with
      mined := mined
      pending := a.pending.drop n
      waiting := a.waiting.insert height tree
      unconfirmed := [] } : Account).Unsaved e → a.Unsaved e := by
    rintro e (he | ⟨height', tree', htree', he⟩)
    · exact .inl (List.mem_of_mem_drop he)
    · obtain ⟨rfl, rfl⟩ | htree' := hwaiting height' tree' htree'
      · exact .inl (hmem e he)
      · exact .inr ⟨height', tree', htree', he⟩
  refine ⟨h.pending.sublist (List.drop_sublist _ _), fun height' tree' htree' => ?_,
    fun height' tree' htree' => ?_, fun height₁ height₂ tree₁ tree₂ hne h₁ h₂ => ?_,
    fun e he => h.scanned e (hcases e he), fun e he => h.unsaved e
      (hcases e he)⟩
  · obtain ⟨rfl, rfl⟩ | htree' := hwaiting height' tree' htree'
    · rw [htree]
      exact h.pending.sublist (List.take_sublist _ _)
    · exact h.tree height' tree' htree'
  · obtain ⟨rfl, rfl⟩ | htree' := hwaiting height' tree' htree'
    · rw [htree]
      exact List.disjoint_take_drop h.pending le_rfl
    · exact fun e he hpending => h.left height' tree' htree' he (List.mem_of_mem_drop hpending)
  · obtain ⟨hheight₁, rfl⟩ | hold₁ := hwaiting height₁ tree₁ h₁
    · obtain ⟨hheight₂, -⟩ | hold₂ := hwaiting height₂ tree₂ h₂
      · exact absurd (hheight₁.trans hheight₂.symm) hne
      · exact fun e he he' => h.left height₂ tree₂ hold₂ he' (hmem e he)
    · obtain ⟨-, rfl⟩ | hold₂ := hwaiting height₂ tree₂ h₂
      · exact fun e he he' => h.left height₁ tree₁ hold₁ he (hmem e he')
      · exact h.trees height₁ height₂ tree₁ tree₂ hne hold₁ hold₂

/-- A tree is saved. -/
theorem Apart.save (h : a.Apart) (htree : a.waiting.lookup height = some tree) {keys : List Key}
    (hkeys : ∀ e, Key.commitment e ∈ keys → e ∈ tree.commitments) (lines : List Bytes)
    (markers : AList fun _ : Bytes => Bytes) (durable : List Key)
    (records : AList fun _ : Bytes => Nat) :
    { a with
      lines := lines
      markers := markers
      durable := durable
      held := a.held ++ keys
      waiting := a.waiting.erase height
      records := records }.Apart := by
  have hother : ∀ height' tree', (a.waiting.erase height).lookup height' = some tree' →
    tree'.commitments.Disjoint tree.commitments := by
    intro height' tree' htree'
    refine h.trees height' height tree' tree ?_ (lookup_of_lookup_erase htree') htree
    rintro rfl
    cases htree'.symm.trans (AList.lookup_erase _ _)
  have hcases : ∀ e, ({ a with
      lines := lines
      markers := markers
      durable := durable
      held := a.held ++ keys
      waiting := a.waiting.erase height
      records := records } : Account).Unsaved e → a.Unsaved e ∧ e ∉ tree.commitments := by
    rintro e (he | ⟨height', tree', htree', he⟩)
    · exact ⟨.inl he, fun hin => h.left height tree htree hin he⟩
    · exact ⟨.inr ⟨height', tree', lookup_of_lookup_erase htree', he⟩,
        hother height' tree' htree' he⟩
  refine ⟨h.pending, fun height' tree' htree' =>
    h.tree height' tree' (lookup_of_lookup_erase htree'),
    fun height' tree' htree' => h.left height' tree' (lookup_of_lookup_erase htree'),
    fun height₁ height₂ tree₁ tree₂ hne h₁ h₂ =>
    h.trees height₁ height₂ tree₁ tree₂ hne (lookup_of_lookup_erase h₁)
      (lookup_of_lookup_erase h₂),
    fun e he => h.scanned e (hcases e he).1, fun e he hheld => ?_⟩
  obtain hheld | hheld := List.mem_append.mp hheld
  · exact h.unsaved e (hcases e he).1 hheld
  · exact (hcases e he).2 (hkeys e hheld)

/-! ## What is summed -/

section Leaves

variable {submitted : List (Bytes × Nat)} {entries more : List Bytes}

theorem leavesOfAll_append (submitted : List (Bytes × Nat)) (entries more : List Bytes) :
    leavesOfAll submitted (entries ++ more) = leavesOfAll submitted entries +
      leavesOfAll submitted more := by
  simp [leavesOfAll]

theorem leavesOfAll_isPrefix (h : entries <+: more) :
    leavesOfAll submitted entries ≤ leavesOfAll submitted more := by
  obtain ⟨rest, rfl⟩ := h
  rw [leavesOfAll_append]
  exact Nat.le_add_right _ _

theorem leavesOfAll_rounds (submitted rounds : List (Bytes × Nat)) (entries : List Bytes) :
    leavesOfAll submitted entries ≤ leavesOfAll (submitted ++ rounds) entries := by
  apply List.sum_le_sum
  intro entry _
  rw [leavesOf_append]
  exact Nat.le_add_right _ _

theorem sum_share_le {α : Type} [DecidableEq α] (n : Nat) (share : Option α)
    (l : List α) (h : l.Nodup) : (l.map fun x => if share = some x then n else 0).sum ≤ n := by
  induction l with
  | nil => simp
  | cons x l ih =>
      obtain ⟨hx, hl⟩ := List.nodup_cons.mp h
      rw [List.map_cons, List.sum_cons]
      by_cases hshare : share = some x
      · have hzero : ∀ y ∈ l, (if share = some y then n else 0) = 0 := by
          intro y hy
          rw [if_neg]
          rintro hother
          exact hx (Option.some.inj (hshare.symm.trans hother) ▸ hy)
        rw [List.map_congr_left hzero, if_pos hshare]
        simp
      · rw [if_neg hshare, Nat.zero_add]
        exact ih hl

/-- Entries apart have no more leaves than all rounds together. -/
theorem leavesOfAll_le (h : entries.Nodup) :
    leavesOfAll submitted entries ≤ (submitted.map (·.2)).sum := by
  induction submitted with
  | nil =>
      apply Nat.le_of_eq
      apply List.sum_eq_zero
      intro n hn
      obtain ⟨entry, -, rfl⟩ := List.mem_map.mp hn
      rfl
  | cons round submitted ih =>
      have hround : ∀ entry, leavesOf (round :: submitted) entry =
          (if journalEntry round.1 0 = some entry then round.2 else 0) +
              leavesOf submitted entry := by
        intro entry
        rw [leavesOf, leavesOf, List.filter_cons]
        by_cases hgiven : journalEntry round.1 0 = some entry
        · simp [hgiven]
        · simp [hgiven]
      calc leavesOfAll (round :: submitted) entries
          = (entries.map fun entry => if journalEntry round.1 0 = some entry then
                round.2 else 0).sum + leavesOfAll submitted entries := by
            rw [leavesOfAll, List.map_congr_left fun entry _ => hround entry, List.sum_map_add]
            rfl
        _ ≤ round.2 + (submitted.map (·.2)).sum := Nat.add_le_add (sum_share_le _ _ _ h) ih
        _ = ((round :: submitted).map (·.2)).sum := by rw [List.map_cons, List.sum_cons]

end Leaves

/-- What is summed of the counts is covered by the leaves, and a tree that waits was found. -/
structure Covered (lib : Lib) (a : Account) : Prop where
  known : ∀ entry count, a.records.lookup entry = some count → count ≤ leavesOf a.submitted entry
  versions : ∀ u ∈ a.unconfirmed, u.records ≤ leavesOfAll a.submitted (a.pending.take u.n)
  trees : ∀ height tree, a.waiting.lookup height = some tree →
    tree.records ≤ leavesOfAll a.submitted tree.commitments
  found : ∀ height tree, a.waiting.lookup height = some tree →
    ∃ m ∈ a.mined, m.txid = lib.txid tree.tx ∧ m.commitments = tree.commitments

/-- What only grows has grown. -/
structure Later (a b : Account) : Prop where
  journal : ∃ more, b.journal = a.journal ++ more
  submitted : ∃ rounds, b.submitted = a.submitted ++ rounds
  mined : ∃ more, b.mined = a.mined ++ more

theorem Later.of_eq (hjournal : b.journal = a.journal) (hsubmitted : b.submitted = a.submitted)
    (hmined : b.mined = a.mined) : a.Later b :=
  ⟨⟨[], by rw [hjournal, List.append_nil]⟩, ⟨[], by rw [hsubmitted, List.append_nil]⟩,
    ⟨[], by rw [hmined, List.append_nil]⟩⟩

section Covered

variable {lib : Lib}

/-- Nothing is summed anew: commitments come to what is pending, and the rest stays or goes. -/
theorem Covered.later (h : a.Covered lib) (hlater : a.Later b) (hrecords : ∀ entry count,
      b.records.lookup entry = some count → a.records.lookup entry = some count)
    (hpending : a.pending <+: b.pending) (hversions : ∀ u ∈ b.unconfirmed, u ∈ a.unconfirmed)
    (hwaiting : ∀ height tree, b.waiting.lookup height = some tree →
      a.waiting.lookup height = some tree) : b.Covered lib where
  known entry count hcount := by
    obtain ⟨rounds, hsubmitted⟩ := hlater.submitted
    rw [hsubmitted, leavesOf_append]
    exact (h.known entry count (hrecords entry count hcount)).trans (Nat.le_add_right _ _)
  versions u hu := by
    obtain ⟨rounds, hsubmitted⟩ := hlater.submitted
    obtain ⟨rest, hrest⟩ := hpending
    rw [hsubmitted, ← hrest, List.take_append]
    calc u.records ≤ leavesOfAll a.submitted (a.pending.take u.n) := h.versions u (hversions u hu)
      _ ≤ leavesOfAll a.submitted (a.pending.take u.n ++ rest.take (u.n - a.pending.length)) :=
          leavesOfAll_isPrefix (List.prefix_append _ _)
      _ ≤ leavesOfAll (a.submitted ++ rounds)
          (a.pending.take u.n ++ rest.take (u.n - a.pending.length)) :=
          leavesOfAll_rounds _ _ _
  trees height tree htree := by
    obtain ⟨rounds, hsubmitted⟩ := hlater.submitted
    rw [hsubmitted]
    exact (h.trees height tree (hwaiting height tree htree)).trans (leavesOfAll_rounds _ _ _)
  found height tree htree := by
    obtain ⟨more, hmined⟩ := hlater.mined
    obtain ⟨m, hm, hits⟩ := h.found height tree (hwaiting height tree htree)
    rw [hmined]
    exact ⟨m, List.mem_append_left _ hm, hits⟩

/-- Nothing is counted, broadcast or found. -/
theorem Covered.idle (hrecords : a.records = ∅) (hversions : a.unconfirmed = [])
    (hwaiting : a.waiting = ∅) : a.Covered lib := by
  have hnone : ∀ height tree, a.waiting.lookup height ≠ some tree := by
    intro height tree htree
    rw [hwaiting, AList.lookup_empty] at htree
    cases htree
  refine ⟨fun entry count hcount => ?_, fun u hu => ?_, fun height tree htree => ?_,
    fun height tree htree => ?_⟩
  · rw [hrecords, AList.lookup_empty] at hcount
    cases hcount
  · rw [hversions] at hu
    exact absurd hu List.not_mem_nil
  · exact absurd htree (hnone height tree)
  · exact absurd htree (hnone height tree)

/-- A count is read. -/
theorem Covered.know (h : a.Covered lib) {count : Nat}
    (hcount : count ≤ leavesOf a.submitted entry) :
    { a with records := a.records.insert entry count }.Covered lib :=
  { h with
    known := fun other n hn => by
      by_cases hother : other = entry
      · subst hother
        obtain rfl : count = n := Option.some.inj ((AList.lookup_insert _).symm.trans hn)
        exact hcount
      · exact h.known other n ((AList.lookup_insert_ne hother).symm.trans hn) }

theorem knownRecords_le (h : a.Covered lib) (entries : List Bytes) :
    knownRecords a.records entries ≤ leavesOfAll a.submitted entries := by
  apply List.sum_le_sum
  intro entry _
  cases hlookup : a.records.lookup entry with
  | none => exact Nat.zero_le _
  | some count => exact h.known entry count hlookup

/-- A version is broadcast. -/
theorem Covered.send (h : a.Covered lib) {u : UnconfirmedTimestampTx} (hn : u.n = a.pending.length)
    (hrecords : u.records ≤ knownRecords a.records a.pending) :
    { a with unconfirmed := a.unconfirmed ++ [u] }.Covered lib :=
  { h with
    versions := fun v hv => by
      obtain hv | hv := List.mem_append.mp hv
      · exact h.versions v hv
      · obtain rfl := List.mem_singleton.mp hv
        rw [show v.n = a.pending.length from hn, List.take_length]
        exact hrecords.trans (knownRecords_le h a.pending) }

/-- A version is found: its first commitments leave as a tree. -/
theorem Covered.confirm (h : a.Covered lib) {u : UnconfirmedTimestampTx} (hu : u ∈ a.unconfirmed)
    (again : Bool) (htx : tree.tx = u.tx) (hrecords : tree.records = u.records)
    (hcommitments : tree.commitments = a.pending.take u.n) :
    { a with
      mined := a.mined ++ [Found.mk (lib.txid u.tx) (a.pending.take u.n) again]
      pending := a.pending.drop u.n
      waiting := a.waiting.insert height tree
      unconfirmed := [] }.Covered lib := by
  refine ⟨h.known, fun u hu => absurd hu List.not_mem_nil, fun height' tree' htree' => ?_,
    fun height' tree' htree' => ?_⟩
  · by_cases hheight : height' = height
    · subst hheight
      obtain rfl : tree = tree' := Option.some.inj ((AList.lookup_insert _).symm.trans htree')
      rw [hrecords, hcommitments]
      exact h.versions u hu
    · exact h.trees height' tree' ((AList.lookup_insert_ne hheight).symm.trans htree')
  · by_cases hheight : height' = height
    · subst hheight
      obtain rfl : tree = tree' := Option.some.inj ((AList.lookup_insert _).symm.trans htree')
      exact ⟨_, List.mem_append_right _ (List.mem_singleton_self _), by rw [htx], hcommitments.symm⟩
    · obtain ⟨m, hm, hits⟩ :=
        h.found height' tree' ((AList.lookup_insert_ne hheight).symm.trans htree')
      exact ⟨m, List.mem_append_left _ hm, hits⟩

end Covered

/-! ## Bills -/

/-- The receipt is of a tree that was found, and bills no more than the leaves of its entries. -/
structure BillOf (a : Account) (receipt : Receipt) (found : Found) : Prop where
  mem : found ∈ a.mined
  txid : found.txid = receipt.txid
  size : receipt.commitments = found.commitments.length
  records : receipt.records ≤ leavesOfAll a.submitted found.commitments
  nodup : found.commitments.Nodup
  given : ∀ entry ∈ found.commitments, ∃ i, journalEntry a.journal i = some entry

/-- A receipt on file, with the tree that it is of. -/
structure Bill where
  receipt : Receipt
  found : Found

/-- The anchor has a marker or a line. -/
def Stands (a : Account) (bills : List Bill) (id : Bytes) : Prop :=
  (∃ body, a.markers.lookup id = some body) ∨ ∃ b ∈ bills, b.receipt.txid = id

/-- The lines on file are bills of trees apart, and so are the markers of anchors in the
database. -/
structure Billed (lib : Lib) (a : Account) (bills : List Bill) : Prop where
  lines : a.lines = bills.map fun b => receiptLine lib b.receipt
  bill : ∀ b ∈ bills, a.BillOf b.receipt b.found
  saved : ∀ b ∈ bills, Key.txid b.receipt.txid ∈ a.durable ∧
    (a.up = true → Key.txid b.receipt.txid ∈ a.held)
  once : (bills.flatMap fun b => b.found.commitments).Nodup
  markers : ∀ name body, a.markers.lookup name = some body →
    ∃ receipt found, body = markerBody lib receipt ∧ receipt.txid = name ∧ a.BillOf receipt found
  known : ∀ id, Key.txid id ∈ a.durable → ∃ m ∈ a.mined, m.txid = id
  durable : ∀ m ∈ a.mined, Key.txid m.txid ∈ a.durable → ∀ entry ∈ m.commitments,
    Key.commitment entry ∈ a.durable
  held : a.up = true → ∀ m ∈ a.mined, Key.txid m.txid ∈ a.held → ∀ entry ∈ m.commitments,
    Key.commitment entry ∈ a.held
  sub : a.up = true → ∀ k ∈ a.held, k ∈ a.durable
  apart : ∀ m ∈ a.mined, ∀ m' ∈ a.mined, m.txid ≠ m'.txid → a.Stands bills m.txid →
    a.Stands bills m'.txid → Key.txid m.txid ∈ a.durable → Key.txid m'.txid ∈ a.durable →
    m.commitments.Disjoint m'.commitments

theorem BillOf.later {receipt : Receipt} {found : Found} (h : a.BillOf receipt found)
    (hlater : a.Later b) : b.BillOf receipt found where
  mem := by
    obtain ⟨more, hmined⟩ := hlater.mined
    rw [hmined]
    exact List.mem_append_left _ h.mem
  txid := h.txid
  size := h.size
  records := by
    obtain ⟨rounds, hsubmitted⟩ := hlater.submitted
    rw [hsubmitted]
    exact h.records.trans (leavesOfAll_rounds _ _ _)
  nodup := h.nodup
  given entry hentry := by
    obtain ⟨more, hjournal⟩ := hlater.journal
    obtain ⟨i, hi⟩ := h.given entry hentry
    rw [hjournal]
    exact ⟨i, journalEntry_append hi more⟩

theorem markerBody_inj {lib : Lib} {receipt written : Receipt}
    (h : markerBody lib receipt = markerBody lib written) : receipt = written := by
  have hread : lib.codec.bodyReceipt (markerBody lib receipt) = .ok receipt :=
    lib.codec.bodyReceipt_body receipt
  rw [h, markerBody, lib.codec.bodyReceipt_body] at hread
  exact (Except.ok.inj hread).symm

section Billed

variable {lib : Lib} {bills : List Bill} {receipt : Receipt} {found : Found}

/-- Nothing new is saved, found or marked. -/
theorem Billed.same (h : a.Billed lib bills) (hlater : a.Later b) (hlines : b.lines = a.lines)
    (hmarkers : ∀ name body, b.markers.lookup name = some body → a.markers.lookup name = some body)
    (hdurable : b.durable = a.durable) (hmined : b.mined = a.mined)
    (hup : b.up = true → a.up = true ∧ b.held = a.held) : b.Billed lib bills where
  lines := hlines.trans h.lines
  bill bill hbill := (h.bill bill hbill).later hlater
  saved bill hbill := by
    obtain ⟨hd, hh⟩ := h.saved bill hbill
    refine ⟨hdurable ▸ hd, fun hrun => ?_⟩
    rw [(hup hrun).2]
    exact hh (hup hrun).1
  once := h.once
  markers name body hbody := by
    obtain ⟨receipt, found, hreceipt, htxid, hbill⟩ :=
      h.markers name body (hmarkers name body hbody)
    exact ⟨receipt, found, hreceipt, htxid, hbill.later hlater⟩
  known id hid := hmined ▸ h.known id (hdurable ▸ hid)
  durable m hm hid entry hentry :=
    hdurable ▸ h.durable m (hmined ▸ hm) (hdurable ▸ hid) entry hentry
  held hrun m hm := by
    rw [(hup hrun).2]
    exact h.held (hup hrun).1 m (hmined ▸ hm)
  sub hrun k hk := by
    rw [(hup hrun).2] at hk
    rw [hdurable]
    exact h.sub (hup hrun).1 k hk
  apart m hm m' hm' hne hs hs' hid hid' := by
    have hstands : ∀ id, b.Stands bills id → a.Stands bills id := by
      rintro id (⟨body, hbody⟩ | hline)
      · exact .inl ⟨body, hmarkers id body hbody⟩
      · exact .inr hline
    exact h.apart m (hmined ▸ hm) m' (hmined ▸ hm') hne (hstands _ hs) (hstands _ hs')
      (hdurable ▸ hid) (hdurable ▸ hid')

/-- A process starts with what is on disk. -/
theorem Billed.boot (h : a.Billed lib bills) (hlines : b.lines = a.lines) (hlater : a.Later b)
    (hmarkers : b.markers = a.markers)
    (hdurable : b.durable = a.durable) (hmined : b.mined = a.mined) (hheld : b.held = a.durable) :
    b.Billed lib bills where
  lines := hlines.trans h.lines
  bill bill hbill := (h.bill bill hbill).later hlater
  saved bill hbill := by
    rw [hheld, hdurable]
    exact ⟨(h.saved bill hbill).1, fun _ => (h.saved bill hbill).1⟩
  once := h.once
  markers name body hbody := by
    obtain ⟨receipt, found, hreceipt, htxid, hbill⟩ := h.markers name body (hmarkers ▸ hbody)
    exact ⟨receipt, found, hreceipt, htxid, hbill.later hlater⟩
  known id hid := hmined ▸ h.known id (hdurable ▸ hid)
  durable m hm hid entry hentry :=
    hdurable ▸ h.durable m (hmined ▸ hm) (hdurable ▸ hid) entry hentry
  held _ m hm hid entry hentry := hheld ▸ h.durable m (hmined ▸ hm) (hheld ▸ hid) entry hentry
  sub _ k hk := by
    rw [hdurable]
    exact hheld ▸ hk
  apart m hm m' hm' hne hs hs' hid hid' := by
    have hstands : ∀ id, b.Stands bills id → a.Stands bills id := by
      rintro id (⟨body, hbody⟩ | hline)
      · exact .inl ⟨body, hmarkers ▸ hbody⟩
      · exact .inr hline
    exact h.apart m (hmined ▸ hm) m' (hmined ▸ hm') hne (hstands _ hs) (hstands _ hs')
      (hdurable ▸ hid) (hdurable ▸ hid')

/-- A tree is found; if its anchor is known, so is the tree. -/
theorem Billed.confirm (h : a.Billed lib bills) (m : Found) (hone : OneTree (a.mined ++ [m])) :
    { a with mined := a.mined ++ [m] }.Billed lib bills := by
  have hlater : a.Later { a with mined := a.mined ++ [m] } :=
    ⟨⟨[], (List.append_nil _).symm⟩, ⟨[], (List.append_nil _).symm⟩, ⟨[m], rfl⟩⟩
  -- what is known of the anchor's first tree is known of this one
  have hsame : ∀ m' ∈ a.mined ++ [m], Key.txid m'.txid ∈ a.durable →
      ∃ m₀ ∈ a.mined, m₀.txid = m'.txid ∧ m₀.commitments = m'.commitments := by
    intro m' hm' hid
    obtain ⟨m₀, hm₀, htxid⟩ := h.known _ hid
    exact ⟨m₀, hm₀, htxid, hone m₀ (List.mem_append_left _ hm₀) m' hm' htxid⟩
  refine ⟨h.lines, fun bill hbill => (h.bill bill hbill).later hlater, h.saved,
    h.once, fun name body hbody => ?_, fun id hid => ?_, fun m' hm' hid => ?_,
    fun hup m' hm' hid => ?_, h.sub, fun m₁ hm₁ m₂ hm₂ hne hs₁ hs₂ hid₁ hid₂ => ?_⟩
  · obtain ⟨receipt, found, hreceipt, htxid, hbill⟩ := h.markers name body hbody
    exact ⟨receipt, found, hreceipt, htxid, hbill.later hlater⟩
  · obtain ⟨m₀, hm₀, htxid⟩ := h.known id hid
    exact ⟨m₀, List.mem_append_left _ hm₀, htxid⟩
  · obtain ⟨m₀, hm₀, htxid, hcommitments⟩ := hsame m' hm' hid
    rw [← hcommitments]
    exact h.durable m₀ hm₀ (htxid ▸ hid)
  · obtain ⟨m₀, hm₀, htxid, hcommitments⟩ := hsame m' hm' (h.sub hup _ hid)
    rw [← hcommitments]
    exact h.held hup m₀ hm₀ (htxid ▸ hid)
  · obtain ⟨m₁', hm₁', htxid₁, hcommitments₁⟩ := hsame m₁ hm₁ hid₁
    obtain ⟨m₂', hm₂', htxid₂, hcommitments₂⟩ := hsame m₂ hm₂ hid₂
    rw [← hcommitments₁, ← hcommitments₂]
    have hother : m₁'.txid ≠ m₂'.txid := by rwa [htxid₁, htxid₂]
    exact h.apart m₁' hm₁' m₂' hm₂' hother (htxid₁ ▸ hs₁) (htxid₂ ▸ hs₂) (htxid₁ ▸ hid₁)
      (htxid₂ ▸ hid₂)

/-! ## A save -/

/-- No marker stands for another anchor that is on disk, unseen, with a commitment of the tree. -/
def Clear (lib : Lib) (a : Account) (tree : TimestampTx) : Prop :=
  ∀ m ∈ a.mined, ∀ body, a.markers.lookup m.txid = some body → m.txid ≠ lib.txid tree.tx →
    Key.txid m.txid ∈ a.durable → Key.txid m.txid ∉ a.held → m.commitments.Disjoint tree.commitments

/-- The tree was found, and no other anchor that has a marker or a line shares an entry with it. -/
structure Ready (lib : Lib) (a : Account) (bills : List Bill) (tree : TimestampTx) : Prop where
  found : ∃ m ∈ a.mined, m.txid = lib.txid tree.tx
  its : ∀ m ∈ a.mined, m.txid = lib.txid tree.tx → m.commitments = tree.commitments
  fresh : ∀ m ∈ a.mined, m.txid ≠ lib.txid tree.tx → a.Stands bills m.txid →
    Key.txid m.txid ∈ a.durable → m.commitments.Disjoint tree.commitments

theorem Billed.ready (h : a.Billed lib bills) (hup : a.up = true)
    (hapart : a.Apart) (hcovered : a.Covered lib) (hone : OneTree a.mined)
    (htree : a.waiting.lookup height = some tree) (hclear : a.Clear lib tree) :
    a.Ready lib bills tree := by
  obtain ⟨m₀, hm₀, htxid₀, hcommitments₀⟩ := hcovered.found height tree htree
  refine ⟨⟨m₀, hm₀, htxid₀⟩, fun m hm htxid => ?_, fun m hm hne hstands hid e he he' => ?_⟩
  · exact (hone m hm m₀ hm₀ (htxid.trans htxid₀.symm)).trans hcommitments₀
  · have hunsaved : Key.commitment e ∉ a.held := hapart.unsaved e (.inr ⟨height, tree, htree, he'⟩)
    by_cases hheld : Key.txid m.txid ∈ a.held
    · exact hunsaved (h.held hup m hm hheld e he)
    · obtain ⟨body, hbody⟩ | ⟨b, hb, htxid⟩ := hstands
      · exact hclear m hm body hbody hne hid hheld he he'
      · exact hheld (htxid ▸ (h.saved b hb).2 hup)

/-- The receipt of a tree that waits is a bill. -/
theorem billOf_waiting (hapart : a.Apart) (hcovered : a.Covered lib)
    (htree : a.waiting.lookup height = some tree) (hreceipt : IsReceiptOf lib tree receipt) :
    ∃ found, a.BillOf receipt found ∧ found.commitments = tree.commitments := by
  obtain ⟨m, hm, htxid, hcommitments⟩ := hcovered.found height tree htree
  refine ⟨m, ⟨hm, htxid.trans hreceipt.txid.symm, ?_, ?_, ?_, fun entry hentry => ?_⟩, hcommitments⟩
  · rw [hcommitments]
    exact hreceipt.commitments
  · rw [hcommitments, hreceipt.records]
    exact hcovered.trees height tree htree
  · rw [hcommitments]
    exact hapart.tree height tree htree
  · obtain ⟨i, -, hi⟩ := hapart.scanned entry (.inr ⟨height, tree, htree, hcommitments ▸ hentry⟩)
    exact ⟨i, hi⟩

/-- What is on file shares no entry with a tree that waits. -/
theorem Billed.off_file (h : a.Billed lib bills) (hup : a.up = true) (hapart : a.Apart)
    (htree : a.waiting.lookup height = some tree) :
    ∀ b ∈ bills, b.found.commitments.Disjoint tree.commitments := by
  intro b hb e he he'
  have hbill := h.bill b hb
  apply hapart.unsaved e (.inr ⟨height, tree, htree, he'⟩)
  apply h.held hup b.found hbill.mem _ e he
  rw [hbill.txid]
  exact (h.saved b hb).2 hup

/-- The anchors that have a marker or a line stay apart when only the tree's comes to them. -/
theorem Ready.apart (hready : a.Ready lib bills tree) (h : a.Billed lib bills)
    (hold : ∀ m : Found, b.Stands bills m.txid → Key.txid m.txid ∈ b.durable →
      m.txid ≠ lib.txid tree.tx → a.Stands bills m.txid ∧ Key.txid m.txid ∈ a.durable) :
    ∀ m ∈ a.mined, ∀ m' ∈ a.mined, m.txid ≠ m'.txid → b.Stands bills m.txid →
      b.Stands bills m'.txid → Key.txid m.txid ∈ b.durable → Key.txid m'.txid ∈ b.durable →
        m.commitments.Disjoint m'.commitments := by
  intro m hm m' hm' hne hs hs' hid hid'
  by_cases htxid : m.txid = lib.txid tree.tx
  · have hother : m'.txid ≠ lib.txid tree.tx := fun htxid' => hne (htxid.trans htxid'.symm)
    obtain ⟨hs', hid'⟩ := hold m' hs' hid' hother
    rw [hready.its m hm htxid]
    exact (hready.fresh m' hm' hother hs' hid').symm
  · obtain ⟨hs, hid⟩ := hold m hs hid htxid
    by_cases htxid' : m'.txid = lib.txid tree.tx
    · rw [hready.its m' hm' htxid']
      exact hready.fresh m hm htxid hs hid
    · obtain ⟨hs', hid'⟩ := hold m' hs' hid' htxid'
      exact h.apart m hm m' hm' hne hs hs' hid hid'

/-- A marker is written. -/
theorem Billed.mark (h : a.Billed lib bills) (hready : a.Ready lib bills tree)
    (hbill : a.BillOf receipt found) (htxid : receipt.txid = lib.txid tree.tx) :
    { a with markers := a.markers.insert receipt.txid (markerBody lib receipt) }.Billed
      lib bills := by
  have hlater : a.Later
    { a with markers := a.markers.insert receipt.txid (markerBody lib receipt) } :=
    .of_eq rfl rfl rfl
  refine ⟨h.lines, fun b hb => (h.bill b hb).later hlater, h.saved, h.once, fun name body hbody =>
    ?_, h.known, h.durable, h.held, h.sub, hready.apart h fun m hs hid hne => ⟨?_, hid⟩⟩
  · by_cases hname : name = receipt.txid
    · subst hname
      exact ⟨receipt, found, Option.some.inj (hbody.symm.trans (AList.lookup_insert _)),
        rfl, hbill.later hlater⟩
    · obtain ⟨written, found, hwritten, htxid, hbill⟩ :=
        h.markers name body ((AList.lookup_insert_ne hname).symm.trans hbody)
      exact ⟨written, found, hwritten, htxid, hbill.later hlater⟩
  · obtain ⟨body, hbody⟩ | hline := hs
    · have hother : m.txid ≠ receipt.txid := by rwa [htxid]
      exact .inl ⟨body, (AList.lookup_insert_ne hother).symm.trans hbody⟩
    · exact .inr hline

/-- The keys of the tree are on disk. -/
theorem Billed.land (h : a.Billed lib bills) (hready : a.Ready lib bills tree) :
    { a with durable := a.durable ++ savedKeys lib tree }.Billed lib bills := by
  have hlater : a.Later { a with durable := a.durable ++ savedKeys lib tree } := .of_eq rfl rfl rfl
  have hkeys : ∀ id, Key.txid id ∈ a.durable ++ savedKeys lib tree →
      Key.txid id ∈ a.durable ∨ id = lib.txid tree.tx :=
    fun id hid => (List.mem_append.mp hid).imp_right mem_savedKeys
  refine ⟨h.lines, fun b hb => (h.bill b hb).later hlater,
    fun b hb => ⟨List.mem_append_left _ (h.saved b hb).1, (h.saved b hb).2⟩,
    h.once, fun name body hbody => ?_, fun id hid => ?_, fun m hm hid entry hentry => ?_, h.held,
    fun hup k hk => List.mem_append_left _ (h.sub hup k hk),
      hready.apart h fun m hs hid hne => ⟨hs, (hkeys _ hid).resolve_right hne⟩⟩
  · obtain ⟨written, found, hwritten, htxid, hbill⟩ := h.markers name body hbody
    exact ⟨written, found, hwritten, htxid, hbill.later hlater⟩
  · obtain hid | rfl := hkeys id hid
    · exact h.known id hid
    · exact hready.found
  · obtain hid | htxid := hkeys m.txid hid
    · exact List.mem_append_left _ (h.durable m hm hid entry hentry)
    · rw [hready.its m hm htxid] at hentry
      exact List.mem_append_right _ (List.mem_cons_of_mem _ (List.mem_map_of_mem hentry))

/-- The process sees the keys of the tree. -/
theorem Billed.see (h : a.Billed lib bills) (hready : a.Ready lib bills tree)
    (hkeys : ∀ k ∈ savedKeys lib tree, k ∈ a.durable) :
    { a with held := a.held ++ savedKeys lib tree }.Billed lib bills := by
  have hlater : a.Later { a with held := a.held ++ savedKeys lib tree } := .of_eq rfl rfl rfl
  refine ⟨h.lines, fun b hb => (h.bill b hb).later hlater,
    fun b hb => ⟨(h.saved b hb).1, fun hup => List.mem_append_left _ ((h.saved b hb).2 hup)⟩,
    h.once, fun name body hbody => ?_, h.known,
    h.durable, fun hup m hm hid entry hentry => ?_, fun hup k hk => ?_, h.apart⟩
  · obtain ⟨written, found, hwritten, htxid, hbill⟩ := h.markers name body hbody
    exact ⟨written, found, hwritten, htxid, hbill.later hlater⟩
  · obtain hid | hid := List.mem_append.mp hid
    · exact List.mem_append_left _ (h.held hup m hm hid entry hentry)
    · rw [hready.its m hm (mem_savedKeys hid)] at hentry
      exact List.mem_append_right _ (List.mem_cons_of_mem _ (List.mem_map_of_mem hentry))
  · obtain hk | hk := List.mem_append.mp hk
    · exact h.sub hup k hk
    · exact hkeys k hk

/-- A line is written, while its marker stands. -/
theorem Billed.line (h : a.Billed lib bills) (hbill : a.BillOf receipt found) {body : Bytes}
    (hbody : a.markers.lookup receipt.txid = some body)
    (hdurable : Key.txid receipt.txid ∈ a.durable)
    (hheld : a.up = true → Key.txid receipt.txid ∈ a.held)
    (hdisjoint : ∀ b ∈ bills, b.found.commitments.Disjoint found.commitments) :
    { a with lines := a.lines ++ [receiptLine lib receipt] }.Billed lib
      (bills ++ [Bill.mk receipt found]) := by
  have hlater : a.Later { a with lines := a.lines ++ [receiptLine lib receipt] } :=
    .of_eq rfl rfl rfl
  have hstands : ∀ id, { a with lines := a.lines ++ [receiptLine lib receipt] }.Stands
      (bills ++ [Bill.mk receipt found]) id → a.Stands bills id := by
    rintro id (hmarker | ⟨b, hb, rfl⟩)
    · exact .inl hmarker
    · obtain hb | hb := List.mem_append.mp hb
      · exact .inr ⟨b, hb, rfl⟩
      · obtain rfl := List.mem_singleton.mp hb
        exact .inl ⟨body, hbody⟩
  refine ⟨?_, fun b hb => ?_, fun b hb => ?_,
    ?_, fun name body hbody => ?_, h.known, h.durable, h.held, h.sub,
    fun m hm m' hm' hne hs hs' => h.apart m hm m' hm' hne (hstands _ hs) (hstands _ hs')⟩
  · rw [List.map_append, ← h.lines]
    rfl
  · obtain hb | hb := List.mem_append.mp hb
    · exact (h.bill b hb).later hlater
    · obtain rfl := List.mem_singleton.mp hb
      exact hbill.later hlater
  · obtain hb | hb := List.mem_append.mp hb
    · exact h.saved b hb
    · obtain rfl := List.mem_singleton.mp hb
      exact ⟨hdurable, hheld⟩
  · rw [List.flatMap_append, List.flatMap_singleton]
    apply List.Nodup.append h.once hbill.nodup
    intro e he he'
    obtain ⟨b, hb, he⟩ := List.mem_flatMap.mp he
    exact hdisjoint b hb he he'
  · obtain ⟨written, found, hwritten, htxid, hbill⟩ := h.markers name body hbody
    exact ⟨written, found, hwritten, htxid, hbill.later hlater⟩

/-- A line is recovered from its marker. -/
theorem Billed.recover (h : a.Billed lib bills) (hup : a.up = true)
    (hbody : a.markers.lookup receipt.txid = some (markerBody lib receipt))
    (hheld : Key.txid receipt.txid ∈ a.held) (hnew : ∀ b ∈ bills, b.receipt.txid ≠ receipt.txid) :
    ∃ found, { a with lines := a.lines ++ [receiptLine lib receipt] }.Billed lib
      (bills ++ [Bill.mk receipt found]) := by
  obtain ⟨written, found, hwritten, -, hbill⟩ := h.markers _ _ hbody
  obtain rfl : receipt = written := markerBody_inj hwritten
  have hdurable : Key.txid receipt.txid ∈ a.durable := h.sub hup _ hheld
  refine ⟨found, h.line hbill hbody hdurable (fun _ => hheld) fun b hb => ?_⟩
  have hother := h.bill b hb
  apply h.apart b.found hother.mem found hbill.mem
  · rw [hother.txid, hbill.txid]
    exact hnew b hb
  · rw [hother.txid]
    exact .inr ⟨b, hb, rfl⟩
  · rw [hbill.txid]
    exact .inl ⟨_, hbody⟩
  · rw [hother.txid]
    exact (h.saved b hb).1
  · rw [hbill.txid]
    exact hdurable

end Billed

end Account

end OtsServer.Service
