import OtsServer.Library.Slots
import OtsServer.Service.Ledger

/-!
# Record counts

The count of a round is put behind its journal entry, once, in any number of first bytes over zeros.
So what the sidecar says of an entry is never more than the leaves that were counted in the rounds
that gave it: a first part of a number is no more than the number, a first part of the known zero
reads as zero, and zeros read as unknown.
-/

namespace OtsServer.Service

open Slots

/-! ## The place of a count -/

/-- The bytes at the place of a count are these, and zeros after them. -/
def Holds (counts : Bytes) (idx : Nat) (data : Bytes) : Prop :=
  ∀ j < recordSize, counts.getD (idx * recordSize + j) 0 = data.getD j 0

section Holds

variable {counts data : Bytes} {idx idx' k leaves count : Nat}

theorem getD_pwrite (file : Bytes) (offset : Nat) (data : Bytes) (p : Nat) :
    (pwrite file offset data).getD p 0 =
    if offset ≤ p ∧ p < offset + data.length then data.getD (p - offset) 0 else file.getD p 0 := by
  rw [pwrite]
  split_ifs with hnil hp hp
  · simp only [hnil, List.length_nil] at hp
    omega
  · rfl
  · have hbefore : ((file ++ List.replicate (offset - file.length) 0).take offset).length =
        offset := by
      simp only [List.length_take, List.length_append, List.length_replicate]
      omega
    simp only [List.append_assoc, List.getD_eq_getElem?_getD]
    rw [List.getElem?_append_right (by omega), hbefore, List.getElem?_append_left (by omega)]
  · have hbefore : ((file ++ List.replicate (offset - file.length) 0).take offset).length =
        offset := by
      simp only [List.length_take, List.length_append, List.length_replicate]
      omega
    simp only [List.append_assoc, List.getD_eq_getElem?_getD]
    by_cases hlt : p < offset
    · rw [List.getElem?_append_left (by omega), List.getElem?_take_of_lt hlt]
      by_cases hin : p < file.length
      · rw [List.getElem?_append_left hin]
      · rw [List.getElem?_append_right (by omega), List.getElem?_eq_none (l := file) (by omega),
          List.getElem?_replicate]
        split_ifs <;> rfl
    · rw [List.getElem?_append_right (by omega), hbefore, List.getElem?_append_right (by omega),
        List.getElem?_drop]
      congr 2
      omega

theorem Holds.put (h : Holds counts idx []) :
    Holds (pwrite counts (idx * recordSize) data) idx data := by
  intro j hj
  rw [getD_pwrite]
  split_ifs with hin
  · rw [Nat.add_sub_cancel_left]
  · rw [h j hj, List.getD_eq_getElem?_getD, List.getD_eq_getElem?_getD,
      List.getElem?_eq_none (l := data) (by omega)]
    rfl

theorem Holds.put_other (hdata : data.length ≤ recordSize) (hne : idx ≠ idx')
    {held : Bytes} (h : Holds counts idx held) :
    Holds (pwrite counts (idx' * recordSize) data) idx held := by
  intro j hj
  rw [getD_pwrite, if_neg, h j hj]
  intro hin
  apply hne
  simp only [recordSize] at hin hj hdata
  omega

/-- A byte of a first part of a number is the number's, or zero. -/
theorem getD_take_ofNatBE (n k : Nat) {j : Nat} (hj : j < recordSize) :
    (((Bytes.ofNatBE recordSize n).take k).getD j 0).toNat = if j < k then
      n / 256 ^ (recordSize - 1 - j) % 256 else 0 := by
  rw [List.getD_eq_getElem?_getD, List.getElem?_take]
  split_ifs with hk
  · rw [Bytes.ofNatBE, List.getElem?_map, List.getElem?_range hj]
    simp
  · rfl

theorem natBE_four (a b c d : UInt8) :
    Bytes.natBE [a, b, c, d] = a.toNat * 256 ^ 3 + b.toNat * 256 ^ 2 + c.toNat * 256 + d.toNat := by
  simp only [Bytes.natBE, List.foldl_cons, List.foldl_nil]
  omega

theorem countBytes_four (hlength : (countBytes counts idx).length = recordSize) :
    countBytes counts idx = [counts.getD (idx * recordSize) 0, counts.getD (idx * recordSize + 1) 0,
      counts.getD (idx * recordSize + 2) 0, counts.getD (idx * recordSize + 3) 0] := by
  refine List.ext_getElem? fun j => ?_
  have hslot : (countBytes counts idx)[j]? = if j < recordSize then
      counts[idx * recordSize + j]? else none :=
    slot_getElem? recordSize counts idx j
  have hlen : idx * recordSize + recordSize ≤ counts.length := by
    obtain hle | hzero := slot_length_eq.mp hlength
    · exact hle
    · cases hzero
  rw [hslot]
  split_ifs with hj
  · simp only [recordSize] at hj hlen
    interval_cases j
      <;> simp [List.getD_eq_getElem?_getD, recordSize, show idx * 4 < counts.length by omega,
      show idx * 4 + 1 < counts.length by omega, show idx * 4 + 2 < counts.length by omega,
        show idx * 4 + 3 < counts.length by omega]
  · exact (List.getElem?_eq_none (not_lt.mp hj)).symm

/-- What the first bytes of a count read as is no more than the count. -/
theorem Holds.count_le
    (h : Holds counts idx ((Bytes.ofNatBE recordSize (storedCount leaves)).take k))
    (hcount : countValue (countBytes counts idx) = some count) : count ≤ leaves := by
  unfold countValue at hcount
  by_cases hlength : (countBytes counts idx).length = recordSize
  swap
  · rw [if_pos hlength] at hcount
    cases hcount
  rw [if_neg (not_not.mpr hlength)] at hcount
  dsimp only at hcount
  split_ifs at hcount with hbig hzero
  · obtain rfl := Option.some.inj hcount
    exact Nat.zero_le leaves
  · obtain rfl := Option.some.inj hcount
    have hbyte : ∀ j < recordSize, (counts.getD (idx * recordSize + j) 0).toNat =
        if j < k then storedCount leaves / 256 ^ (recordSize - 1 - j) % 256 else 0 := by
      intro j hj
      rw [h j hj, getD_take_ofNatBE _ _ hj]
    have h0 := hbyte 0 (by decide)
    have h1 := hbyte 1 (by decide)
    have h2 := hbyte 2 (by decide)
    have h3 := hbyte 3 (by decide)
    rw [Nat.add_zero] at h0
    rw [countBytes_four hlength, natBE_four, h0, h1, h2, h3] at hbig hzero ⊢
    simp only [knownZeroThreshold, recordSize] at *
    by_cases hleaves : leaves = 0
    · -- of the known zero any byte makes a number above the threshold
      rw [storedCount, if_pos hleaves, knownZero] at hbig hzero
      by_cases hk : 0 < k
      · simp only [hk, if_true] at hbig
        omega
      · simp only [show k = 0 by omega] at hzero
        simp at hzero
    · rw [storedCount, if_neg hleaves]
      split_ifs <;> omega

end Holds

/-! ## Rounds and their counts -/

/-- The counted leaves of the rounds that gave the entry. -/
def leavesOf (submitted : List (Bytes × Nat)) (entry : Bytes) : Nat :=
  ((submitted.filter fun round => journalEntry round.1 0 = some entry).map (·.2)).sum

/-- A round gave the entry at the index. -/
def Given (s : State) (idx leaves : Nat) : Prop :=
  ∃ record, (record, leaves) ∈ s.history.submitted ∧ record.length = commitmentSize ∧
    slot commitmentSize s.disk.journal idx = record

/-- Nothing stands at the place of a count, or first bytes of the count of a round that gave the
entry. -/
inductive Counted (s : State) (idx : Nat) : Prop
  | unknown (h : Holds s.disk.counts idx [])
  | put (leaves k : Nat) (hgiven : Given s idx leaves)
      (h : Holds s.disk.counts idx ((Bytes.ofNatBE recordSize (storedCount leaves)).take k))

/-- What holds of the sidecar. -/
structure Sidecar (s : State) : Prop where
  beyond : ∀ idx, s.disk.journal.length ≤ idx * commitmentSize → Holds s.disk.counts idx []
  counted : ∀ idx, Counted s idx
  owed : s.running = true → ∀ idx leaves, s.countOwed = some (idx, leaves) →
    Given s idx leaves ∧ Holds s.disk.counts idx []

section Sidecar

variable {lib : Lib} {allowed : Config → Prop} {s t : State} {idx leaves count : Nat}
  {entry : Bytes}

theorem leavesOf_append (submitted more : List (Bytes × Nat)) (entry : Bytes) :
    leavesOf (submitted ++ more) entry = leavesOf submitted entry + leavesOf more entry := by
  simp [leavesOf]

theorem le_leavesOf {submitted : List (Bytes × Nat)} {record : Bytes}
    (h : (record, leaves) ∈ submitted) (hentry : journalEntry record 0 = some entry) :
    leaves ≤ leavesOf submitted entry := by
  apply List.le_sum_of_mem
  exact List.mem_map.mpr ⟨(record, leaves), List.mem_filter.mpr ⟨h, by simpa using hentry⟩, rfl⟩

/-- An entry is read from its slot alone. -/
theorem journalEntry_slot (journal : Bytes) (idx : Nat) :
    journalEntry (slot commitmentSize journal idx) 0 = journalEntry journal idx := by
  have hslot : (slot commitmentSize journal idx).take commitmentSize =
      slot commitmentSize journal idx := by
    simp [slot, List.take_take]
  simp only [journalEntry, Nat.zero_mul, List.drop_zero, hslot]
  rfl

theorem Given.append (h : Given s idx leaves) {more : Bytes} {rounds : List (Bytes × Nat)}
    (hjournal : t.disk.journal = s.disk.journal ++ more)
    (hsubmitted : t.history.submitted = s.history.submitted ++ rounds) : Given t idx leaves := by
  obtain ⟨record, hmem, hlength, hslot⟩ := h
  refine ⟨record, ?_, hlength, ?_⟩
  · rw [hsubmitted]
    exact List.mem_append_left _ hmem
  · have hwhole : (slot commitmentSize s.disk.journal idx).length = commitmentSize := by
      rw [hslot, hlength]
    obtain hle | hzero := slot_length_eq.mp hwhole
    · rw [hjournal, slot_append hle, hslot]
    · cases hzero

/-- A move that puts no count. -/
theorem Sidecar.grow (h : Sidecar s) {more : Bytes} {rounds : List (Bytes × Nat)}
    (hjournal : t.disk.journal = s.disk.journal ++ more) (hcounts : t.disk.counts = s.disk.counts)
    (hsubmitted : t.history.submitted = s.history.submitted ++ rounds)
    (howed : t.running = true → ∀ idx leaves, t.countOwed = some (idx, leaves) →
      Given t idx leaves ∧ Holds s.disk.counts idx []) : Sidecar t where
  beyond idx hidx := by
    rw [hcounts]
    apply h.beyond
    rw [hjournal, List.length_append] at hidx
    omega
  counted idx := by
    cases h.counted idx with
    | unknown hnone => exact .unknown (hcounts ▸ hnone)
    | put leaves k hgiven hput =>
        exact .put leaves k (hgiven.append hjournal hsubmitted) (hcounts ▸ hput)
  owed hup idx leaves hcount := hcounts ▸ howed hup idx leaves hcount

/-- A move that changes nothing the sidecar is read with. -/
theorem Sidecar.same (h : Sidecar s) (hup : t.running = true → s.running = true)
    (hjournal : t.disk.journal = s.disk.journal) (hcounts : t.disk.counts = s.disk.counts)
    (hsubmitted : t.history.submitted = s.history.submitted) (howed : t.countOwed = s.countOwed) :
    Sidecar t := by
  have hjournal' : t.disk.journal = s.disk.journal ++ [] := by rw [hjournal, List.append_nil]
  have hsubmitted' : t.history.submitted = s.history.submitted ++ [] := by
    rw [hsubmitted, List.append_nil]
  refine h.grow hjournal' hcounts hsubmitted' fun hrun idx leaves hcount => ?_
  obtain ⟨hgiven, hnone⟩ := h.owed (hup hrun) idx leaves (howed ▸ hcount)
  exact ⟨hgiven.append hjournal' hsubmitted', hnone⟩

theorem sidecar_initial (h : Initial s) : Sidecar s where
  beyond idx _ j _ := by simp [h.disk, Disk.empty]
  counted idx := .unknown fun j _ => by simp [h.disk, Disk.empty]
  owed hup := absurd (h.down.symm.trans hup) Bool.false_ne_true

/-- The entry of a round that is appended is at the position of the writer, where no count is. -/
theorem sidecar_append (h : Sidecar s) {record : Bytes} {records : Option Nat}
    (hwhole : (s.disk.journal.length + s.journalBuffer.length) % commitmentSize = 0)
    (hrecord : record.length = commitmentSize)
    (htjournal : t.disk.journal = s.disk.journal ++ (s.journalBuffer ++ record))
    (hcounts : t.disk.counts = s.disk.counts)
    (hsubmitted : t.history.submitted = s.history.submitted ++ [(record, records.getD 0)])
    (howed : ∀ idx leaves, t.countOwed = some (idx, leaves) → idx =
      (s.disk.journal.length + s.journalBuffer.length) / commitmentSize ∧ records = some leaves) :
    Sidecar t := by
  refine h.grow htjournal hcounts hsubmitted fun _ idx leaves hcount => ?_
  obtain ⟨hidx, hrecords⟩ := howed idx leaves hcount
  have hposition : idx * commitmentSize = s.disk.journal.length + s.journalBuffer.length := by
    rw [hidx]
    exact Nat.div_mul_cancel (Nat.dvd_of_mod_eq_zero hwhole)
  refine ⟨⟨record, ?_, hrecord, ?_⟩, h.beyond idx (by omega)⟩
  · rw [hsubmitted, hrecords]
    exact List.mem_append_right _ (List.mem_singleton_self _)
  · rw [htjournal, ← List.append_assoc]
    exact slot_concat (by rw [List.length_append, hposition]) hrecord

theorem sidecar_count (h : Sidecar s) (hup : s.running = true) {records n : Nat}
    (howed : s.countOwed = some (idx, records)) (hjournal : t.disk.journal = s.disk.journal)
    (hsubmitted : t.history.submitted = s.history.submitted)
    (hcounts : t.disk.counts = pwrite s.disk.counts (idx * recordSize)
      ((Bytes.ofNatBE recordSize (storedCount records)).take n)) (hnone : t.countOwed = none) :
    Sidecar t := by
  have hlength : ((Bytes.ofNatBE recordSize (storedCount records)).take n).length ≤ recordSize := by
    simp
  have hjournal' : t.disk.journal = s.disk.journal ++ [] := by rw [hjournal, List.append_nil]
  have hsubmitted' : t.history.submitted = s.history.submitted ++ [] := by
    rw [hsubmitted, List.append_nil]
  obtain ⟨hgiven, hfree⟩ := h.owed hup idx records howed
  refine ⟨fun other hbeyond => ?_, fun other => ?_, fun _ other leaves hcount => ?_⟩
  · have hne : other ≠ idx := by
      rintro rfl
      obtain ⟨record, -, hrecord, hslot⟩ := hgiven
      obtain hle | hzero := slot_length_eq.mp (hslot ▸ hrecord)
      · rw [hjournal] at hbeyond
        simp only [commitmentSize] at hle hbeyond
        omega
      · cases hzero
    rw [hcounts]
    exact (h.beyond other (hjournal ▸ hbeyond)).put_other hlength hne
  · by_cases hne : other = idx
    · subst hne
      refine .put records n (hgiven.append hjournal' hsubmitted') ?_
      rw [hcounts]
      exact hfree.put
    · cases h.counted other with
      | unknown hheld =>
          refine .unknown ?_
          rw [hcounts]
          exact hheld.put_other hlength hne
      | put leaves k hgiven' hput =>
          refine .put leaves k (hgiven'.append hjournal' hsubmitted') ?_
          rw [hcounts]
          exact hput.put_other hlength hne
  · rw [hnone] at hcount
    cases hcount

theorem Sidecar.move (h : Sidecar s) (hm : Move lib allowed s t) : Sidecar t := by
  cases hm with
  | boot config =>
      refine h.grow (List.append_nil _).symm rfl (List.append_nil _).symm
        fun _ idx leaves hcount => ?_
      cases hcount
  | stop _ hdown hdisk hhist =>
      have hjournal : t.disk.journal = s.disk.journal ++ [] := by rw [hdisk, List.append_nil]
      have hsubmitted : t.history.submitted = s.history.submitted ++ [] := by
        rw [hhist, List.append_nil]
      exact h.grow hjournal (by rw [hdisk]) hsubmitted fun hup =>
        absurd (hdown.symm.trans hup) Bool.false_ne_true
  | append record records _ _ _ hwhole _ hrecord =>
      refine sidecar_append h hwhole hrecord rfl rfl rfl fun idx leaves hcount => ?_
      dsimp only at hcount
      split_ifs at hcount
      obtain ⟨records, hsome, heq⟩ := Option.map_eq_some_iff.mp hcount
      obtain ⟨rfl, rfl⟩ := Prod.mk.inj heq
      exact ⟨rfl, hsome⟩
  | appendFails record records n _ _ howed =>
      refine h.grow rfl rfl rfl fun _ idx leaves hcount => ?_
      dsimp only at hcount
      rw [howed] at hcount
      cases hcount
  | flush n =>
      refine h.grow rfl rfl (List.append_nil _).symm fun hup idx leaves hcount => ?_
      obtain ⟨hgiven, hnone⟩ := h.owed hup idx leaves hcount
      exact ⟨hgiven.append rfl (List.append_nil _).symm, hnone⟩
  | count idx records n hup howed => exact sidecar_count h hup howed rfl rfl rfl rfl
  | save height confirmed =>
      refine h.same id rfl rfl ?_ rfl
      simp only [State.save, State.batched, State.setStamper, History.commit]
      split <;> rfl
  | adopt | halt | adjust | log | seek | look | skip | take | requeue | confirm | abandon | reread
  | send | notice | mark | land | checkpoint | tail | recover | settle | discard | setAside =>
      exact h.same id rfl rfl rfl rfl

/-- What the sidecar says of an entry is no more than the leaves of its rounds. -/
theorem Sidecar.count_le (h : Sidecar s) (hread : CountRead s idx (some count))
    (hentry : journalEntry s.disk.journal idx = some entry) :
    count ≤ leavesOf s.history.submitted entry := by
  obtain ⟨-, hvalue⟩ := hread
  cases h.counted idx with
  | unknown hnone =>
      have hzero : Holds s.disk.counts idx ((Bytes.ofNatBE recordSize (storedCount 0)).take 0) := by
        rwa [List.take_zero]
      exact (hzero.count_le hvalue).trans (Nat.zero_le _)
  | put leaves k hgiven hput =>
      obtain ⟨record, hmem, -, rfl⟩ := hgiven
      exact (hput.count_le hvalue).trans (le_leavesOf hmem ((journalEntry_slot _ _).trans hentry))

end Sidecar

end OtsServer.Service
