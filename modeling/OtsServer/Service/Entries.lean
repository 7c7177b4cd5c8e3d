import OtsServer.Service.Storage
import Mathlib.Data.Nat.Digits.Lemmas

/-!
# Entries and checkpoints

The journal is only ever appended to, so an entry stays what it is; and a checkpoint
file that is accepted gives the index it was written with.
-/

namespace OtsServer.Service

/-! ## Entries -/

section Entries

variable {journal : Bytes} {db : Db} {idx : Nat} {entry : Bytes}

theorem commitmentSize_pos : 0 < commitmentSize := by decide

theorem journalEntry_eq_none : journalEntry journal idx = none ↔ journalEntries journal ≤ idx := by
  rw [journalEntry, journalEntries]
  have hlen : ((journal.drop (idx * commitmentSize)).take commitmentSize).length = commitmentSize ↔
      (idx + 1) * commitmentSize ≤ journal.length := by
    have := commitmentSize_pos
    rw [List.length_take, List.length_drop, Nat.succ_mul]
    omega
  rw [← not_lt, ← Nat.succ_le_iff, Nat.le_div_iff_mul_le commitmentSize_pos, ← hlen]
  split_ifs with h
  · exact iff_of_false nofun (not_not.mpr h)
  · exact iff_of_false nofun (not_not.mpr h)
  · exact iff_of_true rfl h

theorem journalEntry_lt (h : journalEntry journal idx = some entry) :
    idx < journalEntries journal := by
  by_contra hle
  exact nomatch h.symm.trans (journalEntry_eq_none.mpr (not_lt.mp hle))

theorem exists_journalEntry (h : idx < journalEntries journal) :
    ∃ entry, journalEntry journal idx = some entry := by
  cases he : journalEntry journal idx with
  | none => exact absurd h (not_lt.mpr (journalEntry_eq_none.mp he))
  | some entry => exact ⟨entry, rfl⟩

/-- What is appended to the journal changes no entry. -/
theorem journalEntry_append (h : journalEntry journal idx = some entry) (more : Bytes) :
    journalEntry (journal ++ more) idx = some entry := by
  have hlt := journalEntry_lt h
  rw [journalEntries, ← Nat.succ_le_iff, Nat.le_div_iff_mul_le commitmentSize_pos,
    Nat.succ_mul] at hlt
  have htake : ((journal ++ more).drop (idx * commitmentSize)).take commitmentSize =
      (journal.drop (idx * commitmentSize)).take commitmentSize := by
    rw [List.drop_append_of_le_length (by omega), List.take_append_of_le_length]
    rw [List.length_drop]
    omega
  rw [journalEntry, htake]
  exact h

/-- A commitment is in the database, whatever its first bytes are. -/
def Db.HasCommitment (db : Db) (commitment : Bytes) : Prop := Key.commitment commitment ∈ db.keys

theorem Db.hasCommitment_of_holds {commitment : Bytes}
    (h : db.holds (.commitment commitment) = true) : db.HasCommitment commitment := by
  rw [Db.holds, Bool.and_eq_true, List.contains_iff_mem] at h
  exact h.2

/-- No entry of the journal is under the database's own prefix. -/
def MetaFree (journal : Bytes) : Prop :=
  ∀ idx entry, journalEntry journal idx = some entry → metaPrefix.isPrefixOf entry = false

instance : Decidable (MetaFree journal) :=
  decidable_of_iff
    (∀ idx < journalEntries journal, ∀ entry ∈ journalEntry journal idx,
        metaPrefix.isPrefixOf entry = false)
    ⟨fun h idx entry he => h idx (journalEntry_lt he) entry he, fun h idx _ entry he =>
      h idx entry he⟩

theorem MetaFree.of_append {more : Bytes} (h : MetaFree (journal ++ more)) : MetaFree journal :=
  fun idx entry he => h idx entry (journalEntry_append he more)

theorem MetaFree.holds_iff (h : MetaFree journal) (he : journalEntry journal idx = some entry) :
    db.holds (.commitment entry) = true ↔ db.HasCommitment entry := by
  rw [Db.holds, h idx entry he, Bool.not_false, Bool.true_and, List.contains_iff_mem]
  rfl

/-- The entry at an index is in the database. -/
def Stored (journal : Bytes) (db : Db) (idx : Nat) : Prop :=
  ∃ entry, journalEntry journal idx = some entry ∧ db.HasCommitment entry

theorem Stored.append (h : Stored journal db idx) (more : Bytes) :
    Stored (journal ++ more) db idx := by
  obtain ⟨entry, he, hdb⟩ := h
  exact ⟨entry, journalEntry_append he more, hdb⟩

theorem Stored.mono {db' : Db} (h : Stored journal db idx) (hsub : ∀ k ∈ db.keys, k ∈ db'.keys) :
    Stored journal db' idx := by
  obtain ⟨entry, he, hdb⟩ := h
  exact ⟨entry, he, hsub _ hdb⟩

theorem Stored.put (h : Stored journal db idx) (keys : List Key) (watermark : Option Nat) :
    Stored journal (db.put keys watermark) idx :=
  h.mono fun _ hk => List.mem_append_left _ hk

theorem Stored.hasCommitment (h : Stored journal db idx)
    (he : journalEntry journal idx = some entry) : db.HasCommitment entry := by
  obtain ⟨entry', he', hdb⟩ := h
  exact Option.some.inj (he'.symm.trans he) ▸ hdb

end Entries

/-! ## Checkpoints -/

section Checkpoints

theorem splitFields_word {word : Text} (hword : ∀ c ∈ word, isDecimalDigit c = true)
    (fields : List Text) (rest : Text) :
    ∀ field : Text,
    splitFields fields field (word ++ rest) = splitFields fields (field ++ word) rest := by
  induction word with
  | nil => simp
  | cons c word ih =>
      intro field
      have hc := hword c (List.mem_cons_self ..)
      simp only [isDecimalDigit, Bool.and_eq_true, decide_eq_true_eq] at hc
      rw [List.cons_append, splitFields, if_neg,
        ih (fun d hd => hword d (List.mem_cons_of_mem c hd))]
      · rw [List.append_assoc, List.singleton_append]
      · simp only [Bool.and_eq_true, decide_eq_true_eq, not_and]
        omega

theorem splitFields_space {field : Text} (hfield : field ≠ []) (fields : List Text) (rest : Text) :
    splitFields fields field (' ' :: rest) = splitFields (fields ++ [field]) [] rest := by
  rw [splitFields, if_pos (by decide), if_neg hfield]

theorem splitFields_prefix (rest : Text) : ∀ (fields : List Text) (field : Text),
    ∃ more, splitFields fields field rest = fields ++ more := by
  induction rest with
  | nil =>
      intro fields field
      rw [splitFields]
      split_ifs
      · exact ⟨[], (List.append_nil _).symm⟩
      · exact ⟨[field], rfl⟩
  | cons c rest ih =>
      intro fields field
      rw [splitFields]
      split_ifs
      · exact ih _ _
      · obtain ⟨more, h⟩ := ih (fields ++ [field]) []
        exact ⟨field :: more, by rw [h, List.append_assoc]; rfl⟩
      · exact ih _ _

theorem digitChar_toNat {d : Nat} (hd : d < 10) : (Char.ofNat (48 + d)).toNat = 48 + d := by
  interval_cases d <;> rfl

theorem decimal_digits (n : Nat) : ∀ c ∈ decimal n, isDecimalDigit c = true := by
  intro c hc
  rw [decimal] at hc
  split_ifs at hc
  · rw [List.mem_singleton.mp hc]
    rfl
  · obtain ⟨d, hd, rfl⟩ := List.mem_map.mp (List.mem_reverse.mp hc)
    have := Nat.digits_lt_base (by decide) hd
    rw [isDecimalDigit, digitChar_toNat this]
    simp only [Bool.and_eq_true, decide_eq_true_eq]
    omega

theorem decimal_ne_nil (n : Nat) : decimal n ≠ [] := by
  rw [decimal]
  split_ifs with h
  · simp
  · simpa using Nat.digits_ne_nil_iff_ne_zero.mpr h

theorem decimalValue_decimal (n : Nat) : decimalValue (decimal n) = n := by
  rw [decimal]
  split_ifs with h
  · rw [h]
    rfl
  · rw [decimalValue, List.foldl_reverse, List.foldr_map]
    conv_rhs => rw [← Nat.ofDigits_digits 10 n, Nat.ofDigits_eq_foldr]
    refine List.foldr_ext _ _ _ fun d hd acc => ?_
    rw [digitChar_toNat (Nat.digits_lt_base (by decide) hd), Nat.cast_id]
    omega

theorem splitFields_checkpointText (idx : Nat) (generation : Text) :
    ∃ more, splitFields [] [] (checkpointText idx generation) = decimal idx :: more := by
  rw [checkpointText, List.append_assoc, splitFields_word (decimal_digits idx), List.nil_append,
    List.cons_append, splitFields_space (decimal_ne_nil idx)]
  exact splitFields_prefix _ _ _

theorem checkpointText_index {idx idx' : Nat} {generation generation' : Text}
    (h : checkpointText idx generation = checkpointText idx' generation') : idx = idx' := by
  obtain ⟨more, hmore⟩ := splitFields_checkpointText idx generation
  obtain ⟨more', hmore'⟩ := splitFields_checkpointText idx' generation'
  have hdecimal : decimal idx = decimal idx' := (List.cons.inj (hmore.symm.trans (h ▸ hmore'))).1
  rw [← decimalValue_decimal idx, hdecimal, decimalValue_decimal]

/-- A checkpoint file that is read gives the index it was written with. -/
theorem parseCheckpoint_index {idx idx' : Nat} {generation : Text} {generation' : Option Text}
    (h : parseCheckpoint (checkpointText idx generation) = .ok (idx', generation')) :
    idx' = idx := by
  have hindex : ∀ n, checkpointIndex (decimal idx) = .ok n → n = idx := by
    intro n hn
    rw [checkpointIndex] at hn
    split_ifs at hn
    rw [← Except.ok.inj hn, decimalValue_decimal]
  obtain ⟨more, hmore⟩ := splitFields_checkpointText idx generation
  rw [parseCheckpoint] at h
  split_ifs at h
  rw [hmore] at h
  split at h
  next hfields =>
    obtain ⟨rfl, rfl⟩ := List.cons.inj hfields
    split at h
    · exact nomatch h
    next n hn =>
      obtain ⟨rfl, -⟩ := Prod.mk.inj (Except.ok.inj h)
      exact hindex n hn
  next hfields =>
    obtain ⟨rfl, rfl⟩ := List.cons.inj hfields
    split at h
    next n _ hn _ =>
      obtain ⟨rfl, -⟩ := Prod.mk.inj (Except.ok.inj h)
      exact hindex n hn
    · exact nomatch h
  · exact nomatch h

end Checkpoints

end OtsServer.Service
