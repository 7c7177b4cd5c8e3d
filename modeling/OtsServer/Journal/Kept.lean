import OtsServer.Journal.Writer
import OtsServer.Service.Entries

/-!
# Entries never move

A writer's position is always at a boundary of entries, so an entry that was synced stays in its
slot, later ones go behind it, and its count goes to the place of the same index.
-/

namespace OtsServer.Journal

open Service Slots

/-! ## Slots of the journal and of the counts -/

section Slots

variable {journal counts commitment record : Bytes} {idx i count n : Nat}

theorem journalRecord_length (h : journalRecord commitment = some record) :
    record.length = commitmentSize := by
  rw [journalRecord] at h
  split_ifs at h with hshort hfull
  · rw [← Option.some.inj h, List.length_append, hshort, List.length_replicate]
    rfl
  · rw [← Option.some.inj h, hfull]

/-- The reader undoes the writer's padding. -/
theorem journalEntry_of_slot (hplain : Plain commitment)
    (h : journalRecord commitment = some (slot commitmentSize journal idx)) :
    journalEntry journal idx = some commitment := by
  have hlength := journalRecord_length h
  rw [journalRecord] at h
  change (if (slot commitmentSize journal idx).length = commitmentSize then
    if (slot commitmentSize journal idx).drop (commitmentSize - hmacSize) =
        List.replicate hmacSize 0 then
      some ((slot commitmentSize journal idx).take (commitmentSize - hmacSize))
    else some (slot commitmentSize journal idx) else none) = _
  rw [if_pos hlength]
  split_ifs at h with hshort hfull
  · rw [← Option.some.inj h, List.drop_left' hshort, if_pos rfl, List.take_left' hshort]
  · obtain hlen | ⟨_, hne⟩ := hplain
    · exact absurd hlen hshort
    · rw [← Option.some.inj h, if_neg hne]

theorem slot_whole (h : journalRecord commitment = some (slot commitmentSize journal idx)) :
    idx * commitmentSize + commitmentSize ≤ journal.length :=
  (slot_length_eq.mp (journalRecord_length h)).resolve_right (by decide)

theorem putCounts_getElem? (counts : Bytes) (idx count n p : Nat)
    (hout : p < idx * recordSize ∨ idx * recordSize + recordSize ≤ p) (hp : p < counts.length) :
    (putCounts counts idx count n)[p]? = counts[p]? := by
  rw [putCounts, pwrite]
  split_ifs with hnil
  · rfl
  have hgap : ((counts ++ List.replicate (idx * recordSize - counts.length) 0).take
        (idx * recordSize)).length = idx * recordSize := by
    rw [List.length_take, List.length_append, List.length_replicate]
    omega
  have hdata : ((Bytes.ofNatBE recordSize count).take n).length ≤ recordSize := by
    rw [List.length_take, Bytes.ofNatBE_length]
    exact Nat.min_le_right ..
  obtain hlow | hhigh := hout
  · rw [List.append_assoc, List.getElem?_append_left (by rw [hgap]; exact hlow),
      List.getElem?_take_of_lt hlow, List.getElem?_append_left hp]
  · rw [List.getElem?_append_right (by rw [List.length_append, hgap]; omega),
      List.getElem?_drop, List.length_append, hgap]
    congr 1
    omega

/-- A put leaves the counts of the other entries. -/
theorem slot_putCounts_other (hne : i ≠ idx)
    (hwhole : (slot recordSize counts i).length = recordSize) :
    slot recordSize (putCounts counts idx count n) i = slot recordSize counts i := by
  have hlen := (slot_length_eq.mp hwhole).resolve_right (by decide)
  refine slot_congr fun p hlow hhigh => putCounts_getElem? _ _ _ _ _ ?_ (by omega)
  obtain hlt | hgt := Nat.lt_or_gt_of_ne hne
  · have := Nat.mul_le_mul_right recordSize (Nat.succ_le_of_lt hlt)
    rw [Nat.succ_mul] at this
    omega
  · have := Nat.mul_le_mul_right recordSize (Nat.succ_le_of_lt hgt)
    rw [Nat.succ_mul] at this
    omega

/-- A put that lands whole is what its entry's place then holds. -/
theorem slot_putCounts (hn : recordSize ≤ n) :
    slot recordSize (putCounts counts idx count n) idx = Bytes.ofNatBE recordSize count := by
  have hdata : (Bytes.ofNatBE recordSize count).take n = Bytes.ofNatBE recordSize count :=
    List.take_of_length_le (by rw [Bytes.ofNatBE_length]; exact hn)
  rw [putCounts, hdata, pwrite,
    if_neg (fun h => by simpa [recordSize] using congrArg List.length h)]
  rw [List.append_assoc, slot, List.drop_left', List.take_left' (Bytes.ofNatBE_length ..)]
  rw [List.length_take, List.length_append, List.length_replicate]
  omega

end Slots

/-! ## What a step does -/

section Steps

variable {s t : State} {e : Event}

/-- What is on file is only appended to, and what was done stays done. -/
structure Extends (s t : State) : Prop where
  journal : s.journal <+: t.journal
  synced : s.synced <+: t.synced
  puts : s.puts <+: t.puts

theorem Extends.refl (s : State) : Extends s s :=
  ⟨List.prefix_rfl, List.prefix_rfl, List.prefix_rfl⟩

theorem Extends.trans {u : State} (h : Extends s t) (h' : Extends t u) : Extends s u :=
  ⟨h.journal.trans h'.journal, h.synced.trans h'.synced, h.puts.trans h'.puts⟩

theorem put_puts (s : State) (idx count n : Nat) : s.puts <+: (s.put idx count n).puts := by
  rw [State.put]
  split_ifs
  · exact List.prefix_append ..
  · exact List.prefix_rfl

@[simp] theorem put_journal (s : State) (idx count n : Nat) :
    (s.put idx count n).journal = s.journal := by
  rw [State.put]
  split_ifs <;> rfl

@[simp] theorem put_synced (s : State) (idx count n : Nat) :
    (s.put idx count n).synced = s.synced := by
  rw [State.put]
  split_ifs <;> rfl

@[simp] theorem put_writer (s : State) (idx count n : Nat) :
    (s.put idx count n).writer = s.writer := by
  rw [State.put]
  split_ifs <;> rfl

theorem put_closed (journal counts : Bytes) (synced : List Synced) (puts : List Put)
    (idx count n : Nat) :
    { State.put ⟨journal, counts, none, synced, puts⟩ idx count n with writer := none } =
      State.put ⟨journal, counts, none, synced, puts⟩ idx count n := by
  rw [State.put]
  split_ifs <;> rfl

/-- What a step can be. -/
inductive Steps (s : State) : State → Prop
  | opens (counting : Bool) (h : s.writer = none) :
      Steps s { s with writer := some ⟨journalPadding s.journal, counting, .nothing⟩ }
  | submit (w : Writer) (commitment : Bytes) (records : Option Nat) (h : s.writer = some w)
      (hdoing : w.doing = .nothing) : Steps s (submitEntry s w commitment records)
  | flush (w : Writer) (n : Nat) (h : s.writer = some w) :
      Steps s { s with
        journal := s.journal ++ w.buffer.take n
        writer := some { w with buffer := w.buffer.drop n } }
  | sync (w : Writer) (idx : Nat) (commitment : Bytes) (records : Option Nat) (h : s.writer =
        some w) (hdoing : w.doing = .appending idx commitment records) (hbuffer : w.buffer = []) :
      Steps s { s with
        synced := s.synced ++ [⟨idx, commitment, records⟩]
        writer := some { w with doing := afterSync w.counting idx records } }
  | put (w : Writer) (idx count n : Nat)
      (h : s.writer = some w) (hdoing : w.doing = .putting idx count) :
      Steps s { s.put idx count n with writer := some { w with doing := .nothing } }
  | stop (w : Writer) (n : Nat) (h : s.writer = some w) :
      Steps s { s with journal := s.journal ++ w.buffer.take n, writer := none }
  | stopPut (w : Writer) (idx count n : Nat) (h : s.writer = some w)
      (hdoing : w.doing = .putting idx count) : Steps s
      (State.put { s with journal := s.journal ++ w.buffer.take n, writer := none } idx count n)

theorem steps_of_step (h : step s e = some t) : Steps s t := by
  cases hw : s.writer with
  | none =>
      cases e with
      | opens counting =>
          rw [step, hw] at h
          obtain rfl := Option.some.inj h
          exact .opens counting hw
      | _ =>
          rw [step, hw] at h
          exact nomatch h
  | some w =>
      cases e with
      | opens counting =>
          rw [step, hw] at h
          exact nomatch h
      | submit commitment records =>
          simp only [step, hw] at h
          split_ifs at h with hdoing
          obtain rfl := Option.some.inj h
          exact .submit w commitment records hw hdoing
      | flush n =>
          rw [step, hw] at h
          obtain rfl := Option.some.inj h
          exact .flush w n hw
      | sync =>
          simp only [step, hw] at h
          split at h
          next idx commitment records hdoing hbuffer =>
            obtain rfl := Option.some.inj h
            exact .sync w idx commitment records hw hdoing hbuffer
          next => exact nomatch h
      | put n =>
          simp only [step, hw] at h
          split at h
          next idx count hdoing =>
            obtain rfl := Option.some.inj h
            exact .put w idx count n hw hdoing
          next => exact nomatch h
      | stop n =>
          simp only [step, hw] at h
          split at h
          next idx count hdoing =>
            obtain rfl := Option.some.inj h
            exact .stopPut w idx count n hw hdoing
          next =>
            obtain rfl := Option.some.inj h
            exact .stop w n hw

theorem submitEntry_extends (s : State) (w : Writer) (commitment : Bytes) (records : Option Nat) :
    Extends s (submitEntry s w commitment records) := by
  rw [submitEntry]
  split
  · exact .refl s
  · split_ifs
    · exact ⟨List.prefix_rfl, List.prefix_rfl, List.prefix_rfl⟩
    · exact .refl s

theorem Steps.extends (h : Steps s t) : Extends s t := by
  cases h with
  | opens => exact ⟨List.prefix_rfl, List.prefix_rfl, List.prefix_rfl⟩
  | submit w commitment records => exact submitEntry_extends s w commitment records
  | flush w n => exact ⟨List.prefix_append .., List.prefix_rfl, List.prefix_rfl⟩
  | sync => exact ⟨List.prefix_rfl, List.prefix_append .., List.prefix_rfl⟩
  | put w idx count n => exact ⟨by simp, by simp, put_puts s idx count n⟩
  | stop w n => exact ⟨List.prefix_append .., List.prefix_rfl, List.prefix_rfl⟩
  | stopPut w idx count n =>
      exact ⟨by simp, by simp,
        put_puts { s with journal := s.journal ++ w.buffer.take n, writer := none } idx count n⟩

theorem Extends.entry (h : Extends s t) {idx : Nat} {entry : Bytes}
    (he : journalEntry s.journal idx = some entry) : journalEntry t.journal idx = some entry := by
  obtain ⟨more, hmore⟩ := h.journal
  rw [← hmore]
  exact journalEntry_append he more

theorem extends_of_run (h : writing.Run s t) : Extends s t := by
  induction h with
  | refl => exact .refl s
  | tail _ hstep ih =>
      obtain ⟨e, he⟩ := hstep
      exact ih.trans (steps_of_step he).extends

end Steps

/-! ## The invariant -/

/-- The count is that of the synced entry at the index. -/
def Counted (s : State) (idx count : Nat) : Prop :=
  ∃ d ∈ s.synced, d.idx = idx ∧ d.records.map storedCount = some count

/-- What a submission is in the middle of stands behind everything that was synced, and a count
is put for the newest entry. -/
def Doing.Sound (s : State) (w : Writer) : Doing → Prop
  | .nothing => True
  | .appending idx commitment _ => ∃ before record, before.length = idx * commitmentSize ∧
      journalRecord commitment = some record ∧ s.journal ++ w.buffer = before ++ record ∧
        ∀ d ∈ s.synced, d.idx < idx
  | .putting idx count => Counted s idx count ∧ ∀ p ∈ s.puts, p.idx < idx

structure Writer.Sound (s : State) (w : Writer) : Prop where
  boundary : commitmentSize ∣ w.tell s.journal
  doing : w.doing.Sound s w

structure Sound (s : State) : Prop where
  slots : ∀ d ∈ s.synced, journalRecord d.commitment = some (slot commitmentSize s.journal d.idx)
  increasing : (s.synced.map Synced.idx).Pairwise (· < ·)
  once : (s.puts.map Put.idx).Pairwise (· < ·)
  counted : ∀ p ∈ s.puts, Counted s p.idx p.count
  landed : ∀ p ∈ s.puts, p.landed = recordSize →
    slot recordSize s.counts p.idx = Bytes.ofNatBE recordSize p.count
  writer : ∀ w, s.writer = some w → w.Sound s

section Sound

variable {s t : State} {w : Writer}

theorem journalPadding_boundary (journal : Bytes) :
    commitmentSize ∣ journal.length + (journalPadding journal).length := by
  rw [journalPadding]
  have hlt := Nat.mod_lt journal.length commitmentSize_pos
  have hdiv := Nat.div_add_mod journal.length commitmentSize
  split_ifs with h
  · rw [List.length_replicate]
    refine ⟨journal.length / commitmentSize + 1, ?_⟩
    rw [Nat.mul_succ]
    omega
  · exact (Nat.dvd_of_mod_eq_zero (not_not.mp h))

/-- Appending keeps every slot that was synced. -/
theorem Sound.slots_append (h : Sound s) (more : Bytes) :
    ∀ d ∈ s.synced,
      journalRecord d.commitment = some (slot commitmentSize (s.journal ++ more) d.idx) := by
  intro d hd
  rw [slot_append (slot_whole (h.slots d hd))]
  exact h.slots d hd

theorem Sound.synced_end (h : Sound s) :
    ∀ d ∈ s.synced, d.idx * commitmentSize + commitmentSize ≤ s.journal.length :=
  fun d hd => slot_whole (h.slots d hd)

/-- Everything that was synced is before the writer's position. -/
theorem Sound.lt_tell (h : Sound s) (w : Writer) :
    ∀ d ∈ s.synced, d.idx < w.tell s.journal / commitmentSize := by
  intro d hd
  rw [← Nat.succ_le_iff, Nat.le_div_iff_mul_le commitmentSize_pos, Nat.succ_mul]
  exact (h.synced_end d hd).trans (Nat.le_add_right ..)

/-- Bytes that leave the buffer for the file leave the writer's position where it is. -/
theorem Writer.Sound.flush (h : w.Sound s) (n : Nat) :
    ({ w with buffer := w.buffer.drop n } : Writer).Sound
      { s with
        journal := s.journal ++ w.buffer.take n
        writer := some { w with buffer := w.buffer.drop n } } where
  boundary := by
    have hlength : (w.buffer.take n).length + (w.buffer.drop n).length = w.buffer.length := by
      rw [← List.length_append, List.take_append_drop]
    rw [Writer.tell, List.length_append, Nat.add_assoc, hlength]
    exact h.boundary
  doing := by
    have hdoing := h.doing
    cases hd : w.doing with
    | nothing => trivial
    | putting idx count =>
        rw [hd] at hdoing
        exact hdoing
    | appending idx commitment records =>
        rw [hd] at hdoing
        obtain ⟨before, record, hbefore, hrecord, hsame, hlt⟩ := hdoing
        refine ⟨before, record, hbefore, hrecord, ?_, hlt⟩
        rw [List.append_assoc, List.take_append_drop]
        exact hsame

theorem Sound.append (h : Sound s) (more : Bytes) {writer : Option Writer} (hwriter : ∀ w,
      writer = some w → w.Sound { s with journal := s.journal ++ more, writer := writer }) :
    Sound { s with journal := s.journal ++ more, writer := writer } :=
  { h with slots := h.slots_append more, writer := hwriter }

theorem Sound.submit (h : Sound s) (hw : s.writer = some w) (commitment : Bytes)
    (records : Option Nat) : Sound (submitEntry s w commitment records) := by
  rw [submitEntry]
  cases hrecord : journalRecord commitment with
  | none => exact h
  | some record =>
      have hboundary := (h.writer w hw).boundary
      rw [Writer.tell] at hboundary
      change Sound (if _ then _ else _)
      split_ifs
      · refine { h with writer := fun w' hw' => ?_ }
        obtain rfl := Option.some.inj hw'
        refine ⟨?_, s.journal ++ w.buffer, record, ?_, hrecord, (List.append_assoc ..).symm,
          h.lt_tell w⟩
        · rw [Writer.tell, List.length_append, ← Nat.add_assoc, journalRecord_length hrecord]
          exact Nat.dvd_add hboundary (Nat.dvd_refl _)
        · rw [List.length_append]
          exact (Nat.div_mul_cancel hboundary).symm
      · exact h

theorem Sound.sync (h : Sound s) (hw : s.writer = some w) {idx : Nat} {commitment : Bytes}
    {records : Option Nat} (hdoing : w.doing = .appending idx commitment records)
    (hbuffer : w.buffer = []) :
    Sound { s with
      synced := s.synced ++ [⟨idx, commitment, records⟩]
      writer := some { w with doing := afterSync w.counting idx records } } := by
  obtain ⟨hboundary, hsound⟩ := h.writer w hw
  rw [hdoing] at hsound
  obtain ⟨before, record, hbefore, hrecord, hsame, hlt⟩ := hsound
  rw [hbuffer, List.append_nil] at hsame
  refine { h with slots := ?_, increasing := ?_, counted := ?_, writer := ?_ }
  · intro d hd
    obtain hd | hd := List.mem_append.mp hd
    · exact h.slots d hd
    · rw [List.mem_singleton.mp hd]
      change journalRecord commitment = some (slot commitmentSize s.journal idx)
      rw [hrecord, hsame, slot_concat hbefore (journalRecord_length hrecord)]
  · rw [List.map_append, List.pairwise_append]
    refine ⟨h.increasing, List.pairwise_singleton .., fun i hi j hj => ?_⟩
    obtain ⟨d, hd, rfl⟩ := List.mem_map.mp hi
    rw [List.mem_singleton.mp hj]
    exact hlt d hd
  · intro p hp
    obtain ⟨d, hd, hcounted⟩ := h.counted p hp
    exact ⟨d, List.mem_append_left _ hd, hcounted⟩
  · intro w' hw'
    obtain rfl := Option.some.inj hw'
    refine ⟨hboundary, ?_⟩
    cases w.counting with
    | false => trivial
    | true =>
        cases records with
        | none => trivial
        | some records =>
            refine ⟨⟨_, List.mem_append_right _ (List.mem_singleton_self _), rfl, rfl⟩,
              fun p hp => ?_⟩
            obtain ⟨d, hd, hidx, -⟩ := h.counted p hp
            exact hidx ▸ hlt d hd

/-- A writer that is doing nothing, at a boundary. -/
theorem Writer.Sound.idle (h : commitmentSize ∣ w.tell s.journal) (hdoing : w.doing = .nothing) :
    w.Sound s :=
  ⟨h, by rw [hdoing]; trivial⟩

/-- A put for an entry behind those that have a count. -/
theorem Sound.put (h : Sound s) {idx count : Nat} (hcounted : Counted s idx count)
    (hlt : ∀ p ∈ s.puts, p.idx < idx) (n : Nat) {writer : Option Writer}
    (hwriter : ∀ w, writer = some w → commitmentSize ∣ w.tell s.journal ∧ w.doing = .nothing) :
    Sound { s.put idx count n with writer := writer } := by
  have hidle : ∀ u : State, u.journal = s.journal → ∀ w, writer = some w → w.Sound u :=
      fun u hu w hw =>
    .idle (hu ▸ (hwriter w hw).1) (hwriter w hw).2
  rw [State.put]
  split_ifs
  · refine { h with once := ?_, counted := ?_, landed := ?_, writer := hidle _ rfl }
    · rw [List.map_append, List.pairwise_append]
      refine ⟨h.once, List.pairwise_singleton .., fun i hi j hj => ?_⟩
      obtain ⟨p, hp, rfl⟩ := List.mem_map.mp hi
      rw [List.mem_singleton.mp hj]
      exact hlt p hp
    · intro p hp
      obtain hp | hp := List.mem_append.mp hp
      · exact h.counted p hp
      · rw [List.mem_singleton.mp hp]
        exact hcounted
    · intro p hp hlanded
      obtain hp | hp := List.mem_append.mp hp
      · have hslot := h.landed p hp hlanded
        rw [← hslot]
        exact slot_putCounts_other (hlt p hp).ne (by rw [hslot, Bytes.ofNatBE_length])
      · obtain rfl := List.mem_singleton.mp hp
        change min n recordSize = recordSize at hlanded
        exact slot_putCounts (min_eq_right_iff.mp hlanded)
  · exact { h with writer := hidle _ rfl }

theorem Sound.step (h : Sound s) (hstep : Steps s t) : Sound t := by
  cases hstep with
  | opens counting hnone =>
      refine { h with writer := fun w hw => ?_ }
      obtain rfl := Option.some.inj hw
      exact .idle (journalPadding_boundary s.journal) rfl
  | submit w commitment records hw => exact h.submit hw commitment records
  | flush w n hw =>
      refine h.append _ fun w' hw' => ?_
      obtain rfl := Option.some.inj hw'
      exact (h.writer w hw).flush n
  | sync w idx commitment records hw hdoing hbuffer => exact h.sync hw hdoing hbuffer
  | put w idx count n hw hdoing =>
      obtain ⟨hboundary, hsound⟩ := h.writer w hw
      rw [hdoing] at hsound
      refine h.put hsound.1 hsound.2 n fun w' hw' => ?_
      obtain rfl := Option.some.inj hw'
      exact ⟨hboundary, rfl⟩
  | stop w n => exact h.append _ fun _ hw' => nomatch hw'
  | stopPut w idx count n hw hdoing =>
      have hsound := (h.writer w hw).doing
      rw [hdoing] at hsound
      have hclosed : Sound { s with journal := s.journal ++ w.buffer.take n, writer := none } :=
        h.append _ fun _ hw' => nomatch hw'
      have hput := hclosed.put hsound.1 hsound.2 n fun _ (hw' : none = some _) => nomatch hw'
      rwa [put_closed] at hput

theorem sound : writing.Inductive Sound where
  init := by
    rintro _ rfl
    exact {
      slots := fun _ hd => nomatch hd
      increasing := .nil
      once := .nil
      counted := fun _ hp => nomatch hp
      landed := fun _ hp => nomatch hp
      writer := fun _ hw => nomatch hw }
  step := by
    rintro s t _ h ⟨e, he⟩
    exact h.step (steps_of_step he)

end Sound

/-! ## Entries and counts -/

section Kept

variable {s t : State}

/-- The writer's position is a boundary, so the assertion of `submit` holds. -/
theorem tell_boundary (hs : writing.Reachable s) {w : Writer} (hw : s.writer = some w) :
    w.tell s.journal % commitmentSize = 0 :=
  Nat.mod_eq_zero_of_dvd ((sound.reachable hs).writer w hw).boundary

/-- A reader in the middle of an append gets a `KeyError` or the entry. -/
theorem entry_while_appending (hs : writing.Reachable s) {w : Writer}
    (hw : s.writer = some w) {idx : Nat} {commitment : Bytes} {records : Option Nat}
    (hdoing : w.doing = .appending idx commitment records) (hplain : Plain commitment) :
    journalEntry s.journal idx = none ∨ journalEntry s.journal idx = some commitment := by
  have hsound := ((sound.reachable hs).writer w hw).doing
  rw [hdoing] at hsound
  obtain ⟨before, record, hbefore, hrecord, hsame, -⟩ := hsound
  by_cases hwhole : (slot commitmentSize s.journal idx).length = commitmentSize
  · right
    apply journalEntry_of_slot hplain
    rw [hrecord, slot_of_partial hbefore (journalRecord_length hrecord) hsame hwhole]
  · left
    exact if_neg hwhole

/-- Every entry stays where its submission put it, as it was. -/
theorem entries_never_move (hs : writing.Reachable s) :
    (∀ d ∈ s.synced, Plain d.commitment → journalEntry s.journal d.idx = some d.commitment) ∧
    (s.synced.map Synced.idx).Pairwise (· < ·) ∧
    (∀ w, s.writer = some w → w.tell s.journal % commitmentSize = 0 ∧
      ∀ d ∈ s.synced, d.idx < w.tell s.journal / commitmentSize) ∧
    (∀ w idx commitment records, s.writer = some w → w.doing = .appending idx commitment records →
      Plain commitment → (∀ d ∈ s.synced, d.idx < idx) ∧
      (journalEntry s.journal idx = none ∨ journalEntry s.journal idx = some commitment)) ∧
    ((s.puts.map Put.idx).Pairwise (· < ·) ∧ ∀ p ∈ s.puts, Counted s p.idx p.count ∧
      (p.landed = recordSize → countBytes s.counts p.idx = Bytes.ofNatBE recordSize p.count)) ∧
    ∀ t, writing.Run s t → s.synced <+: t.synced ∧ s.puts <+: t.puts ∧ ∀ idx entry,
        journalEntry s.journal idx = some entry → journalEntry t.journal idx = some entry := by
  have h := sound.reachable hs
  refine ⟨?_, h.increasing, ?_, ?_, ⟨h.once, ?_⟩, ?_⟩
  · intro d hd hplain
    exact journalEntry_of_slot hplain (h.slots d hd)
  · intro w hw
    exact ⟨tell_boundary hs hw, h.lt_tell w⟩
  · intro w idx commitment records hw hdoing hplain
    refine ⟨?_, entry_while_appending hs hw hdoing hplain⟩
    have hsound := (h.writer w hw).doing
    rw [hdoing] at hsound
    obtain ⟨_, _, _, _, _, hlt⟩ := hsound
    exact hlt
  · intro p hp
    exact ⟨h.counted p hp, h.landed p hp⟩
  · intro t hrun
    have hextends := extends_of_run hrun
    exact ⟨hextends.synced, hextends.puts, fun _ _ => hextends.entry⟩

end Kept

/-! ## A torn record -/

def run (events : List Event) : Option State := events.foldlM step State.empty

theorem reachable_run {events : List Event} {s : State} (h : run events = some s) :
    writing.Reachable s := by
  induction events using List.reverseRecOn generalizing s with
  | nil =>
      obtain rfl := Option.some.inj h
      exact .init rfl
  | append_singleton events e ih =>
      rw [run, List.foldlM_append] at h
      obtain ⟨t, ht, hlast⟩ := Option.bind_eq_some_iff.mp h
      refine .step (ih ht) ⟨e, ?_⟩
      simpa using hlast

namespace Torn

/-- The first submission is stopped in the middle of its entry; the second one's entry goes behind
the padding, and its count to the second place. -/
def events : List Event :=
  [.opens true, .submit (List.replicate 36 1) (some 3), .flush 20, .stop 0,
    .opens true, .submit (List.replicate 36 2) (some 5), .flush 30, .flush 100, .sync, .put 4]

def last : State := (run events).getD State.empty

theorem reachable_last : writing.Reachable last :=
  reachable_run (show run events = some last from rfl)

theorem kept_behind_torn :
    last.journal.length = 88 ∧ last.synced = [⟨1, List.replicate 36 2, some 5⟩] ∧
    journalEntry last.journal 1 = some (List.replicate 36 2) ∧
      countBytes last.counts 1 = [0, 0, 0, 5] := by
  obtain ⟨hread, -, -, -, ⟨-, hputs⟩, -⟩ := entries_never_move reachable_last
  have hmem : (⟨1, List.replicate 36 2, some 5⟩ : Synced) ∈ last.synced := List.mem_singleton_self _
  have hput : (⟨1, 5, 4⟩ : Put) ∈ last.puts := List.mem_singleton_self _
  exact ⟨rfl, rfl, hread _ hmem (.inl rfl), (hputs _ hput).2 rfl⟩

end Torn

end OtsServer.Journal
