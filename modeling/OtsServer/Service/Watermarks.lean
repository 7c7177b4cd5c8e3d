import OtsServer.Service.Ledger

/-!
# Watermarks

The watermark that a batch commits covers only stored entries, whatever was submitted.
That watermarks never go back, within a process and from one to the next, needs that the
database answers for every entry it holds: an entry under the database's own prefix is
taken again by every scan, with an index below the watermark.
-/

namespace OtsServer.Service

/-! ## Generations -/

/-- The database, the checkpoint and the process are of one generation. -/
structure Generations (b : Books) : Prop where
  new : b.durable.generation = none → b.durable.watermark = 0 ∧ b.durable.keys = [] ∧
    b.knownGood = none
  token : ∀ g, b.durable.generation = some g → ∃ token : Bytes, token.length = 16 ∧
    g = Bytes.hexText token
  knownGood : ∀ text, b.knownGood = some text →
    ∃ idx g, text = checkpointText idx g ∧ b.durable.generation = some g
  live : b.up = true → b.durable.generation = b.db.generation ∧ b.db.generation ≠ none

section Generations

variable {lib : Lib} {allowed : Config → Prop} {s t : State}

theorem generations_initial (h : Initial s) : Generations s.books where
  new _ := by
    rw [State.books, h.disk]
    exact ⟨rfl, rfl, rfl⟩
  token g hg := by
    rw [State.books, h.disk] at hg
    cases hg
  knownGood text ht := by
    rw [State.books, h.disk] at ht
    cases ht
  live hup := absurd (h.down.symm.trans hup) Bool.false_ne_true

theorem Generations.move (h : Generations s.books) (hm : Move lib allowed s t) :
    Generations t.books := by
  cases hm with
  | adopt token hdown hnone hlen =>
      refine ⟨nofun, fun g hg => ⟨token, hlen, (Option.some.inj hg).symm⟩, fun text ht => ?_,
        fun hup => nomatch hdown.symm.trans hup⟩
      exact nomatch (h.new hnone).2.2.symm.trans ht
  | boot config _ hgen => exact ⟨h.new, h.token, h.knownGood, fun _ => ⟨rfl, hgen⟩⟩
  | stop _ hdown hdisk =>
      refine ⟨?_, ?_, ?_, fun hup => nomatch hdown.symm.trans hup⟩
      · simpa only [State.books, hdisk] using h.new
      · simpa only [State.books, hdisk] using h.token
      · simpa only [State.books, hdisk] using h.knownGood
  | land height confirmed hup =>
      have hlive := h.live hup
      exact ⟨fun hnone => absurd (hlive.1.symm.trans hnone) hlive.2, h.token, h.knownGood, h.live⟩
  | save height confirmed receipts markers hup =>
      have hlive := h.live hup
      exact ⟨fun hnone => absurd (hlive.1.symm.trans hnone) hlive.2, h.token, h.knownGood, h.live⟩
  | checkpoint idx generation hup hgen =>
      have hlive := h.live hup
      refine ⟨fun hnone => absurd (hlive.1.symm.trans hnone) hlive.2, h.token,
        fun text ht => ?_, h.live⟩
      exact ⟨idx, generation, (Option.some.inj ht).symm, hlive.1.trans hgen⟩
  | append | appendFails | flush | adjust | seek | look | skip | take | requeue | confirm | abandon
  | send | halt | count | log | reread | notice | mark | tail | recover | settle | discard
  | setAside =>
      exact ⟨h.new, h.token, h.knownGood, h.live⟩

end Generations

/-! ## Soundness -/

/-- Every entry below a committed watermark was in the database the batch left. -/
def Sound (journal : Bytes) (committed : List Db) : Prop :=
  ∀ db ∈ committed, ∀ i < db.watermark, Stored journal db i

section Sound

variable {lib : Lib} {allowed : Config → Prop} {s t : State}

theorem Sound.append {journal : Bytes} {committed : List Db} (h : Sound journal committed)
    (more : Bytes) : Sound (journal ++ more) committed :=
  fun db hdb i hi => (h db hdb i hi).append more

/-- The database a save leaves, when it commits a watermark. -/
theorem mem_commit {h : History} {db db' : Db} {watermark : Option Nat}
    (hmem : db' ∈ (h.commit db watermark).committed) :
    db' ∈ h.committed ∨ (db' = db ∧ watermark ≠ none) := by
  cases watermark with
  | none => exact .inl hmem
  | some idx =>
      obtain hmem | hmem := List.mem_append.mp hmem
      · exact .inl hmem
      · exact .inr ⟨List.mem_singleton.mp hmem, nofun⟩

theorem Sound.move (hb : s.books.Ledger) (h : Sound s.disk.journal s.history.committed)
    (hm : Move lib allowed s t) : Sound t.disk.journal t.history.committed := by
  cases hm with
  | stop _ _ hdisk hhist =>
      rw [hdisk, hhist]
      exact h
  | append | appendFails | flush => exact h.append _
  | save height confirmed receipts markers hup hwaits =>
      have hsaved := (ledger_save lib hb hup hwaits receipts markers).live hup
      intro db hdb i hi
      obtain hdb | ⟨rfl, -⟩ := mem_commit hdb
      · exact h db hdb i hi
      · exact hsaved.watermark i hi
  | adopt | boot | adjust | seek | look | skip | take | requeue | confirm | abandon | send | halt
  | count | log | reread | notice | mark | land | checkpoint | tail | recover | settle | discard
  | setAside =>
      exact h

end Sound

/-! ## Order -/

/-- The checkpoint file is whole, and its index is covered. -/
def Covers (watermark : Nat) (knownGood : Option Text) : Prop :=
  ∀ text, knownGood = some text → ∃ idx generation, text = checkpointText idx generation ∧
    idx ≤ watermark

theorem Covers.mono {watermark watermark' : Nat} {knownGood : Option Text}
    (h : Covers watermark knownGood) (hle : watermark ≤ watermark') :
    Covers watermark' knownGood := by
  intro text htext
  obtain ⟨idx, generation, heq, hidx⟩ := h text htext
  exact ⟨idx, generation, heq, hidx.trans hle⟩

theorem Covers.le {watermark idx : Nat} {knownGood : Option Text} (h : Covers watermark knownGood)
    (hidx : CheckpointIs knownGood idx) : idx ≤ watermark := by
  obtain ⟨-, rfl⟩ | ⟨text, generation, htext, hparse⟩ := hidx
  · exact Nat.zero_le _
  · obtain ⟨idx', generation', rfl, hle⟩ := h text htext
    exact (parseCheckpoint_index hparse).trans_le hle

/-- What keeps a process from committing less than was committed. -/
structure LiveMarks (b : Books) (dbs : List Db) : Prop where
  durable : b.db.watermark ≤ b.durable.watermark
  committed : ∀ db ∈ dbs, db.watermark ≤ b.db.watermark
  knownGood : Covers b.db.watermark b.knownGood
  index : ∀ entry k, b.idxs.lookup entry = some k → b.db.watermark ≤ k
  scanned : b.pending ≠ [] ∨ b.unconfirmed ≠ [] ∨
    (∃ height tree, b.waiting.lookup height = some tree) → b.db.watermark ≤ b.scanIdx

/-- The watermarks in order. -/
structure Marks (b : Books) (dbs : List Db) : Prop where
  sorted : (dbs.map Db.watermark).Pairwise (· ≤ ·)
  committed : ∀ db ∈ dbs, db.watermark ≤ b.durable.watermark
  knownGood : Covers b.durable.watermark b.knownGood
  live : b.up = true → LiveMarks b dbs

section Marks

variable {lib : Lib} {allowed : Config → Prop} {s t : State}

theorem marks_initial (h : Initial s) : Marks s.books s.history.committed := by
  rw [h.history]
  refine ⟨.nil, fun _ hdb => absurd hdb List.not_mem_nil, fun text htext => ?_,
    fun hup => absurd (h.down.symm.trans hup) Bool.false_ne_true⟩
  rw [State.books, h.disk] at htext
  cases htext

theorem nothing_taken : ¬((([] : List Bytes) ≠ []) ∨ (([] : List UnconfirmedTimestampTx) ≠ []) ∨
    ∃ height tree, (∅ : AList fun _ : Int => TimestampTx).lookup height = some tree) := by
  rintro (h | h | ⟨_, _, h⟩)
  · exact h rfl
  · exact h rfl
  · exact nomatch h

/-- The watermark of a save is none below the one before. -/
theorem watermark_le_checkpointAfter (hb : s.books.Live)
    (hl : LiveMarks s.books s.history.committed) {height : Int} {confirmed : TimestampTx}
    (hwaits : s.stamper.txsWaitingForConfirmation.lookup height = some confirmed) {idx : Nat}
    (hidx : checkpointAfter s.stamper confirmed = some idx) : s.db.watermark ≤ idx := by
  obtain ⟨entry, -, hk⟩ | hcursor := (checkpointAfter_spec hidx).2
  · exact hl.index entry idx hk
  · obtain hc | hidle := hb.cursor
    · rw [← Option.some.inj (hc.symm.trans hcursor)]
      exact hl.scanned (.inr (.inr ⟨height, confirmed, hwaits⟩))
    · exact nomatch hidle.1.symm.trans hcursor

theorem checkpointAfter_le_scanIdx (hb : s.books.Live) {confirmed : TimestampTx} {idx : Nat}
    (hidx : checkpointAfter s.stamper confirmed = some idx) : idx ≤ s.stamper.scanIdx := by
  obtain ⟨entry, -, hk⟩ | hcursor := (checkpointAfter_spec hidx).2
  · exact (hb.index entry idx hk).1.le
  · obtain hc | hidle := hb.cursor
    · exact (Option.some.inj (hcursor.symm.trans hc)).le
    · exact nomatch hidle.1.symm.trans hcursor

variable (lib) in
theorem marks_land (hb : s.books.Ledger) (h : Marks s.books s.history.committed)
    (hup : s.running = true) {height : Int} {confirmed : TimestampTx}
    (hwaits : s.stamper.txsWaitingForConfirmation.lookup height = some confirmed) :
    Marks (s.setDisk (Disk.land lib confirmed (checkpointAfter s.stamper confirmed))).books
      s.history.committed := by
  have hl := h.live hup
  have hge : s.db.watermark ≤
      (s.disk.db.put (savedKeys lib confirmed) (checkpointAfter s.stamper confirmed)).watermark :=
          by
    cases hidx : checkpointAfter s.stamper confirmed with
    | none => exact hl.durable
    | some idx => exact watermark_le_checkpointAfter (hb.live hup) hl hwaits hidx
  exact ⟨h.sorted, fun db hdb => (hl.committed db hdb).trans hge, hl.knownGood.mono hge,
    fun _ => { hl with durable := hge }⟩

variable (lib) in
theorem marks_save (hb : s.books.Ledger) (h : Marks s.books s.history.committed)
    (hup : s.running = true) {height : Int} {confirmed : TimestampTx}
    (hwaits : s.stamper.txsWaitingForConfirmation.lookup height = some confirmed) (receipts : Bytes)
    (markers : AList fun _ : Bytes => Bytes) :
    Marks (s.save lib height confirmed receipts markers).books
      (s.save lib height confirmed receipts markers).history.committed := by
  have hbl := hb.live hup
  have hl := h.live hup
  have hsome : checkpointAfter s.stamper confirmed ≠ none := by
    obtain hc | hidle := hbl.cursor
    · rw [checkpointAfter]
      split
      · exact Option.some_ne_none _
      · rw [show s.stamper.journalCursor = _ from hc]
        exact Option.some_ne_none _
    · rw [show s.stamper.txsWaitingForConfirmation = ∅ from hidle.2.2.1] at hwaits
      cases hwaits
  obtain ⟨idx, hidx⟩ := Option.ne_none_iff_exists'.mp hsome
  have hge := watermark_le_checkpointAfter hbl hl hwaits hidx
  have hdb : (s.save lib height confirmed receipts markers).db.watermark = idx := by
    simp only [State.save, State.batched, State.setStamper, Db.put, hidx, Option.getD_some]
  have hdurable : (s.save lib height confirmed receipts markers).disk.db.watermark = idx := by
    simp only [State.save, State.batched, State.setStamper, Disk.land, Db.put,
      hidx, Option.getD_some]
  have hcommitted : ∀ db ∈ (s.save lib height confirmed receipts markers).history.committed,
      db.watermark ≤ idx := by
    intro db hmem
    obtain hmem | ⟨rfl, -⟩ := mem_commit hmem
    · exact (hl.committed db hmem).trans hge
    · exact hdb.le
  refine ⟨?_, fun db hmem => (hcommitted db hmem).trans_eq hdurable.symm,
    hl.knownGood.mono (hge.trans_eq hdurable.symm),
    fun _ => ⟨?_, ?_, hl.knownGood.mono (hge.trans_eq hdb.symm), ?_, ?_⟩⟩
  · simp only [State.save, State.batched, State.setStamper, History.commit,
      hidx, List.map_append, List.map_cons, List.map_nil]
    refine List.pairwise_append.mpr ⟨h.sorted, List.pairwise_singleton _ _, fun a ha b hb' => ?_⟩
    obtain ⟨db, hmem, rfl⟩ := List.mem_map.mp ha
    rw [List.mem_singleton.mp hb']
    exact (hl.committed db hmem).trans hge
  · exact (hdb.trans hdurable.symm).le
  · exact fun db hmem => (hcommitted db hmem).trans_eq hdb.symm
  · intro entry k hk
    replace hk := (lookup_foldl_erase _ _).symm.trans hk
    split_ifs at hk with hnot
    exact hdb.le.trans ((checkpointAfter_spec hidx).1 entry hnot k hk)
  · exact fun _ => hdb.le.trans (checkpointAfter_le_scanIdx hbl hidx)

/-- The scan takes nothing below the watermark. -/
theorem watermark_le_scanIdx (hb : s.books.Live) (hmeta : MetaFree s.disk.journal)
    {commitment : Bytes} (hentry : journalEntry s.disk.journal s.stamper.scanIdx = some commitment)
    (hheld : s.db.holds (.commitment commitment) = false) : s.db.watermark ≤ s.stamper.scanIdx := by
  by_contra hlt
  have hdb := (hb.watermark _ (not_le.mp hlt)).hasCommitment hentry
  have hholds : s.db.holds (.commitment commitment) = true := (hmeta.holds_iff hentry).mpr hdb
  exact nomatch hheld.symm.trans hholds

theorem marks_move (hb : s.books.Ledger) (hg : Generations s.books)
    (hmeta : MetaFree s.disk.journal) (h : Marks s.books s.history.committed)
    (hm : Move lib allowed s t) : Marks t.books t.history.committed := by
  cases hm with
  | adopt token hdown hnone =>
      have hzero : s.disk.db.watermark = 0 := (hg.new hnone).1
      refine ⟨h.sorted, fun db hdb => ?_, h.knownGood.mono hzero.le, fun hup =>
        nomatch hdown.symm.trans hup⟩
      exact (h.committed db hdb).trans_eq hzero
  | boot config =>
      exact ⟨h.sorted, h.committed, h.knownGood, fun _ =>
        ⟨le_rfl, h.committed, h.knownGood, nofun, fun hsome => absurd hsome nothing_taken⟩⟩
  | stop _ hdown hdisk hhist =>
      rw [hhist]
      refine ⟨h.sorted, ?_, ?_, fun hup => nomatch hdown.symm.trans hup⟩
      · simpa only [State.books, hdisk] using h.committed
      · simpa only [State.books, hdisk] using h.knownGood
  | seek config next idx hfresh hidx =>
      refine ⟨h.sorted, h.committed, h.knownGood, fun hup =>
        { h.live hup with scanned := fun hsome => ?_ }⟩
      simp only [State.books, State.setStamper, hfresh] at hsome
      exact absurd hsome nothing_taken
  | skip commitment =>
      refine ⟨h.sorted, h.committed, h.knownGood, fun hup =>
        { h.live hup with scanned := fun hsome => ?_ }⟩
      exact ((h.live hup).scanned hsome).trans (Nat.le_succ _)
  | take commitment count hentry hheld =>
      refine ⟨h.sorted, h.committed, h.knownGood, fun hup => ?_⟩
      have hle := watermark_le_scanIdx (hb.live hup) hmeta hentry hheld
      refine { h.live hup with
        index := fun entry k hk => ?_
        scanned := fun _ => hle.trans (Nat.le_succ _) }
      obtain hk | ⟨-, rfl⟩ := lookup_setDefault hk
      · exact (h.live hup).index entry k hk
      · exact hle
  | requeue height reorged hwaits =>
      refine ⟨h.sorted, h.committed, h.knownGood, fun hup =>
        { h.live hup with scanned := fun _ => ?_ }⟩
      exact (h.live hup).scanned (.inr (.inr ⟨height, reorged, hwaits⟩))
  | confirm height hash u hu =>
      refine ⟨h.sorted, h.committed, h.knownGood, fun hup =>
        { h.live hup with scanned := fun _ => ?_ }⟩
      exact (h.live hup).scanned (.inr (.inl (List.ne_nil_of_mem hu)))
  | land height confirmed hup hwaits => exact marks_land lib hb h hup hwaits
  | save height confirmed receipts markers hup hwaits =>
      exact marks_save lib hb h hup hwaits receipts markers
  | checkpoint idx generation hup _ hidx =>
      have hl := h.live hup
      have hcovers : Covers s.db.watermark (some (checkpointText idx generation)) :=
          fun text htext =>
        ⟨idx, generation, (Option.some.inj htext).symm, hidx.ge⟩
      exact ⟨h.sorted, h.committed, hcovers.mono hl.durable, fun _ =>
        { hl with knownGood := hcovers }⟩
  | abandon =>
      refine ⟨h.sorted, h.committed, h.knownGood, fun hup =>
        { h.live hup with scanned := fun hsome => ?_ }⟩
      exact (h.live hup).scanned (hsome.imp id fun hsome => .inr (hsome.elim (absurd rfl) id))
  | send u hpending =>
      exact ⟨h.sorted, h.committed, h.knownGood, fun hup =>
        { h.live hup with scanned := fun _ => (h.live hup).scanned (.inl hpending) }⟩
  | append | appendFails | flush | adjust | look | halt | count | log
  | reread | notice | mark | tail | recover | settle | discard | setAside =>
      exact ⟨h.sorted, h.committed, h.knownGood, fun hup => { h.live hup with }⟩

/-- The journal only grows. -/
theorem Move.journal (hm : Move lib allowed s t) :
    ∃ more, t.disk.journal = s.disk.journal ++ more := by
  cases hm with
  | stop _ _ hdisk => exact ⟨[], by rw [hdisk, List.append_nil]⟩
  | append | appendFails | flush => exact ⟨_, rfl⟩
  | adopt | boot | adjust | seek | look | skip | take | requeue | confirm | abandon | send | halt
  | count | log | reread | notice | mark | land | save | checkpoint | tail | recover | settle
  | discard | setAside =>
      exact ⟨[], (List.append_nil _).symm⟩

theorem generations_reachable {env : Env} {w : World} (h : (service env allowed).Reachable w) :
    Generations w.books :=
  reachable_of_moves (I := fun s => Generations s.books) (fun _ => generations_initial)
    (fun _ _ => Generations.move) h

theorem sound_reachable {env : Env} {w : World} (h : (service env allowed).Reachable w) :
    Sound w.disk.journal w.history.committed := by
  refine (reachable_of_moves (I := fun s => s.books.Ledger ∧ Sound s.disk.journal
        s.history.committed) (fun s hs => ⟨ledger_initial hs, fun db hdb => ?_⟩)
      (fun s t hs hm => ⟨hs.1.move hm, hs.2.move hs.1 hm⟩) h).2
  rw [hs.history] at hdb
  exact absurd hdb List.not_mem_nil

theorem marks_reachable {env : Env} {w : World} (h : (service env allowed).Reachable w)
    (hmeta : MetaFree w.disk.journal) : Marks w.books w.history.committed := by
  refine (reachable_of_moves
    (I := fun s => (s.books.Ledger ∧ Generations s.books) ∧
      (MetaFree s.disk.journal → Marks s.books s.history.committed))
    (fun s hs => ⟨⟨ledger_initial hs, generations_initial hs⟩, fun _ => marks_initial hs⟩)
    (fun s t hs hm => ⟨⟨hs.1.1.move hm, hs.1.2.move hm⟩, fun hmeta => ?_⟩) h).2 hmeta
  obtain ⟨more, hmore⟩ := hm.journal
  have hbefore : MetaFree s.disk.journal := MetaFree.of_append (hmore ▸ hmeta)
  exact marks_move hs.1.1 hs.1.2 hbefore (hs.2 hbefore) hm

/-- What a committed watermark and the checkpoint stand for, when no entry is under the database's
own prefix. -/
theorem checkpoints_are_sound {env : Env} {w : World} (h : (service env allowed).Reachable w)
    (hmeta : MetaFree w.disk.journal) :
    (∀ db ∈ w.history.committed, ∀ idx < db.watermark, ∃ entry,
        journalEntry w.disk.journal idx = some entry ∧ db.holds (.commitment entry) = true) ∧
    (w.history.committed.map Db.watermark).Pairwise (· ≤ ·) ∧
    (∀ idx < w.disk.db.watermark, ∃ entry, journalEntry w.disk.journal idx = some entry ∧
      w.disk.db.holds (.commitment entry) = true) ∧
    ∀ idx, CheckpointIs w.disk.knownGood idx → idx ≤ w.disk.db.watermark := by
  have hmarks := marks_reachable h hmeta
  refine ⟨fun db hdb idx hidx => ?_, hmarks.sorted, fun idx hidx => ?_,
    fun idx hidx => hmarks.knownGood.le hidx⟩
  · obtain ⟨entry, he, hheld⟩ := sound_reachable h db hdb idx hidx
    exact ⟨entry, he, (hmeta.holds_iff he).mpr hheld⟩
  · obtain ⟨entry, he, hheld⟩ := (ledger_reachable h).watermark idx hidx
    exact ⟨entry, he, (hmeta.holds_iff he).mpr hheld⟩

/-- The watermark that the save of an anchor committed. -/
theorem checkpoint_of_saved_anchor :
    ∃ db ∈ Rehearsal.saved.history.committed, db.watermark = 1 ∧
    ∃ entry, journalEntry Rehearsal.saved.disk.journal 0 = some entry ∧
      db.holds (.commitment entry) = true := by
  have hcommitted : Rehearsal.saved.history.committed.map Db.watermark = [1] := by decide +kernel
  have hdb : 1 ∈ Rehearsal.saved.history.committed.map Db.watermark := by
    rw [hcommitted]
    exact List.mem_singleton_self 1
  obtain ⟨db, hmem, hone⟩ := List.mem_map.mp hdb
  exact ⟨db, hmem, hone, (checkpoints_are_sound Rehearsal.reachable_saved (by decide +kernel)).1
    db hmem 0 (by rw [hone]; exact Nat.one_pos)⟩

end Marks

/-! ## Entries under the prefix of the database -/

namespace UnderPrefix

open Rehearsal

def first : Bytes := metaPrefix ++ List.replicate 38 1

def second : Bytes := metaPrefix ++ List.replicate 38 2

/-- The tip over both entries, and those over one. -/
def tip : Bytes :=
  [0x21, 0x27, 0xf3, 0xcd, 0xc5, 0xb2, 0xff, 0x3d, 0xae, 0xee, 0xbc, 0x3e, 0xb1, 0x19, 0x2e, 0xd7,
   0xca, 0xa1, 0x9b, 0xb9, 0x36, 0xba, 0x8d, 0x8b, 0xe6, 0x1a, 0xc8, 0xe5, 0xde, 0xac, 0x05, 0x53]

def firstTip : Bytes :=
  [0xc7, 0x25, 0x77, 0x1b, 0xdc, 0x0b, 0x0d, 0x31, 0x17, 0xb8, 0x27, 0xc4, 0xf3, 0x23, 0x94, 0xaa,
   0xa5, 0x6a, 0x1b, 0x71, 0x96, 0x42, 0xb7, 0xd2, 0x2e, 0xa3, 0x80, 0xc5, 0xb7, 0x78, 0x72, 0xf4]

def secondTip : Bytes :=
  [0xd0, 0xa0, 0x38, 0x20, 0xd9, 0x95, 0xaa, 0x6c, 0x6f, 0x59, 0xf7, 0x2a, 0xde, 0xfc, 0xd3, 0x06,
   0x2a, 0x8e, 0xee, 0xf9, 0x43, 0xb5, 0x43, 0xc5, 0xe8, 0xfb, 0x2d, 0xd4, 0xc1, 0x36, 0xcd, 0xd1]

def anchor : Tx := anchorTx coin.outpoint 99896 tip 0

def anchorId : Bytes :=
  [0x14, 0x01, 0xa8, 0x65, 0xd5, 0x28, 0x8f, 0x56, 0xc2, 0xf0, 0x3a, 0xac, 0x2b, 0x7a, 0x7d, 0x27,
   0x34, 0x5c, 0x88, 0x58, 0x5a, 0x8d, 0x5c, 0xa8, 0x13, 0xbf, 0xdc, 0x20, 0xbf, 0x27, 0x90, 0xe2]

def root : Bytes :=
  [0xf0, 0x4f, 0x7a, 0x10, 0xc1, 0xbd, 0xec, 0xbc, 0xdc, 0x1e, 0x24, 0x9f, 0x2e, 0x9b, 0x7f, 0xaf,
   0x6c, 0x7f, 0x1d, 0xd7, 0x0a, 0x13, 0xd1, 0xba, 0x90, 0x80, 0x6e, 0x3a, 0x72, 0xfb, 0xe7, 0xd2]

/-- The anchor of the next process. -/
def later : Tx := anchorTx ⟨anchorId, 0⟩ 99792 firstTip 2

def laterId : Bytes :=
  [0xf7, 0x2f, 0x7b, 0x49, 0xdd, 0x2b, 0xa3, 0x7b, 0x7e, 0x36, 0x2c, 0x33, 0x15, 0x01, 0x19, 0x34,
   0x4b, 0xa5, 0x6c, 0xf3, 0x7f, 0x6f, 0x50, 0x6d, 0xd9, 0xb1, 0x34, 0xc9, 0xe5, 0x3b, 0x46, 0x68]

def laterRoot : Bytes :=
  [0x1f, 0x33, 0xba, 0x2d, 0x94, 0x52, 0x44, 0xc0, 0x1f, 0xcd, 0x71, 0x4f, 0xf8, 0x41, 0x34, 0x57,
   0xad, 0x01, 0x87, 0x62, 0x4d, 0x6b, 0xb2, 0x91, 0x4e, 0x21, 0x5a, 0xe5, 0xd3, 0x97, 0x74, 0xb1]

def lib : Lib :=
  .ofHashes
    [(coinbase.serialize, coinbaseId), (anchor.serialize, anchorId), (coinbaseId ++ anchorId, root),
     (later.serialize, laterId), (coinbaseId ++ laterId, laterRoot)]
    [([first, second], tip), ([first], firstTip), ([second], secondTip)]

/-- The checkpoint file is not written after the first save. -/
def course : Course :=
  { chain := fun n =>
      if n < 34 then [plain 0]
      else
        [plain 0, withAnchor 1 anchor root, plain 2] ++
          (if n < 77 then [] else [withAnchor 3 later laterRoot]) ++ if n < 90 then
            [] else [plain 4]
    coin := fun n => if n < 34 then coin else if n < 90 then changeOf anchorId 99896 else
      changeOf laterId 99792
    file := fun n => if n = 48 then .raises 28 else .done
    batch := fun _ => .returns }

/-- The second process takes the entries again, one at a time. -/
def events : List Event :=
  [.start (config 10 false), .append first none, .append second none, .fill, .pass, .pass, .kill,
   .start (config 1 false), .fill, .pass, .pass, .fill, .pass]

def last : World := runEvents (course.env lib) events (.empty (config 10 false))

theorem reachable_last : (service (course.env lib) fun _ => True).Reachable last :=
  reachable_runEvents (by decide +kernel) fun _ _ => trivial

/-- A watermark that was committed is followed by a lower one. -/
theorem watermark_goes_back : ¬∀ w, (service (course.env lib) fun _ => True).Reachable w →
    (w.history.committed.map Db.watermark).Pairwise (· ≤ ·) := by
  intro h
  have hwatermarks : last.history.committed.map Db.watermark = [2, 1] := by decide +kernel
  have hsorted := h last reachable_last
  rw [hwatermarks] at hsorted
  exact absurd hsorted (by decide)

end UnderPrefix

end OtsServer.Service
