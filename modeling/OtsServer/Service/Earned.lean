import OtsServer.Service.Ledger
import OtsServer.Service.Lines

/-!
# Earned receipts

Every complete line of the receipts file is the receipt of an anchor that the database
holds, and no two are of one anchor. The save of a tree appends without a look at the
file: what keeps its line from being the second is that the process saw no anchor saved
whose tree still waits, and settles no marker whose receipt it finds.

All of this is about anchors that are found in a block once: an anchor that is mined
again after it was saved, in a chain that lost its first block, is saved again.
-/

namespace OtsServer.Service

/-- What the receipts depend on. -/
structure Proceeds where
  up : Bool
  lines : List Bytes
  /-- The keys of the database on disk. -/
  durable : List Key
  /-- The keys as the process sees them. -/
  held : List Key
  waiting : AList fun _ : Int => TimestampTx

def State.proceeds (s : State) : Proceeds :=
  { up := s.running
    lines := completeLines s.disk.receipts
    durable := s.disk.db.keys
    held := s.db.keys
    waiting := s.stamper.txsWaitingForConfirmation }

/-- What holds of the anchors of a process. -/
structure Unsaved (lib : Lib) (p : Proceeds) : Prop where
  durable : ∀ k ∈ p.held, k ∈ p.durable
  unsaved : ∀ height tree, p.waiting.lookup height = some tree →
    Key.txid (lib.txid tree.tx) ∉ p.held
  separate : ∀ height height' tree tree', p.waiting.lookup height = some tree →
    p.waiting.lookup height' = some tree' → lib.txid tree.tx = lib.txid tree'.tx → height = height'

/-- The lines are receipts, of anchors apart and saved. -/
def OnFile (lib : Lib) (p : Proceeds) : Prop :=
  ∃ receipts : List Receipt,
    p.lines = receipts.map (receiptLine lib) ∧ (receipts.map Receipt.txid).Nodup ∧
    ∀ r ∈ receipts, Key.txid r.txid ∈ p.durable ∧ (p.up = true → Key.txid r.txid ∈ p.held)

structure Earned (lib : Lib) (p : Proceeds) : Prop where
  onFile : OnFile lib p
  live : p.up = true → Unsaved lib p

section Earned

variable {lib : Lib} {allowed : Config → Prop} {s t : State}

theorem earned_initial (h : Initial s) : Earned lib s.proceeds where
  onFile := by
    rw [State.proceeds, h.disk]
    exact ⟨[], rfl, .nil, fun _ hr => absurd hr List.not_mem_nil⟩
  live hup := nomatch h.down.symm.trans hup

/-- More keys, the same lines. -/
theorem OnFile.grow {p p' : Proceeds} (h : OnFile lib p) (hlines : p'.lines = p.lines)
    (hdurable : ∀ k ∈ p.durable, k ∈ p'.durable)
    (hheld : p'.up = true → ∀ k, k ∈ p.durable → (p.up = true → k ∈ p.held) → k ∈ p'.held) :
    OnFile lib p' := by
  obtain ⟨receipts, heq, hnodup, hkeys⟩ := h
  refine ⟨receipts, hlines.trans heq, hnodup, fun r hr => ?_⟩
  obtain ⟨hd, hh⟩ := hkeys r hr
  exact ⟨hdurable _ hd, fun hup => hheld hup _ hd hh⟩

/-- A line for an anchor that has none. -/
theorem OnFile.line {p p' : Proceeds} (h : OnFile lib p) {receipt : Receipt}
    (hlines : p'.lines = p.lines ++ [receiptLine lib receipt])
    (hnew : ∀ receipts : List Receipt, p.lines = receipts.map (receiptLine lib) →
      (∀ r ∈ receipts, Key.txid r.txid ∈ p.durable ∧ (p.up = true → Key.txid r.txid ∈ p.held)) →
      ∀ r ∈ receipts, r.txid ≠ receipt.txid) (hdurable : ∀ k ∈ p.durable, k ∈ p'.durable)
    (hheld : p.up = true → ∀ k ∈ p.held, k ∈ p'.held) (hup : p'.up = true → p.up = true) (hreceipt :
      Key.txid receipt.txid ∈ p'.durable ∧ (p'.up = true → Key.txid receipt.txid ∈ p'.held)) :
    OnFile lib p' := by
  obtain ⟨receipts, heq, hnodup, hkeys⟩ := h
  refine ⟨receipts ++ [receipt], ?_, ?_, fun r hr => ?_⟩
  · rw [hlines, heq, List.map_append, List.map_singleton]
  · rw [List.map_append, List.map_singleton]
    refine List.nodup_append.mpr ⟨hnodup, List.nodup_singleton _, fun a ha b hb => ?_⟩
    obtain ⟨r, hr, rfl⟩ := List.mem_map.mp ha
    rw [List.mem_singleton.mp hb]
    exact hnew receipts heq hkeys r hr
  · obtain hr | hr := List.mem_append.mp hr
    · exact ⟨hdurable _ (hkeys r hr).1, fun hup' => hheld (hup hup') _ ((hkeys r hr).2 (hup hup'))⟩
    · rw [List.mem_singleton.mp hr]
      exact hreceipt

theorem lookup_of_lookup_erase {waiting : AList fun _ : Int => TimestampTx} {height height' : Int}
    {tree : TimestampTx} (h : (waiting.erase height).lookup height' = some tree) :
    waiting.lookup height' = some tree := by
  by_cases hh : height' = height
  · subst hh
    exact nomatch h.symm.trans (AList.lookup_erase _ _)
  · exact (AList.lookup_erase_ne hh).symm.trans h

theorem earned_save (h : Earned lib s.proceeds)
    (hup : s.running = true) {height : Int} {confirmed : TimestampTx}
    (hwaits : s.stamper.txsWaitingForConfirmation.lookup height = some confirmed) {receipts : Bytes}
    {markers : AList fun _ : Bytes => Bytes}
    (hout : ReceiptOutcome lib s confirmed receipts markers) :
    Earned lib (s.save lib height confirmed receipts markers).proceeds := by
  have hl := h.live hup
  have hkeep : ∀ k ∈ s.db.keys,
      k ∈ (s.save lib height confirmed receipts markers).db.keys := fun _ hk =>
    List.mem_append_left _ hk
  have hdurable : ∀ k ∈ s.disk.db.keys,
      k ∈ (s.save lib height confirmed receipts markers).disk.db.keys := fun _ hk =>
    List.mem_append_left _ hk
  have hsame : completeLines receipts = completeLines s.disk.receipts →
      OnFile lib (s.save lib height confirmed receipts markers).proceeds := fun hlines =>
    h.onFile.grow hlines hdurable fun _ k _ hk => hkeep k (hk hup)
  have hline : ∀ receipt, IsReceiptOf lib confirmed receipt →
      completeLines receipts = completeLines s.disk.receipts ++ [receiptLine lib receipt] →
      OnFile lib (s.save lib height confirmed receipts markers).proceeds := by
    intro receipt hreceipt hlines
    have hkey : Key.txid receipt.txid ∈ savedKeys lib confirmed := by
      rw [hreceipt.txid]
      exact List.mem_cons_self ..
    refine h.onFile.line hlines (fun receipts _ hkeys r hr htxid => ?_) hdurable (fun _ => hkeep)
      (fun _ => hup) ⟨List.mem_append_right _ hkey, fun _ => List.mem_append_right _ hkey⟩
    refine hl.unsaved height confirmed hwaits ?_
    rw [← hreceipt.txid, ← htxid]
    exact (hkeys r hr).2 hup
  refine ⟨?_, fun _ => ⟨?_, ?_, ?_⟩⟩
  · cases hout with
    | off => exact hsame rfl
    | owed receipt file _ _ hlines => exact hsame hlines
    | written receipt file _ hmay hlines => exact hline receipt hmay.isReceipt hlines
    | settled receipt file _ hmay hlines => exact hline receipt hmay.isReceipt hlines
  · exact fun k hk => List.mem_append.mpr ((List.mem_append.mp hk).imp_left (hl.durable k))
  · intro height' tree htree hheld
    have hne : height' ≠ height := by
      rintro rfl
      exact nomatch htree.symm.trans (AList.lookup_erase _ _)
    replace htree := (AList.lookup_erase_ne hne).symm.trans htree
    obtain hheld | hheld := List.mem_append.mp hheld
    · exact hl.unsaved height' tree htree hheld
    · obtain heq | hheld := List.mem_cons.mp hheld
      · exact hne (hl.separate height' height tree confirmed htree hwaits (Key.txid.inj heq))
      · obtain ⟨_, -, heq⟩ := List.mem_map.mp hheld
        exact nomatch heq
  · intro a b tree tree' ha hb
    exact hl.separate a b tree tree' (lookup_of_lookup_erase ha) (lookup_of_lookup_erase hb)

/-- No anchor was found in a block that was saved before, or that another tree had. -/
def FoundOnce (mined : List Found) : Prop := ∀ m ∈ mined, m.again = false

instance (mined : List Found) : Decidable (FoundOnce mined) :=
  inferInstanceAs (Decidable (∀ m ∈ mined, _))

theorem earned_confirm (h : Earned lib s.proceeds) {height : Int} {hash : Bytes}
    {u : UnconfirmedTimestampTx} (hagain : foundAgain lib s (lib.txid u.tx) = false) :
    Earned lib (s.confirm lib height hash u).proceeds := by
  refine ⟨h.onFile, fun hup => ?_⟩
  have hl := h.live hup
  rw [foundAgain, Bool.or_eq_false_iff, List.any_eq_false] at hagain
  have hunsaved : Key.txid (lib.txid u.tx) ∉ s.db.keys := fun hmem =>
    nomatch hagain.1.symm.trans (List.contains_iff_mem.mpr hmem)
  have hother : ∀ height' tree, s.stamper.txsWaitingForConfirmation.lookup height' = some tree →
      lib.txid tree.tx ≠ lib.txid u.tx := fun height' tree htree heq =>
    hagain.2 ⟨height', tree⟩ (AList.mem_lookup_iff.mp htree) (decide_eq_true heq)
  have hwaiting : ∀ height' tree,
      (s.stamper.txsWaitingForConfirmation.insert height (minedTree s.stamper height u)).lookup
        height' = some tree →
      (height' = height ∧ tree = minedTree s.stamper height u) ∨
        s.stamper.txsWaitingForConfirmation.lookup height' = some tree := by
    intro height' tree htree
    by_cases hh : height' = height
    · subst hh
      exact .inl ⟨rfl, Option.some.inj (htree.symm.trans (AList.lookup_insert _))⟩
    · exact .inr ((AList.lookup_insert_ne hh).symm.trans htree)
  refine ⟨hl.durable, fun height' tree htree => ?_, fun a b tree tree' ha hb heq => ?_⟩
  · obtain ⟨-, rfl⟩ | htree := hwaiting height' tree htree
    · exact hunsaved
    · exact hl.unsaved height' tree htree
  · obtain ⟨ha, htree⟩ | ha := hwaiting a tree ha <;> obtain ⟨hb,
      htree'⟩ | hb := hwaiting b tree' hb
    · exact ha.trans hb.symm
    · exact absurd (heq.symm.trans (htree ▸ rfl)) (hother b tree' hb)
    · exact absurd (heq.trans (htree' ▸ rfl)) (hother a tree ha)
    · exact hl.separate a b tree tree' ha hb heq

theorem Earned.move (h : Earned lib s.proceeds) (hm : Move lib allowed s t)
    (honce : FoundOnce t.history.mined) : Earned lib t.proceeds := by
  cases hm with
  | boot config =>
      refine ⟨h.onFile.grow rfl (fun _ hk => hk) fun _ _ hk _ => hk, fun _ =>
        ⟨fun _ hk => hk, ?_, ?_⟩⟩
      · exact fun _ _ htree => nomatch htree
      · exact fun _ _ _ _ htree => nomatch htree
  | stop _ hdown hdisk =>
      have hnot : t.running ≠ true := fun hup => nomatch hdown.symm.trans hup
      refine ⟨h.onFile.grow (congrArg (fun d : Disk => completeLines d.receipts) hdisk)
        (fun k hk => ?_) fun hup => absurd hup hnot, fun hup => absurd hup hnot⟩
      rw [State.proceeds, hdisk]
      exact hk
  | requeue height reorged hwaits =>
      refine ⟨h.onFile, fun hup => ?_⟩
      have hl := h.live hup
      exact ⟨hl.durable, fun a tree ha => hl.unsaved a tree (lookup_of_lookup_erase ha),
          fun a b tree tree' ha hb =>
        hl.separate a b tree tree' (lookup_of_lookup_erase ha) (lookup_of_lookup_erase hb)⟩
  | confirm height hash u =>
      exact earned_confirm h (honce ⟨lib.txid u.tx, s.stamper.pendingCommitments.take u.n, _⟩
        (List.mem_append_right _ (List.mem_singleton_self _)))
  | land height confirmed hup =>
      refine ⟨h.onFile.grow rfl (fun _ hk => List.mem_append_left _ hk) fun hup _ _ hk => hk hup,
        fun hup => ?_⟩
      have hl := h.live hup
      exact ⟨fun k hk => List.mem_append_left _ (hl.durable k hk), hl.unsaved, hl.separate⟩
  | save height confirmed receipts markers hup hwaits hout => exact earned_save h hup hwaits hout
  | tail receipts hlines => exact ⟨h.onFile.grow hlines (fun _ hk => hk) fun hup _ _ hk => hk hup,
      fun hup => { h.live hup with }⟩
  | recover name body receipt receipts hup _ _ hheld hfind hlines =>
      have hkey : Key.txid receipt.txid ∈ s.db.keys := List.contains_iff_mem.mp hheld
      refine ⟨h.onFile.line hlines (fun receipts heq _ r hr htxid => ?_)
        (fun _ hk => hk) (fun _ _ hk => hk) id
        ⟨(h.live hup).durable _ hkey, fun _ => hkey⟩, fun hup => { h.live hup with }⟩
      rw [show completeLines s.disk.receipts = _ from heq, findReceipt_lines] at hfind
      exact of_decide_eq_false (Except.ok.inj hfind) ⟨r, hr, htxid⟩
  | adopt | append | appendFails | flush | adjust | seek | look | skip | take | abandon | send
  | halt | count | log | reread | notice | mark | checkpoint | settle | discard | setAside =>
      exact ⟨h.onFile, h.live⟩

/-- What was found stays in the history. -/
theorem Move.mined (hm : Move lib allowed s t) :
    ∃ more, t.history.mined = s.history.mined ++ more := by
  cases hm with
  | stop _ _ _ hhist => exact ⟨[], by rw [hhist, List.append_nil]⟩
  | confirm => exact ⟨_, rfl⟩
  | save height confirmed =>
      refine ⟨[], ?_⟩
      simp only [State.save, State.batched, State.setStamper, History.commit, List.append_nil]
      split <;> rfl
  | boot | requeue | land | tail | recover | adopt | append | appendFails | flush | adjust | seek
  | look | skip | take | abandon | send | halt | count | log | reread | notice | mark | checkpoint
  | settle | discard | setAside =>
      exact ⟨[], (List.append_nil _).symm⟩

theorem FoundOnce.of_append {mined more : List Found} (h : FoundOnce (mined ++ more)) :
    FoundOnce mined :=
  fun m hm => h m (List.mem_append_left _ hm)

theorem earned_reachable {env : Env} {w : World} (h : (service env allowed).Reachable w)
    (honce : FoundOnce w.history.mined) : Earned env.lib w.proceeds := by
  refine reachable_of_moves (I := fun s => FoundOnce s.history.mined → Earned env.lib s.proceeds)
    (fun _ hs _ => earned_initial hs) (fun s t hs hm honce => ?_) h honce
  obtain ⟨more, hmore⟩ := hm.mined
  exact (hs (FoundOnce.of_append (hmore ▸ honce))).move hm honce

/-- The complete lines are the receipts of anchors apart, each with its own node in the database. -/
theorem receipts_are_earned_once {env : Env} {w : World} (h : (service env allowed).Reachable w)
    (honce : FoundOnce w.history.mined) :
    ∃ receipts : List Receipt, completeLines w.disk.receipts = receipts.map (receiptLine env.lib) ∧
      (receipts.map Receipt.txid).Nodup ∧
      ∀ r ∈ receipts, w.disk.db.holds (.txid r.txid) = true ∧
        (w.running = true → w.db.holds (.txid r.txid) = true) := by
  obtain ⟨receipts, hlines, hnodup, hkeys⟩ := (earned_reachable h honce).onFile
  refine ⟨receipts, hlines, hnodup, fun r hr => ?_⟩
  exact ⟨List.contains_iff_mem.mpr (hkeys r hr).1, fun hup =>
    List.contains_iff_mem.mpr ((hkeys r hr).2 hup)⟩

/-- The receipt of the anchor that was saved. -/
theorem receipt_of_saved_anchor : ∃ receipts : List Receipt,
    completeLines Rehearsal.saved.disk.receipts = receipts.map (receiptLine Rehearsal.lib) ∧
      (receipts.map Receipt.txid).Nodup ∧
      ∀ r ∈ receipts, Rehearsal.saved.disk.db.holds (.txid r.txid) = true ∧
        (Rehearsal.saved.running = true → Rehearsal.saved.db.holds (.txid r.txid) = true) :=
  receipts_are_earned_once Rehearsal.reachable_saved (by decide +kernel)

end Earned

/-! ## An anchor that is mined again -/

namespace MinedAgain

open Rehearsal

/-- The anchor is saved; the node drops every block but the first before the next anchor is made
over the same entry from the same output, and mines the anchor again. -/
def course : Course :=
  { chain := fun n =>
      if n < 35 then [plain 0]
      else if n < 49 then [plain 0, withAnchor 1 anchor root]
      else if n < 78 then [plain 0, withAnchor 1 anchor root, plain 2]
      else if n < 88 then [plain 0]
      else [plain 0, withAnchor 3 anchor root, plain 4]
    coin := fun n =>
      if n < 35 then coin
      else if n < 78 then changeOf anchorId 99896
      else if n < 88 then coin
      else changeOf anchorId 99896
    file := fun _ => .done
    batch := fun _ => .returns }

/-- The entry stands in the journal twice, and is taken once for each. -/
def events : List Event :=
  [.start (config 1 true), .append entry none, .append entry none, .fill, .pass,
    .pass, .fill, .pass, .pass]

def last : World := runEvents (course.env lib) events (.empty (config 1 true))

theorem reachable_last : (service (course.env lib) fun _ => True).Reachable last :=
  reachable_runEvents (by decide +kernel) fun _ _ => trivial

/-- Two complete lines have one txid. -/
theorem receipted_twice : ¬∀ w, (service (course.env lib) fun _ => True).Reachable w →
    ((receiptsOnFile lib.codec w.disk.receipts).map Receipt.txid).Nodup := by
  intro h
  have htxids : (receiptsOnFile lib.codec last.disk.receipts).map Receipt.txid =
      [anchorId, anchorId] := by
    decide +kernel
  have hnodup := h last reachable_last
  rw [htxids] at hnodup
  exact (List.nodup_cons.mp hnodup).1 (List.mem_singleton_self _)

end MinedAgain

end OtsServer.Service
