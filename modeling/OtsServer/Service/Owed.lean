import OtsServer.Service.Earned

/-!
# Owed receipts

Between the batch that saves an anchor and the line of its receipt, the marker is all that
owes the receipt. With receipts on throughout, every anchor that the database holds has its
marker or its line, unless a marker of it was discarded while the anchor was on disk: a batch
that raised is not seen by the process that made it, which asks the database for the anchor,
is told no, and drops the marker. When the marker of the next try is not written, a restart
finds the anchor and nothing that owes its receipt.
-/

namespace OtsServer.Service

section Owed

variable {lib : Lib} {s t : State} {id : Bytes}

/-- The receipt of an anchor is on file or in a marker, or a marker of it was discarded when
the anchor was on disk. -/
inductive Owes (lib : Lib) (s : State) (id : Bytes) : Prop
  | marker (receipt : Receipt) : receipt.txid = id →
      s.disk.markers.lookup id = some (markerBody lib receipt) → Owes lib s id
  | line (receipt : Receipt) : receipt.txid = id →
      receiptLine lib receipt ∈ completeLines s.disk.receipts → Owes lib s id
  | discarded : (id, true) ∈ s.history.discarded → Owes lib s id

/-- What is owed in a service that writes receipts. -/
structure Owing (lib : Lib) (s : State) : Prop where
  on : s.running = true → s.stamper.config.receiptsOn = true
  markers : ∀ name body, s.disk.markers.lookup name = some body →
    ∃ receipt : Receipt, receipt.txid = name ∧ body = markerBody lib receipt
  lines : ∃ receipts : List Receipt, completeLines s.disk.receipts = receipts.map (receiptLine lib)
  owes : ∀ id, Key.txid id ∈ s.disk.db.keys → Owes lib s id

theorem Owes.mono (h : Owes lib s id)
    (hmarker : ∀ body, s.disk.markers.lookup id = some body → t.disk.markers.lookup id = some body)
    (hlines : ∀ line ∈ completeLines s.disk.receipts, line ∈ completeLines t.disk.receipts)
    (hdiscarded : ∀ d ∈ s.history.discarded, d ∈ t.history.discarded) : Owes lib t id := by
  cases h with
  | marker receipt htxid hbody => exact .marker receipt htxid (hmarker _ hbody)
  | line receipt htxid hline => exact .line receipt htxid (hlines _ hline)
  | discarded hmem => exact .discarded (hdiscarded _ hmem)

/-- The marker under a txid is that of the receipt it decodes to. -/
theorem Owing.txid_of_marker (h : Owing lib s) {name body : Bytes} {receipt : Receipt}
    (hbody : s.disk.markers.lookup name = some body)
    (hreceipt : lib.codec.bodyReceipt body = .ok receipt) :
    receipt.txid = name ∧ body = markerBody lib receipt := by
  obtain ⟨written, htxid, rfl⟩ := h.markers name body hbody
  rw [markerBody, lib.codec.bodyReceipt_body] at hreceipt
  obtain rfl := Except.ok.inj hreceipt
  exact ⟨htxid, rfl⟩

theorem owing_initial (h : Initial s) : Owing lib s where
  on hup := nomatch h.down.symm.trans hup
  markers name body hbody := by
    rw [h.disk] at hbody
    cases hbody
  lines := ⟨[], by rw [h.disk]; rfl⟩
  owes id hid := by
    rw [h.disk] at hid
    exact absurd hid List.not_mem_nil

/-- A marker goes whose txid is otherwise accounted for. -/
theorem Owes.erase (h : Owes lib s id)
    (name : Bytes) (hmarkers : t.disk.markers = s.disk.markers.erase name)
    (hlines : t.disk.receipts = s.disk.receipts)
    (hdiscarded : ∀ d ∈ s.history.discarded, d ∈ t.history.discarded)
    (hname : id = name → Owes lib t id) : Owes lib t id := by
  by_cases hid : id = name
  · exact hname hid
  · refine h.mono (fun body hbody => ?_) (fun line hline => hlines ▸ hline) hdiscarded
    rw [hmarkers, AList.lookup_erase_ne hid]
    exact hbody

theorem lookup_of_markers_erase {markers : AList fun _ : Bytes => Bytes} {name other body : Bytes}
    (h : (markers.erase name).lookup other = some body) : markers.lookup other = some body := by
  by_cases hother : other = name
  · subst hother
    exact absurd (h.symm.trans (AList.lookup_erase _ _)) (Option.some_ne_none _)
  · exact (AList.lookup_erase_ne hother).symm.trans h

theorem mem_savedKeys {confirmed : TimestampTx} (h : Key.txid id ∈ savedKeys lib confirmed) :
    id = lib.txid confirmed.tx := by
  obtain heq | hmem := List.mem_cons.mp h
  · exact Key.txid.inj heq
  · obtain ⟨_, -, heq⟩ := List.mem_map.mp hmem
    cases heq

/-- A save whose batch returned leaves the receipt of its anchor in the marker or on file. -/
theorem owing_save (h : Owing lib s) (hup : s.running = true) {height : Int}
    {confirmed : TimestampTx} {receipts : Bytes} {markers : AList fun _ : Bytes => Bytes}
    (hout : ReceiptOutcome lib s confirmed receipts markers) :
    Owing lib (s.save lib height confirmed receipts markers) := by
  have hdiscarded : (s.save lib height confirmed receipts markers).history.discarded =
      s.history.discarded := by
    simp only [State.save, State.batched, State.setStamper, History.commit]
    split <;> rfl
  have hkeys : ∀ id, Key.txid id ∈ (s.save lib height confirmed receipts markers).disk.db.keys →
      Key.txid id ∈ s.disk.db.keys ∨ id = lib.txid confirmed.tx := fun id hid =>
    (List.mem_append.mp hid).imp_right mem_savedKeys
  have hlines : ∀ receipt,
      completeLines receipts = completeLines s.disk.receipts ++ [receiptLine lib receipt] →
      ∃ written : List Receipt, completeLines receipts = written.map (receiptLine lib) := by
    intro receipt hfile
    obtain ⟨written, hwritten⟩ := h.lines
    exact ⟨written ++ [receipt], by rw [hfile, hwritten, List.map_append, List.map_singleton]⟩
  have hon := h.on hup
  cases hout with
  | off hoff => exact absurd (hoff.symm.trans hon) Bool.false_ne_true
  | owed receipt file _ hmay hfile =>
      refine ⟨fun _ => hon, h.markers, ?_, fun id hid => ?_⟩
      · obtain ⟨written, hwritten⟩ := h.lines
        exact ⟨written, hfile.trans hwritten⟩
      · obtain hold | rfl := hkeys id hid
        · exact (h.owes id hold).mono (fun _ hbody => hbody) (fun line hline => hfile ▸ hline)
            fun d hd => hdiscarded ▸ hd
        · exact .marker receipt hmay.isReceipt.txid (hmay.isReceipt.txid ▸ hmay.marker)
  | written receipt file _ hmay hfile =>
      refine ⟨fun _ => hon, h.markers, hlines receipt hfile, fun id hid => ?_⟩
      obtain hold | rfl := hkeys id hid
      · exact (h.owes id hold).mono (fun _ hbody => hbody)
          (fun line hline => hfile ▸ List.mem_append_left _ hline) fun d hd => hdiscarded ▸ hd
      · exact .marker receipt hmay.isReceipt.txid (hmay.isReceipt.txid ▸ hmay.marker)
  | settled receipt file _ hmay hfile =>
      have hline : receiptLine lib receipt ∈ completeLines receipts :=
        hfile ▸ List.mem_append_right _ (List.mem_singleton_self _)
      refine ⟨fun _ => hon, fun name body hbody =>
        h.markers name body (lookup_of_markers_erase hbody), hlines receipt hfile, fun id hid => ?_⟩
      obtain hold | rfl := hkeys id hid
      · by_cases hid : id = receipt.txid
        · exact .line receipt hid.symm hline
        · exact (h.owes id hold).mono (fun _ hbody => (AList.lookup_erase_ne hid).trans hbody)
            (fun line hline => hfile ▸ List.mem_append_left _ hline) fun d hd => hdiscarded ▸ hd
      · exact .line receipt hmay.isReceipt.txid hline

/-- A move that touches neither the anchors nor what owes their receipts. -/
theorem Owing.same (h : Owing lib s) (hon : t.running = true → t.stamper.config.receiptsOn = true)
    (hkeys : t.disk.db.keys = s.disk.db.keys) (hmarkers : t.disk.markers = s.disk.markers)
    (hreceipts : completeLines t.disk.receipts = completeLines s.disk.receipts)
    (hdiscarded : t.history.discarded = s.history.discarded) : Owing lib t where
  on := hon
  markers := hmarkers ▸ h.markers
  lines := hreceipts ▸ h.lines
  owes id hid := (h.owes id (hkeys ▸ hid)).mono (fun _ hbody => hmarkers ▸ hbody)
    (fun _ hline => hreceipts ▸ hline) fun _ hd => hdiscarded ▸ hd

theorem Owing.move (h : Owing lib s) (hm : Move lib (fun config => config.receiptsOn = true) s t) :
    Owing lib t := by
  cases hm with
  | boot config _ _ hallowed => exact h.same (fun _ => hallowed) rfl rfl rfl rfl
  | stop _ hdown hdisk hhist =>
      exact h.same (fun hup => absurd (hdown.symm.trans hup) Bool.false_ne_true)
        (by rw [hdisk]) (by rw [hdisk]) (by rw [hdisk]) (by rw [hhist])
  | mark height confirmed receipt hup _ hreceipt =>
      refine ⟨h.on, fun name body hbody => ?_, h.lines, fun id hid => ?_⟩
      · by_cases hname : name = receipt.txid
        · subst hname
          exact ⟨receipt, rfl, Option.some.inj (hbody.symm.trans (AList.lookup_insert _))⟩
        · exact h.markers name body ((AList.lookup_insert_ne hname).symm.trans hbody)
      · by_cases hname : id = receipt.txid
        · subst hname
          exact .marker receipt rfl (AList.lookup_insert _)
        · exact (h.owes id hid).mono (fun _ hbody => (AList.lookup_insert_ne hname).trans hbody)
            (fun _ hline => hline) fun _ hd => hd
  | land height confirmed hup _ hmay =>
      refine ⟨h.on, h.markers, h.lines, fun id hid => ?_⟩
      obtain hold | hnew := List.mem_append.mp hid
      · exact (h.owes id hold).mono (fun _ hbody => hbody) (fun _ hline => hline) fun _ hd => hd
      · obtain ⟨receipt, hmay⟩ := hmay (h.on hup)
        obtain rfl := mem_savedKeys hnew
        exact .marker receipt hmay.isReceipt.txid (hmay.isReceipt.txid ▸ hmay.marker)
  | save height confirmed receipts markers hup _ hout => exact owing_save h hup hout
  | tail receipts hlines => exact h.same h.on rfl rfl hlines rfl
  | recover name body receipt receipts _ _ _ _ _ hlines =>
      obtain ⟨written, hwritten⟩ := h.lines
      refine ⟨h.on, h.markers, ⟨written ++ [receipt], ?_⟩, fun id hid => ?_⟩
      · rw [List.map_append, ← hwritten]
        exact hlines
      · exact (h.owes id hid).mono (fun _ hbody => hbody)
          (fun line hline => by rw [State.setDisk, hlines]; exact List.mem_append_left _ hline)
            fun _ hd => hd
  | settle name body receipt _ hbody hreceipt _ hfind =>
      refine ⟨h.on, fun other body hbody => h.markers other body (lookup_of_markers_erase hbody),
        h.lines, fun id hid => ?_⟩
      refine (h.owes id hid).erase name rfl rfl (fun _ hd => hd) ?_
      rintro rfl
      obtain ⟨written, hwritten⟩ := h.lines
      rw [hwritten, findReceipt_lines] at hfind
      obtain ⟨found, hmem, htxid⟩ := of_decide_eq_true (Except.ok.inj hfind)
      refine .line found (htxid.trans (h.txid_of_marker hbody hreceipt).1) ?_
      rw [State.setDisk, hwritten]
      exact List.mem_map_of_mem hmem
  | discard name body receipt _ hbody hreceipt =>
      refine ⟨h.on, fun other body hbody => h.markers other body (lookup_of_markers_erase hbody),
        h.lines, fun id hid => ?_⟩
      refine (h.owes id hid).erase name rfl rfl (fun _ hd => List.mem_append_left _ hd) ?_
      rintro rfl
      refine .discarded (List.mem_append_right _ (List.mem_singleton.mpr ?_))
      rw [(h.txid_of_marker hbody hreceipt).1, List.contains_iff_mem.mpr hid]
  | setAside name body e hbody he =>
      obtain ⟨receipt, -, rfl⟩ := h.markers name body hbody
      rw [markerBody, lib.codec.bodyReceipt_body] at he
      cases he
  | notice | adopt | append | appendFails | flush | adjust | seek | look | skip | take | requeue
  | confirm | abandon | send | halt | count | log | reread | checkpoint =>
      exact h.same h.on rfl rfl rfl rfl

/-- With receipts on, every anchor in the database has its receipt's marker or line, unless its
marker was discarded when the anchor was on disk and the process did not see it. -/
theorem receipts_stay_owed {env : Env} {w : World}
    (h : (service env fun config => config.receiptsOn = true).Reachable w)
    (hsaved : w.disk.db.holds (.txid id) = true) :
    (∃ receipt : Receipt, receipt.txid = id ∧
      w.disk.markers.lookup id = some (markerBody env.lib receipt)) ∨
    (∃ receipt : Receipt, receipt.txid = id ∧
      receiptLine env.lib receipt ∈ completeLines w.disk.receipts) ∨
    (id, true) ∈ w.history.discarded := by
  have howing : Owing env.lib w.toState :=
    reachable_of_moves (I := Owing env.lib) (fun _ => owing_initial) (fun _ _ => Owing.move) h
  obtain ⟨receipt, htxid, hbody⟩ | ⟨receipt, htxid,
    hline⟩ | hmem := howing.owes id (List.contains_iff_mem.mp hsaved)
  · exact .inl ⟨receipt, htxid, hbody⟩
  · exact .inr (.inl ⟨receipt, htxid, hline⟩)
  · exact .inr (.inr hmem)

/-- The anchor that was saved. -/
theorem saved_anchor_is_receipted :
    (∃ receipt : Receipt, receipt.txid = Rehearsal.anchorId ∧ Rehearsal.saved.disk.markers.lookup
          Rehearsal.anchorId = some (markerBody Rehearsal.lib receipt)) ∨
      (∃ receipt : Receipt, receipt.txid = Rehearsal.anchorId ∧
        receiptLine Rehearsal.lib receipt ∈ completeLines Rehearsal.saved.disk.receipts) ∨
      (Rehearsal.anchorId, true) ∈ Rehearsal.saved.history.discarded := by
  refine @receipts_stay_owed _ (Rehearsal.course.env Rehearsal.lib) _ ?_ (by decide +kernel)
  exact reachable_runEvents (by decide +kernel) fun config hconfig => by
    simp only [Rehearsal.events, List.mem_cons, Event.start.injEq, List.not_mem_nil,
      or_false, reduceCtorEq] at hconfig
    rw [hconfig]
    rfl

end Owed

end OtsServer.Service
