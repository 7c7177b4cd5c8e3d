import OtsServer.Service.Billing
import OtsServer.Service.Versions
import OtsServer.Service.Watermarks

/-!
# Billing only undercounts

Each move of the service keeps what the account says: that entries have one place, that what is
summed is covered by the leaves, and that the lines on file are bills of trees apart. So the records
that all receipts bill together are no more than the leaves that were counted in the rounds of their
entries.
-/

namespace OtsServer.Service

section Undercount

variable {lib : Lib} {allowed : Config → Prop} {s t : State} {bills : List Account.Bill}
  {height : Int} {confirmed : TimestampTx}

/-- What is assumed of a run: entries are pairwise distinct and none is under the database's own
prefix, an anchor has one tree, and none was anchored over the marker of one that had landed
unseen. -/
structure Sane (s : State) : Prop where
  metaFree : MetaFree s.disk.journal
  distinct : DistinctEntries s.disk.journal
  one : OneTree s.history.mined
  clear : NoOverlap s.history.overlapped

theorem Move.submitted (hm : Move lib allowed s t) :
    ∃ rounds, t.history.submitted = s.history.submitted ++ rounds := by
  cases hm with
  | stop _ _ _ hhist => exact ⟨[], by rw [hhist, List.append_nil]⟩
  | append | appendFails => exact ⟨_, rfl⟩
  | save height confirmed =>
      refine ⟨[], ?_⟩
      simp only [State.save, State.batched, State.setStamper, History.commit, List.append_nil]
      split <;> rfl
  | boot | requeue | land | tail | recover | adopt | confirm | flush | adjust | seek | look | skip
  | take | abandon | send | halt | count | log | reread | notice | mark | checkpoint | settle
  | discard | setAside =>
      exact ⟨[], (List.append_nil _).symm⟩

theorem Move.overlapped (hm : Move lib allowed s t) :
    ∃ more, t.history.overlapped = s.history.overlapped ++ more := by
  cases hm with
  | stop _ _ _ hhist => exact ⟨[], by rw [hhist, List.append_nil]⟩
  | notice | mark => exact ⟨_, rfl⟩
  | save height confirmed =>
      refine ⟨[], ?_⟩
      simp only [State.save, State.batched, State.setStamper, History.commit, List.append_nil]
      split <;> rfl
  | boot | requeue | land | tail | recover | adopt | confirm | flush | adjust | seek | look | skip
  | take | abandon | send | halt | count | log | reread | append | appendFails | checkpoint | settle
  | discard | setAside =>
      exact ⟨[], (List.append_nil _).symm⟩

theorem Move.later (hm : Move lib allowed s t) : s.account.Later t.account :=
  ⟨hm.journal, hm.submitted, hm.mined⟩

theorem Sane.before (h : Sane t) (hm : Move lib allowed s t) : Sane s := by
  obtain ⟨journal, hjournal⟩ := hm.journal
  obtain ⟨mined, hmined⟩ := hm.mined
  obtain ⟨overlapped, hoverlapped⟩ := hm.overlapped
  refine ⟨.of_append (hjournal ▸ h.metaFree), fun i j entry hi hj => ?_, fun m hm' m' hm'' => ?_,
    fun o ho => ?_⟩
  · apply h.distinct i j entry
    · rw [hjournal]
      exact journalEntry_append hi journal
    · rw [hjournal]
      exact journalEntry_append hj journal
  · apply h.one m _ m'
    · rw [hmined]
      exact List.mem_append_left _ hm''
    · rw [hmined]
      exact List.mem_append_left _ hm'
  · apply h.clear o
    rw [hoverlapped]
    exact List.mem_append_left _ ho

/-- What the history says of a marker is said of the account. -/
theorem clear_of_overlapping (h : overlapping lib confirmed s = false) :
    s.account.Clear lib confirmed := by
  intro m hm body hbody hne hid hheld e he he'
  rw [← Bool.not_eq_true] at h
  apply h
  have hkey : m.txid ∈ s.disk.markers.keys := AList.mem_keys.mp
    (AList.lookup_isSome.mp (Option.isSome_iff_exists.mpr ⟨body, hbody⟩))
  have hids : Key.txid m.txid ∈ s.disk.db.keys := hid
  have hhelds : Key.txid m.txid ∉ s.db.keys := hheld
  have hmined : m ∈ s.history.mined := hm
  rw [overlapping, List.any_eq_true]
  refine ⟨m.txid, hkey, ?_⟩
  simp only [Bool.and_eq_true, decide_eq_true_eq, Bool.not_eq_true', List.any_eq_true]
  refine ⟨⟨⟨hne, List.contains_iff_mem.mpr hids⟩, ?_⟩, m, hmined, rfl, e, he,
    List.contains_iff_mem.mpr he'⟩
  rw [← Bool.not_eq_true, List.contains_iff_mem]
  exact hhelds

theorem Move.receiptsOn (hm : Move lib (fun config => config.receiptsOn = true) s t)
    (h : s.running = true → s.stamper.config.receiptsOn = true) :
    t.running = true → t.stamper.config.receiptsOn = true := by
  cases hm with
  | boot config _ _ hallowed => exact fun _ => hallowed
  | stop _ hdown => exact fun hup => absurd (hdown.symm.trans hup) Bool.false_ne_true
  | save | requeue | land | tail | recover | adopt | confirm | flush | adjust | seek | look | skip
  | take | abandon | send | halt | count | log | reread | append | appendFails | checkpoint | settle
  | discard | setAside | notice | mark =>
      exact h

/-! ## The process -/

/-- What holds of the memory of a process. -/
def Live (lib : Lib) (s : State) : Prop :=
  s.running = true → s.account.Apart ∧ s.account.Covered lib

/-- A move that changes nothing that is counted. -/
theorem Live.same (h : Live lib s) (hup : t.running = true → s.running = true)
    (hlater : s.account.Later t.account) (hheld : t.db.keys = s.db.keys)
    (hpending : t.stamper.pendingCommitments = s.stamper.pendingCommitments)
    (hwaiting : t.stamper.txsWaitingForConfirmation = s.stamper.txsWaitingForConfirmation)
    (hversions : ∀ u ∈ t.stamper.unconfirmedTxs, u ∈ s.stamper.unconfirmedTxs)
    (hrecords : t.stamper.commitmentRecords = s.stamper.commitmentRecords)
    (hscan : s.stamper.scanIdx ≤ t.stamper.scanIdx) : Live lib t := by
  intro hrun
  obtain ⟨hapart, hcovered⟩ := h (hup hrun)
  refine ⟨hapart.same hpending hwaiting hheld hlater.journal hscan,
    hcovered.later hlater ?_ ?_ hversions ?_⟩
  · intro entry count hcount
    exact (congrArg (AList.lookup entry) hrecords).symm.trans hcount
  · rw [show t.account.pending = s.account.pending from hpending]
  · intro height tree htree
    exact (congrArg (AList.lookup height) hwaiting).symm.trans htree

/-- A process with nothing pending. -/
theorem Live.idle (hpending : t.stamper.pendingCommitments = [])
    (hwaiting : t.stamper.txsWaitingForConfirmation = ∅)
    (hversions : t.stamper.unconfirmedTxs = []) (hrecords : t.stamper.commitmentRecords = ∅) :
    Live lib t :=
  fun _ => ⟨.idle hpending hwaiting, .idle hrecords hversions hwaiting⟩

theorem live_take (h : Live lib s) (hsidecar : Sidecar s) (hsane : Sane s) {entry : Bytes}
    {count : Option Nat} (hentry : journalEntry s.disk.journal s.stamper.scanIdx = some entry)
    (hnew : s.db.holds (.commitment entry) = false) (hread : CountRead s s.stamper.scanIdx count) :
    Live lib (s.setStamper (Stamper.take entry count)) := by
  intro hup
  obtain ⟨hapart, hcovered⟩ := h hup
  have hheld : Key.commitment entry ∉ s.account.held := fun hin => by
    have hholds : s.db.holds (.commitment entry) = true := (hsane.metaFree.holds_iff hentry).mpr hin
    cases hnew.symm.trans hholds
  have hgrown : s.account.pending <+: addPending s.account.pending entry := by
    rw [addPending]
    split_ifs
    · exact List.prefix_rfl
    · exact List.prefix_append _ _
  refine ⟨hapart.take hsane.distinct hentry hheld _, ?_⟩
  cases count with
  | none =>
      exact hcovered.later (.of_eq rfl rfl rfl) (fun _ _ hcount => hcount) hgrown
        (fun _ hu => hu) fun _ _ htree => htree
  | some count =>
      have hknown := hcovered.know (hsidecar.count_le hread hentry)
      exact hknown.later (.of_eq rfl rfl rfl) (fun _ _ hcount => hcount) hgrown
        (fun _ hu => hu) fun _ _ htree => htree

theorem live_save (h : Live lib s)
    (htree : s.stamper.txsWaitingForConfirmation.lookup height = some confirmed)
    (receipts : Bytes) (markers : AList fun _ : Bytes => Bytes)
    (hlater : s.account.Later (s.save lib height confirmed receipts markers).account) :
    Live lib (s.save lib height confirmed receipts markers) := by
  intro hup
  obtain ⟨hapart, hcovered⟩ := h hup
  constructor
  · have hkeys : ∀ e, Key.commitment e ∈ savedKeys lib confirmed → e ∈ confirmed.commitments := by
      intro e he
      obtain heq | hmem := List.mem_cons.mp he
      · cases heq
      · obtain ⟨c, hc, heq⟩ := List.mem_map.mp hmem
        obtain rfl := Key.commitment.inj heq
        exact hc
    have hsaved := hapart.save htree hkeys (completeLines receipts) markers
      (s.disk.db.keys ++ savedKeys lib confirmed)
      (confirmed.commitments.foldl (fun m c => m.erase c) s.stamper.commitmentRecords)
    exact hsaved.same rfl rfl rfl ⟨[], (List.append_nil _).symm⟩ le_rfl
  · refine hcovered.later hlater (fun entry count hcount => ?_) List.prefix_rfl (fun _ hu => hu)
      fun _ _ => lookup_of_lookup_erase
    have herased :=
      (lookup_foldl_erase confirmed.commitments s.stamper.commitmentRecords).symm.trans hcount
    split_ifs at herased
    exact herased

theorem Live.move (h : Live lib s) (hledger : s.books.Ledger) (hsidecar : Sidecar s)
    (hsane : Sane s) (hm : Move lib allowed s t) : Live lib t := by
  have hlater := hm.later
  cases hm with
  | boot => exact .idle rfl rfl rfl rfl
  | stop _ hdown => exact fun hup => absurd (hdown.symm.trans hup) Bool.false_ne_true
  | seek config next idx hfresh =>
      apply Live.idle <;> simp only [State.setStamper, hfresh, Stamper.fresh]
  | take commitment count hentry hnew hread => exact live_take h hsidecar hsane hentry hnew hread
  | requeue height reorged htree =>
      intro hup
      obtain ⟨hapart, hcovered⟩ := h hup
      exact ⟨hapart.requeue htree, hcovered.later hlater (fun _ _ hcount => hcount)
        (prefix_foldl_addPending _ _) (fun _ hu => hu) fun _ _ => lookup_of_lookup_erase⟩
  | confirm height hash u hu hfree =>
      intro hup
      obtain ⟨hapart, hcovered⟩ := h hup
      have htree : (minedTree s.stamper height u).commitments = s.account.pending.take u.n := rfl
      exact ⟨hapart.confirm u.n hfree htree _, hcovered.confirm hu _ rfl rfl htree⟩
  | reread commitment idx count hidx hread =>
      intro hup
      obtain ⟨hapart, hcovered⟩ := h hup
      have hentry := ((hledger.live hup).index commitment idx hidx).2
      exact ⟨hapart.same rfl rfl rfl hlater.journal le_rfl,
        hcovered.know (hsidecar.count_le hread hentry)⟩
  | send u _ hn hrecords =>
      intro hup
      obtain ⟨hapart, hcovered⟩ := h hup
      exact ⟨hapart.same rfl rfl rfl hlater.journal le_rfl, hcovered.send hn hrecords⟩
  | abandon =>
      exact h.same id hlater rfl rfl rfl (fun _ hu => absurd hu List.not_mem_nil) rfl le_rfl
  | skip => exact h.same id hlater rfl rfl rfl (fun _ hu => hu) rfl (Nat.le_succ _)
  | save height confirmed receipts markers _ htree =>
      exact live_save h htree receipts markers hlater
  | adopt | append | appendFails | flush | adjust | look | halt | count | log | notice | mark | land
  | checkpoint | tail | recover | settle | discard | setAside =>
      exact h.same id hlater rfl rfl rfl (fun _ hu => hu) rfl le_rfl

/-! ## The bills -/

/-- The lines on file are bills. -/
def Bills (lib : Lib) (s : State) : Prop := ∃ bills, s.account.Billed lib bills

/-- A move that saves, finds and marks nothing. -/
theorem Bills.same (h : Bills lib s) (hlater : s.account.Later t.account)
    (hlines : completeLines t.disk.receipts = completeLines s.disk.receipts) (hmarkers :
      ∀ name body, t.disk.markers.lookup name = some body → s.disk.markers.lookup name = some body)
    (hdurable : t.disk.db.keys = s.disk.db.keys) (hmined : t.history.mined = s.history.mined)
    (hup : t.running = true → s.running = true ∧ t.db.keys = s.db.keys) : Bills lib t := by
  obtain ⟨bills, hbills⟩ := h
  exact ⟨bills, hbills.same hlater hlines hmarkers hdurable hmined hup⟩

/-- A tree that waits may be saved. -/
theorem ready_of_waiting (hbills : s.account.Billed lib bills)
    (hlive : Live lib s) (hsane : Sane s) (hup : s.running = true)
    (htree : s.stamper.txsWaitingForConfirmation.lookup height = some confirmed)
    (hclear : overlapping lib confirmed s = false) : s.account.Ready lib bills confirmed :=
  hbills.ready hup (hlive hup).1 (hlive hup).2 hsane.one htree (clear_of_overlapping hclear)

theorem MayLand.clear {receipt : Receipt} (h : MayLand lib s confirmed receipt) (hsane : Sane s) :
    overlapping lib confirmed s = false :=
  hsane.clear _ h.overlapped

theorem bills_mark (h : Bills lib s) (hlive : Live lib s) (hsane : Sane s) (hup : s.running = true)
    (htree : s.stamper.txsWaitingForConfirmation.lookup height = some confirmed)
    (hclear : overlapping lib confirmed s = false)
    {receipt : Receipt} (hreceipt : IsReceiptOf lib confirmed receipt)
    (hlater : s.account.Later t.account) (hlines : t.disk.receipts = s.disk.receipts)
    (hmarkers : t.disk.markers = s.disk.markers.insert receipt.txid (markerBody lib receipt))
    (hdurable : t.disk.db = s.disk.db) (hmined : t.history.mined = s.history.mined)
    (hheld : t.db = s.db) : Bills lib t := by
  obtain ⟨bills, hbills⟩ := h
  obtain ⟨hapart, hcovered⟩ := hlive hup
  have hready := ready_of_waiting hbills hlive hsane hup htree hclear
  obtain ⟨found, hbill, -⟩ := Account.billOf_waiting hapart hcovered htree hreceipt
  refine ⟨bills, (hbills.mark hready hbill hreceipt.txid).same ⟨hlater.journal, hlater.submitted,
    hlater.mined⟩ ?_ ?_ ?_ hmined ?_⟩
  · exact congrArg completeLines hlines
  · intro name body hbody
    exact (congrArg (AList.lookup name) hmarkers).symm.trans hbody
  · exact congrArg Db.keys hdurable
  · exact fun _ => ⟨hup, congrArg Db.keys hheld⟩

theorem bills_save (h : Bills lib s) (hlive : Live lib s) (hsane : Sane s)
    (hon : s.stamper.config.receiptsOn = true) (hup : s.running = true)
    (htree : s.stamper.txsWaitingForConfirmation.lookup height = some confirmed) {receipts : Bytes}
    {markers : AList fun _ : Bytes => Bytes}
    (hout : ReceiptOutcome lib s confirmed receipts markers)
    (hlater : s.account.Later (s.save lib height confirmed receipts markers).account) :
    Bills lib (s.save lib height confirmed receipts markers) := by
  obtain ⟨bills, hbills⟩ := h
  obtain ⟨hapart, hcovered⟩ := hlive hup
  have hmined : (s.save lib height confirmed receipts markers).history.mined = s.history.mined := by
    simp only [State.save, State.batched, State.setStamper, History.commit]
    split <;> rfl
  -- the keys of the tree, on disk and seen
  have hseen : ∀ receipt, MayLand lib s confirmed receipt →
      { s.account with
        durable := s.account.durable ++ savedKeys lib confirmed, held :=
            s.account.held ++ savedKeys lib confirmed }.Billed lib bills := by
    intro receipt hmay
    have hready := ready_of_waiting hbills hlive hsane hup htree (hmay.clear hsane)
    exact (hbills.land hready).see ⟨hready.found, hready.its, fun m hm hne => by
      rintro (hmarker | hline) hid
      · exact hready.fresh m hm hne (.inl hmarker)
          ((List.mem_append.mp hid).resolve_right fun hin => hne (mem_savedKeys hin))
      · exact hready.fresh m hm hne (.inr hline) ((List.mem_append.mp hid).resolve_right fun hin =>
            hne (mem_savedKeys hin))⟩
      fun k hk => List.mem_append_right _ hk
  -- and the line of its receipt
  have hwritten : ∀ receipt, MayLand lib s confirmed receipt →
    completeLines receipts = completeLines s.disk.receipts ++ [receiptLine lib receipt] →
      (∀ name body, markers.lookup name = some body → s.disk.markers.lookup name = some body) →
      Bills lib (s.save lib height confirmed receipts markers) := by
    intro receipt hmay hlines hmarkers
    obtain ⟨found, hbill, hcommitments⟩ :=
      Account.billOf_waiting hapart hcovered htree hmay.isReceipt
    have hkey : Key.txid receipt.txid ∈ savedKeys lib confirmed := by
      rw [hmay.isReceipt.txid]
      exact List.mem_cons_self
    have hdisjoint : ∀ b ∈ bills, b.found.commitments.Disjoint found.commitments := by
      rw [hcommitments]
      exact hbills.off_file hup hapart htree
    have hline := (hseen receipt hmay).line (hbill.later (.of_eq rfl rfl rfl)) hmay.marker
      (List.mem_append_right _ hkey) (fun _ => List.mem_append_right _ hkey) hdisjoint
    exact ⟨_, hline.same ⟨hlater.journal, hlater.submitted, hlater.mined⟩ hlines
      hmarkers rfl hmined fun _ => ⟨hup, rfl⟩⟩
  cases hout with
  | off hoff => exact absurd (hoff.symm.trans hon) Bool.false_ne_true
  | owed receipt file _ hmay hlines =>
      exact ⟨bills, (hseen receipt hmay).same ⟨hlater.journal, hlater.submitted,
        hlater.mined⟩ hlines (fun _ _ hbody => hbody) rfl hmined fun _ => ⟨hup, rfl⟩⟩
  | written receipt file _ hmay hlines => exact hwritten receipt hmay hlines fun _ _ hbody => hbody
  | settled receipt file _ hmay hlines =>
      exact hwritten receipt hmay hlines fun _ _ => lookup_of_markers_erase

theorem bills_recover (h : Bills lib s) (hup : s.running = true) {name body receipts : Bytes}
    {receipt : Receipt} (hbody : s.disk.markers.lookup name = some body)
    (hreceipt : lib.codec.bodyReceipt body = .ok receipt)
    (hheld : s.db.holds (.txid receipt.txid) = true)
    (hfind : findReceipt lib.codec receipt.txid (completeLines s.disk.receipts) = .ok false)
    (hlines : completeLines receipts = completeLines s.disk.receipts ++ [receiptLine lib receipt]) :
    Bills lib (s.setDisk fun disk => { disk with receipts := receipts }) := by
  obtain ⟨bills, hbills⟩ := h
  obtain ⟨written, -, hwritten, hname, -⟩ := hbills.markers name body hbody
  rw [hwritten, markerBody, lib.codec.bodyReceipt_body] at hreceipt
  obtain rfl : written = receipt := Except.ok.inj hreceipt
  subst hname hwritten
  have hfile : completeLines s.disk.receipts = (bills.map (·.receipt)).map (receiptLine lib) := by
    rw [List.map_map]
    exact hbills.lines
  have hnew : ∀ b ∈ bills, b.receipt.txid ≠ written.txid := by
    intro b hb htxid
    rw [hfile, findReceipt_lines] at hfind
    exact of_decide_eq_false (Except.ok.inj hfind) ⟨b.receipt, List.mem_map_of_mem hb, htxid⟩
  obtain ⟨found, hline⟩ := hbills.recover hup hbody (List.contains_iff_mem.mp hheld) hnew
  exact ⟨_, hline.same (.of_eq rfl rfl rfl) hlines (fun _ _ hbody => hbody) rfl rfl fun hrun =>
    ⟨hrun, rfl⟩⟩

theorem Bills.move (h : Bills lib s) (hlive : Live lib s) (hsane : Sane t)
    (hon : s.running = true → s.stamper.config.receiptsOn = true)
    (hm : Move lib allowed s t) : Bills lib t := by
  have hlater := hm.later
  have hbefore := hsane.before hm
  cases hm with
  | boot config =>
      obtain ⟨bills, hbills⟩ := h
      exact ⟨bills, hbills.boot rfl hlater rfl rfl rfl rfl⟩
  | stop _ hdown hdisk hhist =>
      exact h.same hlater (by rw [hdisk]) (fun _ _ hbody => by rwa [hdisk] at hbody)
        (by rw [hdisk]) (by rw [hhist]) fun hup => absurd (hdown.symm.trans hup) Bool.false_ne_true
  | confirm height hash u =>
      obtain ⟨bills, hbills⟩ := h
      have hfound := hbills.confirm _ hsane.one
      exact ⟨bills, hfound.same (.of_eq rfl rfl rfl) rfl
        (fun _ _ hbody => hbody) rfl rfl fun hrun => ⟨hrun, rfl⟩⟩
  | mark height confirmed receipt hup htree hreceipt =>
      have hclear : overlapping lib confirmed s = false :=
        hsane.clear _ (List.mem_append_right _ (List.mem_singleton_self _))
      exact bills_mark h hlive hbefore hup htree hclear hreceipt hlater rfl rfl rfl rfl rfl
  | land height confirmed hup htree hmay =>
      obtain ⟨bills, hbills⟩ := h
      obtain ⟨receipt, hmay⟩ := hmay (hon hup)
      have hland := hbills.land
        (ready_of_waiting hbills hlive hbefore hup htree (hmay.clear hbefore))
      exact ⟨bills, hland.same (.of_eq rfl rfl rfl) rfl (fun _ _ hbody => hbody) rfl rfl fun hrun =>
        ⟨hrun, rfl⟩⟩
  | save height confirmed receipts markers hup htree hout =>
      exact bills_save h hlive hbefore (hon hup) hup htree hout hlater
  | tail receipts hlines =>
      exact h.same hlater hlines (fun _ _ hbody => hbody) rfl rfl fun hrun => ⟨hrun, rfl⟩
  | recover name body receipt receipts hup hbody hreceipt hheld hfind hlines =>
      exact bills_recover h hup hbody hreceipt hheld hfind hlines
  | settle | discard | setAside =>
      exact h.same hlater rfl (fun _ _ => lookup_of_markers_erase) rfl rfl fun hrun => ⟨hrun, rfl⟩
  | adopt | append | appendFails | flush | count | adjust | log | seek | look | skip | take
  | requeue | abandon | reread | send | notice | halt | checkpoint =>
      exact h.same hlater rfl (fun _ _ hbody => hbody) rfl rfl fun hrun => ⟨hrun, rfl⟩

/-! ## Whole runs -/

/-- What holds in every state of a run with receipts on. -/
structure Charged (lib : Lib) (s : State) : Prop where
  ledger : s.books.Ledger
  sidecar : Sidecar s
  on : s.running = true → s.stamper.config.receiptsOn = true
  charged : Sane s → Live lib s ∧ Bills lib s

theorem charged_initial (h : Initial s) : Charged lib s where
  ledger := ledger_initial h
  sidecar := sidecar_initial h
  on hup := absurd (h.down.symm.trans hup) Bool.false_ne_true
  charged _ := by
    refine ⟨fun hup => absurd (h.down.symm.trans hup) Bool.false_ne_true, [], ?_⟩
    have hdisk : s.disk = Disk.empty := h.disk
    have hkeys : s.account.durable = [] := congrArg (fun disk : Disk => disk.db.keys) hdisk
    have hmarkers : s.account.markers = ∅ := congrArg Disk.markers hdisk
    have hdown : s.account.up ≠ true := fun hup => absurd (h.down.symm.trans hup) Bool.false_ne_true
    refine ⟨congrArg (fun disk : Disk => completeLines disk.receipts) hdisk,
      fun b hb => absurd hb List.not_mem_nil, fun b hb => absurd hb List.not_mem_nil,
      List.nodup_nil, fun name body hbody => ?_, fun id hid => ?_, fun m _ hid => ?_,
      fun hup => absurd hup hdown, fun hup => absurd hup hdown, fun m _ m' _ _ _ _ hid => ?_⟩
    · rw [hmarkers, AList.lookup_empty] at hbody
      cases hbody
    · rw [hkeys] at hid
      exact absurd hid List.not_mem_nil
    · rw [hkeys] at hid
      exact absurd hid List.not_mem_nil
    · rw [hkeys] at hid
      exact absurd hid List.not_mem_nil

theorem Charged.move (h : Charged lib s)
    (hm : Move lib (fun config => config.receiptsOn = true) s t) : Charged lib t where
  ledger := h.ledger.move hm
  sidecar := h.sidecar.move hm
  on := hm.receiptsOn h.on
  charged hsane := by
    have hbefore := hsane.before hm
    obtain ⟨hlive, hbills⟩ := h.charged hbefore
    exact ⟨hlive.move h.ledger h.sidecar hbefore hm, hbills.move hlive hsane h.on hm⟩

/-- What all bills together bill. -/
theorem records_le_leavesOfAll {submitted : List (Bytes × Nat)}
    (h : ∀ b ∈ bills, b.receipt.records ≤ leavesOfAll submitted b.found.commitments) :
    (bills.map fun b => b.receipt.records).sum ≤
      leavesOfAll submitted (bills.flatMap fun b => b.found.commitments) := by
  induction bills with
  | nil => exact Nat.zero_le _
  | cons b bills ih =>
      rw [List.map_cons, List.sum_cons, List.flatMap_cons, Account.leavesOfAll_append]
      apply Nat.add_le_add
      · exact h b List.mem_cons_self
      · exact ih fun b' hb' => h b' (List.mem_cons_of_mem _ hb')

/-- With receipts on, the complete lines are receipts of trees that were found, no entry is in two
of them, and together they bill no more than the leaves that were counted in the rounds of their
entries, nor than all that were counted. -/
theorem receipts_undercount {env : Env} {w : World}
    (h : (service env fun config => config.receiptsOn = true).Reachable w)
    (hmeta : MetaFree w.disk.journal) (hdistinct : DistinctEntries w.disk.journal)
    (hone : OneTree w.history.mined) (hclear : NoOverlap w.history.overlapped) :
    ∃ bills : List Account.Bill,
      completeLines w.disk.receipts = bills.map (fun b => receiptLine env.lib b.receipt) ∧
      (∀ b ∈ bills, w.account.BillOf b.receipt b.found) ∧
      (bills.flatMap fun b => b.found.commitments).Nodup ∧
      (bills.map fun b => b.receipt.records).sum ≤
        leavesOfAll w.history.submitted (bills.flatMap fun b => b.found.commitments) ∧
      (bills.map fun b => b.receipt.records).sum ≤ (w.history.submitted.map (·.2)).sum := by
  have hcharged : Charged env.lib w.toState :=
    reachable_of_moves (I := Charged env.lib) (fun _ => charged_initial) (fun _ _ => Charged.move) h
  obtain ⟨-, bills, hbills⟩ := hcharged.charged ⟨hmeta, hdistinct, hone, hclear⟩
  have hsum := records_le_leavesOfAll fun b hb => (hbills.bill b hb).records
  exact ⟨bills, hbills.lines, hbills.bill, hbills.once, hsum,
    hsum.trans (Account.leavesOfAll_le hbills.once)⟩

/-- The receipt of the anchor that was saved. -/
theorem saved_receipt_undercounts :
    ∃ bills : List Account.Bill, completeLines Rehearsal.saved.disk.receipts =
        bills.map (fun b => receiptLine Rehearsal.lib b.receipt) ∧
      (∀ b ∈ bills, Rehearsal.saved.account.BillOf b.receipt b.found) ∧
      (bills.flatMap fun b => b.found.commitments).Nodup ∧
      (bills.map fun b => b.receipt.records).sum ≤
        leavesOfAll Rehearsal.saved.history.submitted (bills.flatMap fun b => b.found.commitments) ∧
      (bills.map fun b => b.receipt.records).sum ≤
        (Rehearsal.saved.history.submitted.map (·.2)).sum := by
  refine @receipts_undercount (Rehearsal.course.env Rehearsal.lib) _ ?_ (by decide +kernel)
    (by decide +kernel) (by decide +kernel) (by decide +kernel)
  exact reachable_runEvents (by decide +kernel) fun config hconfig => by
    simp only [Rehearsal.events, List.mem_cons, Event.start.injEq, List.not_mem_nil,
      or_false, reduceCtorEq] at hconfig
    rw [hconfig]
    rfl

end Undercount

end OtsServer.Service
