import OtsServer.Watch.Orderly

/-!
# The recorded queue is exact across stops

Here writes happen whole or the process stops, and every run has a server to deliver to. The
messages of a recorded transition are delivered, queued once, counted as dropped, or they
stood in an outbox that was spoiled; what a record has dropped does not come back; and what is
delivered or queued keeps the order of the records. This is said of the messages of
transitions. A recovery notice in the outbox is put behind the recorded queue again, even when
the record has just dropped it.
-/

namespace OtsServer.Watch

variable {S : Type}

/-! ## What was recorded, delivered and dropped -/

/-- The messages of the recorded transitions, in the order they were recorded. -/
def recordedIds : List Event → List Nat
  | [] => []
  | .recorded new _ _ :: before => recordedIds before ++ new
  | _ :: before => recordedIds before

/-- The messages that the server took, in order. -/
def deliveredIds : List Event → List Nat
  | [] => []
  | .sent id true :: before => deliveredIds before ++ [id]
  | _ :: before => deliveredIds before

def Dropped (events : List Event) (id : Nat) : Prop :=
  ∃ new lost notice, .recorded new lost notice ∈ events ∧ id ∈ lost

/-- Dropped by a record whose notice counts it, in a total of as many messages as it counts. -/
def Counted (events : List Event) (id : Nat) : Prop :=
  ∃ new lost total counted, .recorded new lost (some (total, counted)) ∈ events ∧
    id ∈ lost ∧ id ∈ counted ∧ total = counted.length

def Spoiled (events : List Event) (id : Nat) : Prop := ∃ queue, .spoiled queue ∈ events ∧ id ∈ queue

/-- Of these messages, those of recorded transitions. -/
def ofTransitions (events : List Event) (messages : List Nat) : List Nat :=
  messages.filter fun id => id ∈ recordedIds events

/-- What has become of a message of a recorded transition. -/
def Accounted (events : List Event) (queue : List Nat) (id : Nat) : Prop :=
  id ∈ deliveredIds events ∨ id ∈ queue ∨ Counted events id ∨ Spoiled events id

/-- No message of a transition is sent after a record has dropped it. -/
def NotRevived (events : List Event) : Prop :=
  ∀ id taken before, .sent id taken :: before <:+ events → id ∈ recordedIds before →
    ¬ Dropped before id

section Events

variable {e : Event} {events : List Event} {id : Nat}

theorem recordedIds_of_ne (h : ∀ new lost notice, e ≠ .recorded new lost notice) :
    recordedIds (e :: events) = recordedIds events := by
  cases e with
  | recorded new lost notice => exact absurd rfl (h new lost notice)
  | _ => rfl

theorem dropped_of_ne (h : ∀ new lost notice, e ≠ .recorded new lost notice) :
    Dropped (e :: events) id ↔ Dropped events id := by
  refine ⟨fun ⟨new, lost, notice, hmem, hid⟩ => ?_, fun ⟨new, lost, notice, hmem, hid⟩ =>
    ⟨new, lost, notice, List.mem_cons_of_mem _ hmem, hid⟩⟩
  exact ⟨new, lost, notice, (List.mem_cons.mp hmem).resolve_left (Ne.symm (h new lost notice)), hid⟩

theorem dropped_recorded {new lost : List Nat} {notice : Option (Nat × List Nat)} :
    Dropped (.recorded new lost notice :: events) id ↔ id ∈ lost ∨ Dropped events id := by
  constructor
  · rintro ⟨new', lost', notice', hmem, hid⟩
    obtain heq | hmem := List.mem_cons.mp hmem
    · obtain ⟨rfl, rfl, rfl⟩ := Event.recorded.inj heq
      exact .inl hid
    · exact .inr ⟨new', lost', notice', hmem, hid⟩
  · rintro (hid | ⟨new', lost', notice', hmem, hid⟩)
    · exact ⟨new, lost, notice, List.mem_cons_self .., hid⟩
    · exact ⟨new', lost', notice', List.mem_cons_of_mem _ hmem, hid⟩

theorem deliveredIds_of_ne (h : ∀ id, e ≠ .sent id true) :
    deliveredIds (e :: events) = deliveredIds events := by
  cases e with
  | sent id taken =>
      cases taken with
      | true => exact absurd rfl (h id)
      | false => rfl
  | _ => rfl

theorem mem_deliveredIds : id ∈ deliveredIds events ↔ .sent id true ∈ events := by
  induction events with
  | nil => simp [deliveredIds]
  | cons e events ih =>
      by_cases he : ∃ id', e = .sent id' true
      · obtain ⟨id', rfl⟩ := he
        simp [deliveredIds, ih, or_comm]
      · have hne : ∀ id', e ≠ .sent id' true := fun id' heq => he ⟨id', heq⟩
        rw [deliveredIds_of_ne hne, ih, List.mem_cons, or_iff_right (Ne.symm (hne id))]

/-- What has become of a message stays so when more is noted. -/
theorem Accounted.cons {queue queue' : List Nat} (h : Accounted events queue id)
    (hqueue : id ∈ queue → Accounted (e :: events) queue' id) :
    Accounted (e :: events) queue' id := by
  obtain h | h | ⟨new, lost, total, counted, hmem, h⟩ | ⟨spoiled, hmem, h⟩ := h
  · exact .inl (mem_deliveredIds.mpr (List.mem_cons_of_mem _ (mem_deliveredIds.mp h)))
  · exact hqueue h
  · exact .inr (.inr (.inl ⟨new, lost, total, counted, List.mem_cons_of_mem _ hmem, h⟩))
  · exact .inr (.inr (.inr ⟨spoiled, List.mem_cons_of_mem _ hmem, h⟩))

theorem notRevived_cons :
    NotRevived (e :: events) ↔
    (∀ id taken, e = .sent id taken → id ∈ recordedIds events → ¬ Dropped events id) ∧
      NotRevived events := by
  constructor
  · refine fun h =>
      ⟨?_, fun id taken before hsuffix => h id taken before (hsuffix.trans (List.suffix_cons ..))⟩
    rintro id taken rfl
    exact h id taken events (List.suffix_refl _)
  · rintro ⟨hhead, htail⟩ id taken before hsuffix
    obtain heq | hsuffix := List.suffix_cons_iff.mp hsuffix
    · obtain ⟨rfl, rfl⟩ := List.cons.inj heq
      exact hhead id taken rfl
    · exact htail id taken before hsuffix

end Events

/-! ## The tally -/

/-- What holds of what was noted and of the messages of transitions that stand where the queue
is. -/
structure Tally (events : List Event) (queue : List Nat) : Prop where
  ordered : (recordedIds events).Pairwise (· < ·)
  accounted : ∀ id ∈ recordedIds events, Accounted events queue id
  dropped : ∀ id ∈ queue, ¬ Dropped events id
  notRevived : NotRevived events
  order : (ofTransitions events (deliveredIds events) ++ queue).Pairwise (· ≤ ·)

section Tally

variable {events : List Event} {queue : List Nat}

theorem mem_ofTransitions {messages : List Nat} {id : Nat} :
    id ∈ ofTransitions events messages ↔ id ∈ messages ∧ id ∈ recordedIds events := by
  rw [ofTransitions, List.mem_filter, decide_eq_true_iff]

theorem ofTransitions_append (a b : List Nat) :
    ofTransitions events (a ++ b) = ofTransitions events a ++ ofTransitions events b :=
  List.filter_append ..

/-- A note about neither records, deliveries nor the outbox's bytes. -/
theorem Tally.quiet (h : Tally events queue) {e : Event}
    (hrecorded : ∀ new lost notice, e ≠ .recorded new lost notice)
    (hsent : ∀ id taken, e ≠ .sent id taken) : Tally (e :: events) queue where
  ordered := by
    rw [recordedIds_of_ne hrecorded]
    exact h.ordered
  accounted id hid := by
    rw [recordedIds_of_ne hrecorded] at hid
    exact (h.accounted id hid).cons fun hqueue => .inr (.inl hqueue)
  dropped id hid := (dropped_of_ne hrecorded).not.mpr (h.dropped id hid)
  notRevived := notRevived_cons.mpr ⟨fun id taken heq => absurd heq (hsent id taken), h.notRevived⟩
  order := by
    rw [deliveredIds_of_ne fun id => hsent id true, ofTransitions, recordedIds_of_ne hrecorded]
    exact h.order

/-- The head of the queue is sent. -/
theorem Tally.sent (h : Tally events queue) {id : Nat}
    (hhead : id ∈ recordedIds events → ∃ rest, queue = id :: rest) (taken : Bool) :
    Tally (.sent id taken :: events) queue where
  ordered := h.ordered
  accounted id' hid := (h.accounted id' hid).cons fun hqueue => .inr (.inl hqueue)
  dropped id' hid := (dropped_of_ne fun _ _ _ => Event.noConfusion).not.mpr (h.dropped id' hid)
  notRevived := by
    refine notRevived_cons.mpr ⟨?_, h.notRevived⟩
    rintro id' taken' heq hrecorded
    obtain ⟨rfl, _⟩ := Event.sent.inj heq
    obtain ⟨rest, hqueue⟩ := hhead hrecorded
    exact h.dropped id (hqueue ▸ List.mem_cons_self ..)
  order := by
    cases taken with
    | false => exact h.order
    | true =>
        change (ofTransitions events (deliveredIds events ++ [id]) ++ queue).Pairwise (· ≤ ·)
        rw [ofTransitions_append]
        by_cases hrecorded : id ∈ recordedIds events
        · obtain ⟨rest, rfl⟩ := hhead hrecorded
          have hid : ofTransitions events [id] = [id] := List.filter_eq_self.mpr fun x hx => by
            rw [List.mem_singleton.mp hx]
            exact decide_eq_true hrecorded
          rw [hid, List.append_assoc]
          obtain ⟨hdelivered, hqueue, hle⟩ := List.pairwise_append.mp h.order
          refine List.pairwise_append.mpr ⟨hdelivered, ?_, fun a ha b hb => ?_⟩
          · refine List.pairwise_cons.mpr ⟨fun b hb => ?_, hqueue⟩
            obtain rfl | hb := List.mem_cons.mp hb
            · exact le_refl _
            · exact (List.pairwise_cons.mp hqueue).1 b hb
          · obtain rfl | hb := List.mem_cons.mp hb
            · exact hle a ha _ (List.mem_cons_self ..)
            · exact hle a ha b hb
        · have hid : ofTransitions events [id] = [] := List.filter_eq_nil_iff.mpr fun x hx => by
            rw [List.mem_singleton.mp hx]
            simpa using hrecorded
          rw [hid, List.append_nil]
          exact h.order

/-- The head of the queue, delivered, leaves it. -/
theorem Tally.pop {id : Nat} (h : Tally events (id :: queue)) (hid : id ∈ deliveredIds events) :
    Tally events queue where
  ordered := h.ordered
  accounted id' hid' := by
    obtain h | h | h := h.accounted id' hid'
    · exact .inl h
    · obtain rfl | h := List.mem_cons.mp h
      · exact .inl hid
      · exact .inr (.inl h)
    · exact .inr (.inr h)
  dropped id' hid' := h.dropped id' (List.mem_cons_of_mem _ hid')
  notRevived := h.notRevived
  order := h.order.sublist (List.Sublist.append_left (List.sublist_cons_self ..) _)

/-- The queue is spoiled, or nothing but what stood in the outbox besides it. -/
theorem Tally.spoiled (h : Tally events queue) {spoiled queue' : List Nat}
    (hsub : queue'.Sublist queue) (hall : ∀ id ∈ queue, id ∈ queue' ∨ id ∈ spoiled) :
    Tally (.spoiled spoiled :: events) queue' where
  ordered := h.ordered
  accounted id hid := (h.accounted id hid).cons fun hqueue => by
    obtain hqueue | hspoiled := hall id hqueue
    · exact .inr (.inl hqueue)
    · exact .inr (.inr (.inr ⟨spoiled, List.mem_cons_self .., hspoiled⟩))
  dropped id hid :=
    (dropped_of_ne fun _ _ _ => Event.noConfusion).not.mpr (h.dropped id (hsub.subset hid))
  notRevived := notRevived_cons.mpr ⟨fun _ _ heq => (nomatch heq), h.notRevived⟩
  order := h.order.sublist (List.Sublist.append_left hsub _)

/-- A record is written: of the queue and the new messages some are dropped, and counted. -/
theorem Tally.record (h : Tally events queue) {new lost prepared : List Nat}
    {notice : Option (Nat × List Nat)} {fresh : Nat} (hold : ∀ id, id ∈ recordedIds events ∨
      id ∈ deliveredIds events ∨ Dropped events id → id < fresh) (hnew : new.Pairwise (· < ·))
    (hfresh : ∀ id ∈ new, fresh ≤ id) (hqueue : ∀ id ∈ queue, id < fresh)
    (hsub : prepared.Sublist (queue ++ new)) (hlost : ∀ id ∈ prepared, id ∉ lost)
    (hall : ∀ id ∈ queue ++ new, id ∈ prepared ∨ Counted (.recorded new lost notice :: events) id) :
    Tally (.recorded new lost notice :: events) prepared where
  ordered := by
    refine List.pairwise_append.mpr ⟨h.ordered, hnew, fun a ha b hb => ?_⟩
    exact (hold a (.inl ha)).trans_le (hfresh b hb)
  accounted id hid := by
    obtain hid | hid := List.mem_append.mp hid
    · refine (h.accounted id hid).cons fun hmem => ?_
      exact .inr ((hall id (List.mem_append_left _ hmem)).imp_right .inl)
    · exact .inr ((hall id (List.mem_append_right _ hid)).imp_right .inl)
  dropped id hid := by
    rw [dropped_recorded]
    rintro (hmem | hdropped)
    · exact hlost id hid hmem
    · obtain hq | hn := List.mem_append.mp (hsub.subset hid)
      · exact h.dropped id hq hdropped
      · exact absurd (hold id (.inr (.inr hdropped))) (Nat.not_lt.mpr (hfresh id hn))
  notRevived := notRevived_cons.mpr ⟨fun _ _ heq => (nomatch heq), h.notRevived⟩
  order := by
    have hdelivered : ofTransitions (.recorded new lost notice :: events) (deliveredIds events) =
        ofTransitions events (deliveredIds events) := by
      refine List.filter_congr fun id hid => decide_eq_decide.mpr ?_
      rw [recordedIds, List.mem_append, or_iff_left fun hmem =>
        absurd (hold id (.inr (.inl hid))) (Nat.not_lt.mpr (hfresh id hmem))]
    change (ofTransitions (.recorded new lost notice :: events) (deliveredIds events) ++
        prepared).Pairwise _
    rw [hdelivered]
    refine List.Pairwise.sublist (List.Sublist.append_left hsub _) ?_
    rw [← List.append_assoc]
    refine List.pairwise_append.mpr ⟨h.order, hnew.imp le_of_lt, fun a ha b hb => ?_⟩
    have ha : a < fresh := by
      obtain ha | ha := List.mem_append.mp ha
      · exact hold a (.inl (mem_ofTransitions.mp ha).2)
      · exact hqueue a ha
    exact (ha.trans_le (hfresh b hb)).le

end Tally

/-! ## The desk -/

/-- The messages of transitions that stand where the queue is. -/
def Desk.transitions (d : Desk S) : List Nat := ofTransitions d.events (ids d.queue)

/-- How the queue in memory follows the files. -/
def Phase.Follows (d : Desk S) : Phase → Prop
  | .idle => True
  | .loaded queue => ofTransitions d.events (ids queue) = d.transitions
  | .recorded _ => True
  | .delivering persisted queue => persisted = true ∧ d.outbox.messages = queue
  | .delivered persisted m queue => persisted = true ∧ d.outbox.messages = m :: queue

structure Exact (c : Desk S × Phase) : Prop where
  tally : Tally c.1.events c.1.transitions
  known : ∀ id, id ∈ recordedIds c.1.events ∨ Dropped c.1.events id → id < c.1.fresh
  plain : ∀ m ∈ c.1.held ++ c.2.queue, m.id ∈ recordedIds c.1.events →
    m.content.notice = false ∧ m.content.cap = none
  totals : ∀ m ∈ c.1.held ++ c.2.queue, ∀ cap, m.content.cap = some cap →
    cap.dropped = m.counted.length
  follows : c.2.Follows c.1

/-- The same messages and notes of records as before, elsewhere. -/
theorem Exact.keep {c : Desk S × Phase} {d : Desk S} {phase : Phase} (h : Exact c)
    (hsub : ∀ m ∈ d.held ++ phase.queue, m ∈ c.1.held ++ c.2.queue) (hfresh : c.1.fresh ≤ d.fresh)
    (hrecorded : recordedIds d.events = recordedIds c.1.events)
    (hdropped : ∀ id, Dropped d.events id → Dropped c.1.events id)
    (htally : Tally d.events d.transitions) (hfollows : phase.Follows d) : Exact (d, phase) where
  tally := htally
  known id hid := by
    rw [hrecorded] at hid
    exact (h.known id (hid.imp_right (hdropped id))).trans_le hfresh
  plain m hm := by
    rw [hrecorded]
    exact h.plain m (hsub m hm)
  totals m hm := h.totals m (hsub m hm)
  follows := hfollows

/-- Runs whose writes happen whole, with a server to deliver to. -/
def whole : Allowed := ⟨false, false⟩

theorem ofTransitions_cons_of_mem {events : List Event} {id : Nat} {rest : List Nat}
    (h : id ∈ recordedIds events) :
    ofTransitions events (id :: rest) = id :: ofTransitions events rest :=
  List.filter_cons_of_pos (decide_eq_true h)

theorem ofTransitions_cons_of_notMem {events : List Event} {id : Nat} {rest : List Nat}
    (h : id ∉ recordedIds events) : ofTransitions events (id :: rest) = ofTransitions events rest :=
  List.filter_cons_of_neg (by simpa using h)

/-- The head of what is delivered next is the head of the queue. -/
theorem Exact.sent {d : Desk S} {persisted : Bool} {m : Message} {queue : List Message}
    (horderly : Orderly (d, .delivering persisted (m :: queue)))
    (h : Exact (d, .delivering persisted (m :: queue))) (taken : Bool) :
    Tally (.sent m.id taken :: d.events) d.transitions := by
  refine h.tally.sent (fun hmem => ?_) taken
  obtain ⟨rfl, houtbox⟩ := h.follows
  refine ⟨ofTransitions d.events (ids queue), ?_⟩
  change ofTransitions d.events (ids d.queue) = _
  rw [Desk.queue_of_none horderly.knows, houtbox]
  exact ofTransitions_cons_of_mem hmem

/-! ### The record

A loaded queue takes new messages, whose identities go from `fresh` on. -/

section Record

variable {d : Desk S} {queue prepared lost : List Message} {stamp : String} {texts : List String}

/-- The notes when the record is in place. -/
def Desk.afterRecord (d : Desk S) (stamp : String) (texts : List String)
    (prepared lost : List Message) : List Event :=
  .recorded (ids (newMessages d.fresh stamp false texts)) (ids lost)
    (headTotal prepared) :: d.events

theorem mem_recordedIds_afterRecord {id : Nat} :
    id ∈ recordedIds (d.afterRecord stamp texts prepared lost) ↔
    id ∈ recordedIds d.events ∨ d.fresh ≤ id ∧ id < d.fresh + texts.length := by
  change id ∈ recordedIds d.events ++ ids (newMessages d.fresh stamp false texts) ↔ _
  rw [List.mem_append, ids_newMessages, List.mem_range'_1]

theorem Exact.old (horderly : Orderly (d, .loaded queue)) (h : Exact (d, .loaded queue)) {id : Nat}
    (hid : id ∈ recordedIds d.events ∨ id ∈ deliveredIds d.events ∨ Dropped d.events id) :
    id < d.fresh := by
  obtain hid | hid | hid := hid
  · exact h.known id (.inl hid)
  · exact horderly.sent id true (mem_deliveredIds.mp hid)
  · exact h.known id (.inr hid)

theorem ofTransitions_afterRecord {messages : List Nat}
    (hmessages : ∀ id ∈ messages, id < d.fresh) :
    ofTransitions (d.afterRecord stamp texts prepared lost) messages =
      ofTransitions d.events messages := by
  refine List.filter_congr fun id hid => decide_eq_decide.mpr ?_
  rw [mem_recordedIds_afterRecord, or_iff_left fun hmem =>
    absurd (hmessages id hid) (Nat.not_lt.mpr hmem.1)]

/-- Of the loaded queue and the new messages, those of transitions. -/
theorem Exact.ofTransitions_all (horderly : Orderly (d, .loaded queue))
    (h : Exact (d, .loaded queue)) :
    ofTransitions (d.afterRecord stamp texts prepared lost)
      (ids (queue ++ newMessages d.fresh stamp false texts)) =
      d.transitions ++ ids (newMessages d.fresh stamp false texts) := by
  have hqueue : ∀ id ∈ ids queue, id < d.fresh := by
    intro id hid
    obtain ⟨m, hm, rfl⟩ := List.mem_map.mp hid
    exact horderly.loaded hm
  rw [ids_append, ofTransitions_append, ofTransitions_afterRecord hqueue, h.follows]
  refine congrArg _ (List.filter_eq_self.mpr fun id hid => decide_eq_true ?_)
  rw [ids_newMessages, List.mem_range'_1] at hid
  exact mem_recordedIds_afterRecord.mpr (.inr hid)

theorem Exact.plain_all (horderly : Orderly (d, .loaded queue)) (h : Exact (d, .loaded queue))
    {m : Message} (hm : m ∈ d.outbox.messages ∨ m ∈ queue ++ newMessages d.fresh stamp false texts)
    (hmem : m.id ∈ recordedIds (d.afterRecord stamp texts prepared lost)) :
    m.content.notice = false ∧ m.content.cap = none := by
  have hold : ∀ {m}, m ∈ d.held ++ queue →
      m.id ∈ recordedIds (d.afterRecord stamp texts prepared lost) →
      m.content.notice = false ∧ m.content.cap = none := by
    intro m hm hmem
    refine h.plain m hm ((mem_recordedIds_afterRecord.mp hmem).resolve_right fun hmem => ?_)
    exact absurd (horderly.known m hm) (Nat.not_lt.mpr hmem.1)
  obtain hm | hm := hm
  · exact hold (List.mem_append_left _ (Desk.mem_held.mpr (.inl hm))) hmem
  · obtain hm | hm := List.mem_append.mp hm
    · exact hold (List.mem_append_right _ hm) hmem
    · exact (mem_newMessages hm).2.2

theorem Exact.totals_all (h : Exact (d, .loaded queue)) {m : Message} {cap : Cap}
    (hm : m ∈ d.outbox.messages ∨ m ∈ queue ++ newMessages d.fresh stamp false texts)
    (hcap : m.content.cap = some cap) : cap.dropped = m.counted.length := by
  obtain hm | hm := hm
  · exact h.totals m (List.mem_append_left _ (Desk.mem_held.mpr (.inl hm))) cap hcap
  · obtain hm | hm := List.mem_append.mp hm
    · exact h.totals m (List.mem_append_right _ hm) cap hcap
    · rw [(mem_newMessages hm).2.2.2] at hcap
      exact nomatch hcap

/-- The record: of the loaded queue and the new messages some are dropped, and counted by
notices. -/
theorem Exact.recorded (horderly : Orderly (d, .loaded queue))
    (h : Exact (d, .loaded queue)) {fields : S} (notices kept : List Message)
    (hnotices : ∀ m ∈ notices, m.id = d.fresh + texts.length ∧
      ∃ cap, m.content.cap = some cap ∧ cap.dropped = m.counted.length)
    (hkept : kept.Sublist (queue ++ newMessages d.fresh stamp false texts))
    (hlost : ∀ m ∈ lost, m ∈ queue ++ newMessages d.fresh stamp false texts)
    (hapart : ∀ id ∈ ids kept, id ∉ ids lost)
    (hcounted : ∀ m ∈ queue ++ newMessages d.fresh stamp false texts, m.content.cap = none →
      m.id ∈ ids kept ∨ Counted (d.afterRecord stamp texts (notices ++ kept) lost) m.id) :
    Exact (({ d with fresh := d.fresh + texts.length + 1 } : Desk S).putRecord fields
        (some (notices ++ kept)) [.recorded (ids (newMessages d.fresh stamp false texts))
        (ids lost) (headTotal (notices ++ kept))], .recorded (notices ++ kept)) := by
  set events := d.afterRecord stamp texts (notices ++ kept) lost with hevents
  have hnewest : d.fresh + texts.length ∉ recordedIds events := by
    rw [hevents, mem_recordedIds_afterRecord]
    rintro (hmem | hmem)
    · exact absurd (h.old horderly (.inl hmem)) (by omega)
    · exact hmem.2.false
  have hprepared : ofTransitions events (ids (notices ++ kept)) =
      ofTransitions events (ids kept) := by
    rw [ids_append, ofTransitions_append, List.append_left_eq_self]
    refine List.filter_eq_nil_iff.mpr fun id hid => ?_
    obtain ⟨m, hm, rfl⟩ := List.mem_map.mp hid
    rw [(hnotices m hm).1, decide_eq_true_iff]
    exact hnewest
  have hmem : ∀ m ∈ d.outbox.messages ++ (notices ++ kept) ++ (notices ++ kept), m ∈ notices ∨
      (m ∈ d.outbox.messages ∨ m ∈ queue ++ newMessages d.fresh stamp false texts) := by
    intro m hm
    have hkept : m ∈ kept → m ∈ queue ++ newMessages d.fresh stamp false texts :=
      fun hm => hkept.subset hm
    simp only [List.mem_append] at hm hkept ⊢
    tauto
  have hall : ofTransitions events (ids (queue ++ newMessages d.fresh stamp false texts)) =
      d.transitions ++ ids (newMessages d.fresh stamp false texts) := h.ofTransitions_all horderly
  constructor
  · change Tally events (ofTransitions events (ids (notices ++ kept)))
    rw [hprepared]
    refine h.tally.record (fun id => h.old horderly) ?_ (fun id hid => ?_) (fun id hid => ?_) ?_
      (fun id hid => ?_) fun id hid => ?_
    · rw [ids_newMessages]
      exact List.pairwise_lt_range'
    · rw [ids_newMessages] at hid
      exact (List.mem_range'_1.mp hid).1
    · exact h.old horderly (.inl (mem_ofTransitions.mp hid).2)
    · rw [← hall]
      exact (hkept.map _).filter _
    · exact hapart id (mem_ofTransitions.mp hid).1
    · rw [← hall] at hid
      obtain ⟨hid, hrecorded⟩ := mem_ofTransitions.mp hid
      obtain ⟨m, hm, rfl⟩ := List.mem_map.mp hid
      refine (hcounted m hm (h.plain_all horderly (.inr hm) hrecorded).2).imp_left fun hid => ?_
      exact mem_ofTransitions.mpr ⟨hid, hrecorded⟩
  · intro id hid
    change id < d.fresh + texts.length + 1
    obtain hid | hid := hid
    · obtain hid | hid := mem_recordedIds_afterRecord.mp (show id ∈ recordedIds events from hid)
      · exact (h.old horderly (.inl hid)).trans (by omega)
      · omega
    · obtain hid | hid := dropped_recorded.mp (show Dropped events id from hid)
      · obtain ⟨m, hm, rfl⟩ := List.mem_map.mp hid
        obtain hm | hm := List.mem_append.mp (hlost m hm)
        · have := horderly.loaded hm
          omega
        · have := (mem_newMessages hm).2.1
          omega
      · have := h.old horderly (.inr (.inr hid))
        omega
  · intro m hm hrecorded
    obtain hm | hm := hmem m hm
    · rw [(hnotices m hm).1] at hrecorded
      exact absurd hrecorded hnewest
    · exact h.plain_all horderly hm hrecorded
  · intro m hm cap hcap
    obtain hm | hm := hmem m hm
    · obtain ⟨cap', hcap', htotal⟩ := (hnotices m hm).2
      obtain rfl := Option.some.inj (hcap.symm.trans hcap')
      exact htotal
    · exact h.totals_all hm hcap
  · trivial

theorem Exact.record (horderly : Orderly (d, .loaded queue)) (h : Exact (d, .loaded queue))
    {fields : S} {name : String} (henqueue : enqueue name stamp (d.fresh + texts.length) queue
      (newMessages d.fresh stamp false texts) = (prepared, lost)) :
    Exact (({ d with fresh := d.fresh + texts.length + 1 } : Desk S).putRecord fields
        (some prepared)
      [.recorded (ids (newMessages d.fresh stamp false texts)) (ids lost) (headTotal prepared)],
        .recorded prepared) := by
  obtain ⟨heq, _⟩ | ⟨notice, folded, lost', kept, cap, heq, hqueue, hid, _, hcap, _, hfolded⟩ :=
    enqueue_cases name stamp (d.fresh + texts.length) queue (newMessages d.fresh stamp false texts)
  · obtain ⟨rfl, rfl⟩ := Prod.mk.inj (henqueue.symm.trans heq)
    exact h.recorded horderly [] _ (fun _ hm => absurd hm List.not_mem_nil) (.refl _)
      (fun _ hm => absurd hm List.not_mem_nil) (fun _ _ hm => absurd hm List.not_mem_nil)
        fun m hm _ => .inl (List.mem_map_of_mem hm)
  · obtain ⟨rfl, rfl⟩ := Prod.mk.inj (henqueue.symm.trans heq)
    have hin : ∀ m ∈ folded ++ lost ++ kept, m ∈ queue ++ newMessages d.fresh stamp false texts :=
      fun m hm => hqueue ▸ hm
    have hapart : ∀ id ∈ ids kept, id ∉ ids lost := by
      intro id hkept hlost
      have hnodup : (ids (queue ++ newMessages d.fresh stamp false texts)).Nodup :=
        horderly.loaded_nodup
      rw [hqueue, ids_append, ids_append] at hnodup
      exact (List.nodup_append.mp hnodup).2.2 id (List.mem_append_right _ hlost) id hkept rfl
    have htotal : cap.dropped = notice.counted.length ∧ ∀ id ∈ ids lost, id ∈ notice.counted := by
      obtain ⟨_, _, hcounted, htotal⟩ | ⟨old, oldCap, rfl, hold, hcounted, htotal⟩ := hfolded
      · rw [htotal, hcounted]
        exact ⟨(List.length_map _).symm, fun _ hid => hid⟩
      · have := h.totals_all (.inr (hin old (by simp))) hold
        rw [htotal, hcounted, this]
        exact ⟨by rw [List.length_append, ids, List.length_map], fun _ hid =>
          List.mem_append_right _ hid⟩
    refine h.recorded horderly [notice] kept ?_ ?_ (fun m hm => hin m (by simp [hm])) hapart
      fun m hm hnone => ?_
    · intro m hm
      obtain rfl := List.mem_singleton.mp hm
      exact ⟨hid, cap, hcap, htotal.1⟩
    · exact hqueue ▸ List.sublist_append_right ..
    · rw [hqueue, List.mem_append, List.mem_append] at hm
      obtain (hm | hm) | hm := hm
      · obtain ⟨rfl, _⟩ | ⟨old, oldCap, rfl, hold, _⟩ := hfolded
        · cases hm
        · obtain rfl := List.mem_singleton.mp hm
          rw [hold] at hnone
          cases hnone
      · have hmem : m.id ∈ ids lost := List.mem_map_of_mem hm
        refine .inr ⟨ids (newMessages d.fresh stamp false texts), ids lost,
          cap.dropped, notice.counted, List.mem_cons.mpr (.inl ?_), hmem, htotal.2 _ hmem, htotal.1⟩
        have hhead : headTotal (notice :: kept) = some (cap.dropped, notice.counted) := by
          simp [headTotal, capAtHead, hcap]
        rw [← hhead]
        rfl
      · exact .inl (List.mem_map_of_mem hm)

end Record

/-- A recovery notice takes the place of a spoiled outbox. -/
theorem Exact.recover {d : Desk S} (h : Exact (d, .idle)) {raw : Bytes}
    (houtbox : d.outbox = .corrupt raw) (stamp text : String) :
    Exact (({ d with fresh := d.fresh + 1 } : Desk S).putOutbox
        (newMessages d.fresh stamp true [text]) [], .idle) := by
  set d' := ({ d with fresh := d.fresh + 1 } : Desk S).putOutbox
    (newMessages d.fresh stamp true [text]) [] with hd'
  have hnotice : ∀ m ∈ newMessages d.fresh stamp true [text], m.id ∉ recordedIds d.events := by
    intro m hm hmem
    exact absurd (h.known m.id (.inl hmem)) (Nat.not_lt.mpr (mem_newMessages hm).1)
  have hheld : ∀ m ∈ d'.held ++ Phase.queue .idle, m ∈ newMessages d.fresh stamp true [text] ∨
      m ∈ d.held ++ Phase.queue .idle := by
    intro m hm
    simp only [Phase.queue, List.append_nil] at hm ⊢
    exact (Desk.mem_held.mp hm).imp_right fun hm => Desk.mem_held.mpr (.inr hm)
  have htransitions : d'.transitions = d.transitions := by
    change ofTransitions d.events (ids d'.queue) = ofTransitions d.events (ids d.queue)
    cases howed : d.owed with
    | some owed => rw [Desk.queue_of_some (d := d') howed, Desk.queue_of_some howed]
    | none =>
        rw [Desk.queue_of_none (d := d') howed, Desk.queue_of_none howed, houtbox]
        refine List.filter_eq_nil_iff.mpr fun id hid => ?_
        obtain ⟨m, hm, rfl⟩ := List.mem_map.mp hid
        rw [decide_eq_true_iff]
        exact hnotice m hm
  constructor
  · change Tally d.events d'.transitions
    rw [htransitions]
    exact h.tally
  · exact fun id hid => Nat.lt_succ_of_lt (h.known id hid)
  · intro m hm hmem
    obtain hm | hm := hheld m hm
    · exact absurd hmem (hnotice m hm)
    · exact h.plain m hm hmem
  · intro m hm cap hcap
    obtain hm | hm := hheld m hm
    · rw [(mem_newMessages hm).2.2.2] at hcap
      cases hcap
    · exact h.totals m hm cap hcap
  · trivial

/-- Every step of whole writes keeps the tally. -/
theorem Exact.step {c c' : Desk S × Phase} (horderly : Orderly c) (h : Exact c)
    (hstep : Step whole c c') : Exact c' := by
  have hold := hstep.messages
  cases hstep with
  | stop => exact h.keep (hold rfl) (le_refl _) rfl (fun _ hid => hid) h.tally trivial
  | forget hle =>
      exact h.keep (fun m hm => hm) hle rfl (fun _ hid => hid) h.tally trivial
  | recover houtbox => exact h.recover houtbox _ _
  | @loadOutbox d howed =>
      refine h.keep (hold rfl) (le_refl _) rfl (fun _ hid => hid) h.tally ?_
      change ofTransitions _ _ = ofTransitions _ _
      rw [Desk.queue_of_none howed]
  | @loadOwed d owed howed =>
      refine h.keep (hold rfl) (le_refl _) rfl
        (fun _ hid => (dropped_of_ne fun _ _ _ => Event.noConfusion).mp hid)
        (h.tally.quiet (fun _ _ _ => Event.noConfusion) fun _ _ => Event.noConfusion) ?_
      -- what is carried over are notices, which no transition has recorded
      have hcarried : ofTransitions d.events
          (ids (d.outbox.messages.filter fun m => m.content.notice && !m.isIn owed)) = [] := by
        refine List.filter_eq_nil_iff.mpr fun id hid => ?_
        obtain ⟨m, hm, rfl⟩ := List.mem_map.mp hid
        obtain ⟨hm, hnotice⟩ := List.mem_filter.mp hm
        have hheld : m ∈ d.held ++ Phase.queue .idle :=
          List.mem_append_left _ (Desk.mem_held.mpr (.inl hm))
        rw [decide_eq_true_iff]
        intro hmem
        rw [(h.plain m hheld hmem).1] at hnotice
        exact nomatch hnotice
      change ofTransitions d.events (ids (owed ++ _)) = ofTransitions d.events (ids d.queue)
      rw [ids_append, ofTransitions_append, hcarried, List.append_nil, Desk.queue_of_some howed]
  | record name stamp texts henqueue => exact h.record horderly henqueue
  | @copy d prepared =>
      refine h.keep (hold rfl) (le_refl _) rfl (fun _ hid => hid) ?_ trivial
      change Tally d.events (ofTransitions d.events (ids (d.putOutbox prepared []).queue))
      rw [Desk.queue_of_some (by exact horderly.knows),
        ← Desk.queue_of_some (d := d) horderly.knows]
      exact h.tally
  | @clear d prepared fields houtbox =>
      refine h.keep (hold rfl) (le_refl _) rfl
        (fun _ hid => (dropped_of_ne fun _ _ _ => Event.noConfusion).mp hid) ?_ ⟨rfl, houtbox⟩
      have htally :=
        h.tally.quiet (e := .cleared (ids d.outbox.messages)) (fun _ _ _ => Event.noConfusion)
        fun _ _ => Event.noConfusion
      change Tally _ (ofTransitions d.events (ids (d.putRecord fields none []).queue))
      rw [Desk.queue_of_none (by rfl)]
      change Tally _ (ofTransitions d.events (ids d.outbox.messages))
      rwa [houtbox, ← Desk.queue_of_some (d := d) horderly.knows]
  | keep hfaults => exact nomatch hfaults
  | refused =>
      exact h.keep (hold rfl) (le_refl _) rfl (fun _ hid =>
          (dropped_of_ne fun _ _ _ => Event.noConfusion).mp hid) (h.sent horderly _) trivial
  | @accepted d persisted m queue =>
      exact h.keep (hold rfl) (le_refl _) rfl (fun _ hid =>
          (dropped_of_ne fun _ _ _ => Event.noConfusion).mp hid) (h.sent horderly _) h.follows
  | @rewriteOutbox d m queue =>
      refine h.keep (hold rfl) (le_refl _) rfl
        (fun _ hid => (dropped_of_ne fun _ _ _ => Event.noConfusion).mp hid) ?_ ⟨rfl, rfl⟩
      have hqueue : d.queue = m :: queue := (Desk.queue_of_none horderly.knows.1).trans h.follows.2
      have htally := h.tally.quiet (e := .rewritten) (fun _ _ _ => Event.noConfusion) fun _ _ =>
        Event.noConfusion
      change Tally _ (ofTransitions d.events (ids d.queue)) at htally
      change Tally _ (ofTransitions d.events (ids (d.putOutbox queue [.rewritten]).queue))
      rw [Desk.queue_of_none (by exact horderly.knows.1)]
      rw [hqueue] at htally
      by_cases hmem : m.id ∈ recordedIds d.events
      · refine Tally.pop (show Tally _ (m.id :: _) from ?_) ?_
        · rwa [← ofTransitions_cons_of_mem hmem]
        · exact mem_deliveredIds.mpr
            (List.mem_cons_of_mem _ (List.mem_of_mem_head? horderly.knows.2))
      · change Tally _ (ofTransitions d.events (ids queue))
        rwa [← ofTransitions_cons_of_notMem hmem]
  | skip hfaults => exact nomatch hfaults
  | rewriteRecord => exact nomatch h.follows.1
  | statusOnly hstatus => exact nomatch hstatus

theorem Exact.spoil {d : Desk S} (h : Exact (d, .idle)) (raw : Bytes) :
    Exact (d.spoil raw, .idle) := by
  refine h.keep (fun m hm => ?_) (le_refl _) rfl
    (fun _ hid => (dropped_of_ne fun _ _ _ => Event.noConfusion).mp hid) ?_ trivial
  · simp only [Phase.queue, List.append_nil] at hm ⊢
    obtain hm | hm := Desk.mem_held.mp hm
    · cases hm
    · exact Desk.mem_held.mpr (.inr hm)
  · change Tally (.spoiled (if d.owed = none then ids d.outbox.messages else []) :: d.events)
      (ofTransitions d.events (ids (d.spoil raw).queue))
    cases howed : d.owed with
    | some owed =>
        rw [Desk.queue_of_some (d := d.spoil raw) howed, ← Desk.queue_of_some howed]
        exact h.tally.spoiled (.refl _) fun id hid => .inl hid
    | none =>
        rw [Desk.queue_of_none (d := d.spoil raw) howed, if_pos rfl]
        refine h.tally.spoiled (List.nil_sublist _) fun id hid => .inr ?_
        have hid := (mem_ofTransitions.mp hid).1
        rwa [Desk.queue_of_none howed] at hid

theorem Exact.empty {d : Desk S} (h : d.IsEmpty) : Exact (d, .idle) := by
  obtain ⟨houtbox, hstate, hevents⟩ := h
  have howed : d.owed = none := by rw [Desk.owed, hstate]
  have hheld : d.held = [] := by rw [Desk.held, houtbox, howed]; rfl
  have hqueue : d.transitions = [] := by
    rw [Desk.transitions, Desk.queue_of_none howed, houtbox]; rfl
  have htally : Tally d.events d.transitions := by
    rw [hevents, hqueue]
    constructor <;> simp [recordedIds, deliveredIds, ofTransitions, NotRevived]
  constructor
  · exact htally
  · simp [hevents, recordedIds, Dropped]
  · simp [hheld, Phase.queue]
  · simp [hheld, Phase.queue]
  · trivial

/-! ## The recorded queue -/

/-- After any runs whose writes happened whole, with the outbox spoiled in between or not: a message
of a recorded transition has been delivered, or stands in the queue once, or is counted in the
total of a notice, or stood in an outbox that was spoiled; once a record has dropped it, it is
neither in the queue nor sent again; and such messages are delivered and queued in the order they
were recorded. -/
theorem recorded_queue_exact {w : World S} (h : (watches S whole).Reachable w) :
    (recordedIds w.events).Pairwise (· < ·) ∧
    (∀ id ∈ recordedIds w.events, .sent id true ∈ w.events ∨
      (ids w.queue).count id = 1 ∨ Counted w.events id ∨ Spoiled w.events id) ∧
    (∀ id ∈ recordedIds w.events, Dropped w.events id → id ∉ ids w.queue) ∧ NotRevived w.events ∧
    (ofTransitions w.events (deliveredIds w.events ++ ids w.queue)).Pairwise (· ≤ ·) := by
  obtain ⟨horderly, hexact⟩ : Orderly (w.toDesk, .idle) ∧ Exact (w.toDesk, .idle) :=
    holds_of_reachable (I := fun c => Orderly c ∧ Exact c) (fun d hd => ⟨.empty hd, .empty hd⟩)
      (fun c c' hc hstep => ⟨hc.1.step hstep, hc.2.step hc.1 hstep⟩)
      (fun d raw hd => ⟨hd.1.spoil raw, hd.2.spoil raw⟩) h
  have hnodup : (ids w.queue).Nodup := by
    cases howed : w.owed with
    | none => rw [Desk.queue_of_none howed]; exact horderly.outbox
    | some owed => rw [Desk.queue_of_some howed]; simpa [howed] using horderly.owed
  have htally := hexact.tally
  refine ⟨htally.ordered, fun id hid => ?_, fun id hid hdropped hmem => ?_, htally.notRevived, ?_⟩
  · obtain hdelivered | hmem | h := htally.accounted id hid
    · exact .inl (mem_deliveredIds.mp hdelivered)
    · exact .inr (.inl (List.count_eq_one_of_mem hnodup (mem_ofTransitions.mp hmem).1))
    · exact .inr (.inr h)
  · exact htally.dropped id (mem_ofTransitions.mpr ⟨hmem, hid⟩) hdropped
  · rw [ofTransitions_append]
    exact htally.order

namespace Replaced

/-! ### An outbox that is spoiled -/

/-- Two messages are recorded, of which the first is delivered; then the outbox is spoiled. -/
def env (texts : List String) (refusing : Nat) : Env Unit where
  read _ := .done
  write _ := .done
  send n := if n = refusing then .refused false else .accepted
  name := "box"
  clock _ := "2026-09-16T12:00:00Z"
  problem _ := "Expecting value"
  decide _ := .ok ((), texts)

def queued : World Unit :=
  (runLocked (env ["a", "b"] 8) .deliver ⟨⟨.missing, .missing, 0, []⟩, 0⟩).2

def spoiled : World Unit := { queued with toDesk := queued.spoil [] }

/-- The next run delivers the notice that takes the place of the outbox. -/
def recovered : World Unit := (runLocked (env [] 100) .deliver spoiled).2

theorem reachable_queued : (watches Unit whole).Reachable queued := by
  refine .step (.init (s := ⟨⟨.missing, .missing, 0, []⟩, 0⟩) ⟨rfl, rfl, rfl⟩)
    (.inl ⟨env ["a", "b"] 8, .deliver, ?_, ?_, rfl⟩)
  · exact fun _ _ h => nomatch h
  · exact fun h => nomatch h

theorem reachable_recovered : (watches Unit whole).Reachable recovered := by
  refine .step (s := spoiled) (.step reachable_queued (.inr ⟨[], rfl⟩))
    (.inl ⟨env [] 100, .deliver, ?_, ?_, rfl⟩)
  · exact fun _ _ h => nomatch h
  · exact fun h => nomatch h

/-- The first message is delivered and the second stands in the queue once. -/
theorem half_delivered :
    .sent 0 true ∈ queued.events ∧ (ids queued.queue).count 1 = 1 ∧ NotRevived queued.events :=
  ⟨by decide +kernel, by decide +kernel, (recorded_queue_exact reachable_queued).2.2.2.1⟩

end Replaced

open Replaced in
/-- A message of a recorded transition that stood in an outbox that was spoiled: it is not
delivered, not queued and not counted. -/
theorem recorded_may_be_replaced :
    (watches Unit whole).Reachable recovered ∧ 1 ∈ recordedIds recovered.events ∧
      .sent 1 true ∉ recovered.events ∧ 1 ∉ ids recovered.queue ∧ ¬ Counted recovered.events 1 := by
  have hevents : recovered.events =
      [.rewritten, .sent 3 true, .cleared [3], .recorded [] [] none, .spoiled [1],
          .sent 1 false, .rewritten, .sent 0 true, .cleared [0, 1], .recorded [0, 1] [] none] := by
        decide +kernel
  have hqueue : ids recovered.queue = [] := by decide +kernel
  refine ⟨reachable_recovered, by rw [hevents]; decide, by rw [hevents]; decide,
    by rw [hqueue]; decide, ?_⟩
  rintro ⟨new, lost, total, counted, hmem, hlost, _⟩
  rw [hevents] at hmem
  simp only [List.mem_cons, reduceCtorEq, Event.recorded.injEq, false_or, or_false,
    List.not_mem_nil] at hmem
  obtain ⟨_, rfl, _⟩ | ⟨_, rfl, _⟩ := hmem <;> exact nomatch hlost

end OtsServer.Watch
