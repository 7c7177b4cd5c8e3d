import OtsServer.Watch.Orderly

/-!
# A recorded delivery is not repeated

A delivery is settled once the rewrite that follows it is in place. No settled message is sent
again, as long as the record never stops covering an outbox that still holds one: the record
is rewritten without the queue when it has been delivered from there, whatever stands in the
outbox, and a recovery notice of the outbox is put behind the recorded queue whether or not it
has been delivered.
-/

namespace OtsServer.Watch

variable {S : Type}

/-- The message was taken, and the rewrite that follows is in place. -/
def Settled (events : List Event) (id : Nat) : Prop := [.rewritten, .sent id true] <:+: events

/-- No message is sent again once it is settled. -/
def NotRepeated (events : List Event) : Prop :=
  ∀ id taken before, .sent id taken :: before <:+ events → ¬ Settled before id

/-- Messages that stand in the outbox when the record stops carrying the queue, or that are carried
over from it, are not settled. -/
def Covered (events : List Event) : Prop :=
  ∀ e before, e :: before <:+ events → ∀ outbox, (e = .cleared outbox ∨ e = .carried outbox) →
    ∀ id ∈ outbox, ¬ Settled before id

theorem settled_cons {e : Event} {events : List Event} {id : Nat} :
    Settled (e :: events) id ↔ (e = .rewritten ∧ events.head? = some (.sent id true)) ∨
      Settled events id := by
  rw [Settled, List.infix_cons_iff, List.cons_prefix_cons]
  refine or_congr (and_congr eq_comm ?_) Iff.rfl
  cases events with
  | nil => simp
  | cons e' events => simp [List.cons_prefix_cons, eq_comm]

theorem settled_cons_of_ne {e : Event} {events : List Event} {id : Nat} (h : e ≠ .rewritten) :
    Settled (e :: events) id ↔ Settled events id := by
  rw [settled_cons]
  exact or_iff_right fun h' => h h'.1

theorem notRepeated_cons {e : Event} {events : List Event} :
    NotRepeated (e :: events) ↔ (∀ id taken, e = .sent id taken → ¬ Settled events id) ∧
      NotRepeated events := by
  constructor
  · refine fun h =>
      ⟨?_, fun id taken before hsuffix => h id taken before (hsuffix.trans (List.suffix_cons ..))⟩
    rintro id taken rfl
    exact h id taken events (List.suffix_refl _)
  · rintro ⟨hhead, htail⟩ id taken before hsuffix
    obtain heq | hsuffix := List.suffix_cons_iff.mp hsuffix
    · obtain ⟨rfl, rfl⟩ := List.cons.inj heq
      exact hhead id taken rfl
    · exact htail id taken before hsuffix

theorem covered_cons {e : Event} {events : List Event} :
    Covered (e :: events) ↔ (∀ outbox, (e = .cleared outbox ∨ e = .carried outbox) →
      ∀ id ∈ outbox, ¬ Settled events id) ∧ Covered events := by
  constructor
  · exact fun h => ⟨h e events (List.suffix_refl _),
      fun e' before hsuffix => h e' before (hsuffix.trans (List.suffix_cons ..))⟩
  · rintro ⟨hhead, htail⟩ e' before hsuffix
    obtain heq | hsuffix := List.suffix_cons_iff.mp hsuffix
    · obtain ⟨rfl, rfl⟩ := List.cons.inj heq
      exact hhead
    · exact htail e' before hsuffix

theorem settled_nil {id : Nat} : ¬ Settled [] id := fun h => nomatch List.infix_nil.mp h

theorem covered_nil : Covered [] := fun _ _ hsuffix => nomatch List.suffix_nil.mp hsuffix

theorem sent_of_settled {events : List Event} {id : Nat} (h : Settled events id) :
    .sent id true ∈ events :=
  h.subset (List.mem_cons_of_mem _ (List.mem_cons_self ..))

/-- Nothing settled is sent again, stands where the queue is, or is in a run's memory. -/
structure Unrepeated (c : Desk S × Phase) : Prop where
  notRepeated : NotRepeated c.1.events
  queue : ∀ id ∈ ids c.1.queue, ¬ Settled c.1.events id
  memory : ∀ id ∈ ids c.2.queue, ¬ Settled c.1.events id

/-- A message that was not there before is not settled. -/
theorem Orderly.not_settled {c : Desk S × Phase} (h : Orderly c) {id : Nat} (hid : c.1.fresh ≤ id) :
    ¬ Settled c.1.events id := fun hsettled =>
  absurd (h.sent id true (sent_of_settled hsettled)) (Nat.not_lt.mpr hid)

/-- Steps only note more. -/
theorem Step.events {allow : Allowed} {c c' : Desk S × Phase} (h : Step allow c c') :
    c.1.events <:+ c'.1.events := by
  cases h with
  | stop => exact List.suffix_refl _
  | forget => exact List.suffix_refl _
  | recover => exact List.suffix_append ..
  | loadOutbox => exact List.suffix_refl _
  | loadOwed => exact List.suffix_cons ..
  | record => exact List.suffix_append ..
  | copy => exact List.suffix_append ..
  | clear => exact List.suffix_append ..
  | keep => exact List.suffix_refl _
  | refused => exact List.suffix_cons ..
  | accepted => exact List.suffix_cons ..
  | rewriteOutbox => exact List.suffix_append ..
  | skip => exact List.suffix_refl _
  | rewriteRecord => exact List.suffix_append ..
  | statusOnly => exact List.suffix_append ..

theorem Covered.of_suffix {before events : List Event} (h : Covered events)
    (hsuffix : before <:+ events) : Covered before :=
  fun e earlier hearlier => h e earlier (hearlier.trans hsuffix)

/-- The queue in memory after `enqueue` has nothing settled in it. -/
theorem Orderly.prepared_not_settled {d : Desk S} {queue prepared lost : List Message}
    {name stamp : String} {texts : List String} (h : Orderly (d, .loaded queue))
    (hqueue : ∀ id ∈ ids queue, ¬ Settled d.events id) (henqueue : enqueue name stamp
      (d.fresh + texts.length) queue (newMessages d.fresh stamp false texts) = (prepared, lost)) :
    ∀ id ∈ ids prepared, ¬ Settled d.events id := by
  obtain ⟨notices, hnotices, _, kept, rfl, hkept⟩ := enqueue_new henqueue
  intro id hid
  obtain ⟨m, hm, rfl⟩ := List.mem_map.mp hid
  obtain hm | hm := List.mem_append.mp hm
  · rw [(hnotices m hm).1]
    exact h.not_settled (Nat.le_add_right ..)
  · obtain hm | hm := List.mem_append.mp (hkept.subset hm)
    · exact hqueue m.id (List.mem_map_of_mem hm)
    · exact h.not_settled (mem_newMessages hm).1

/-- What the rewrite after a delivery settles is not left in memory. -/
theorem Unrepeated.rewritten {d : Desk S} {persisted : Bool} {m : Message} {queue : List Message}
    (horderly : Orderly (d, .delivered persisted m queue))
    (h : Unrepeated (d, .delivered persisted m queue))
    (hhead : d.events.head? = some (.sent m.id true)) :
    ∀ id ∈ ids queue, ¬ Settled (.rewritten :: d.events) id := by
  intro id hid
  rw [settled_cons]
  rintro (⟨_, heq⟩ | hold)
  · obtain ⟨rfl, _⟩ := Event.sent.inj (Option.some.inj (hhead.symm.trans heq))
    exact (List.nodup_cons.mp horderly.queue).1 hid
  · exact h.memory id (List.mem_cons_of_mem _ hid) hold

theorem Unrepeated.sent {d : Desk S} {persisted : Bool} {m : Message} {queue : List Message}
    (h : Unrepeated (d, .delivering persisted (m :: queue))) (taken : Bool) {phase : Phase}
    (hphase : ∀ id ∈ ids phase.queue, id ∈ ids (m :: queue)) :
    Unrepeated (d.note (.sent m.id taken), phase) := by
  have hsettled : ∀ id, ¬ Settled d.events id → ¬ Settled (.sent m.id taken :: d.events) id :=
    fun id => (settled_cons_of_ne Event.noConfusion).not.mpr
  refine ⟨notRepeated_cons.mpr ⟨?_, h.notRepeated⟩, fun id hid => hsettled id (h.queue id hid),
    fun id hid => hsettled id (h.memory id (hphase id hid))⟩
  rintro id taken' heq
  obtain ⟨rfl, _⟩ := Event.sent.inj heq
  exact h.memory _ (List.mem_cons_self ..)

/-- No step repeats a settled delivery, as long as the record covers the outbox. -/
theorem Unrepeated.step {allow : Allowed} {c c' : Desk S × Phase} (horderly : Orderly c)
    (h : Unrepeated c) (hstep : Step allow c c') (hcovered : Covered c'.1.events) :
    Unrepeated c' := by
  have hnone : ∀ id ∈ ids (Phase.queue .idle), ¬ Settled c'.1.events id := fun _ hid => nomatch hid
  cases hstep with
  | stop => exact ⟨h.notRepeated, h.queue, hnone⟩
  | forget => exact ⟨h.notRepeated, h.queue, hnone⟩
  | @recover d raw stamp text houtbox =>
      refine ⟨h.notRepeated, fun id hid => ?_, hnone⟩
      cases howed : d.owed with
      | none =>
          rw [Desk.queue_of_none (by exact howed)] at hid
          change id ∈ ids (newMessages d.fresh stamp true [text]) at hid
          rw [ids_newMessages, List.mem_range'_1] at hid
          exact horderly.not_settled hid.1
      | some owed =>
          rw [Desk.queue_of_some (by exact howed)] at hid
          refine h.queue id ?_
          rwa [Desk.queue_of_some howed]
  | @loadOutbox d howed =>
      refine ⟨h.notRepeated, h.queue, fun id hid => h.queue id ?_⟩
      rw [Desk.queue_of_none howed]
      exact hid
  | @loadOwed d owed howed =>
      obtain ⟨hcarried, _⟩ := covered_cons.mp hcovered
      have hsettled : ∀ id, Settled (d.note (.carried (ids (d.outbox.messages.filter
          fun m => m.content.notice && !m.isIn owed)))).events id ↔ Settled d.events id :=
        fun id => settled_cons_of_ne Event.noConfusion
      refine ⟨notRepeated_cons.mpr ⟨fun _ _ hne => (nomatch hne), h.notRepeated⟩,
        fun id hid => ?_, fun id hid => ?_⟩
      · rw [hsettled]
        exact h.queue id hid
      · rw [hsettled]
        obtain hid | hid := List.mem_append.mp (ids_append .. ▸ hid)
        · refine h.queue id ?_
          rwa [Desk.queue_of_some howed]
        · exact hcarried _ (.inr rfl) id hid
  | @record d queue prepared lost fields name stamp texts henqueue =>
      have hprepared := horderly.prepared_not_settled h.memory henqueue
      have hsettled : ∀ id ∈ ids prepared,
          ¬ Settled (.recorded (ids (newMessages d.fresh stamp false texts))
            (ids lost) (headTotal prepared) :: d.events) id := fun id hid =>
        (settled_cons_of_ne Event.noConfusion).not.mpr (hprepared id hid)
      exact ⟨notRepeated_cons.mpr ⟨fun _ _ hne => (nomatch hne), h.notRepeated⟩, hsettled, hsettled⟩
  | @copy d prepared =>
      refine ⟨h.notRepeated, fun id hid => h.memory id ?_, h.memory⟩
      rwa [Desk.queue_of_some (by exact horderly.knows)] at hid
  | @clear d prepared fields houtbox =>
      have hsettled : ∀ id ∈ ids prepared,
          ¬ Settled (.cleared (ids d.outbox.messages) :: d.events) id :=
        fun id hid => (settled_cons_of_ne Event.noConfusion).not.mpr (h.memory id hid)
      refine ⟨notRepeated_cons.mpr ⟨fun _ _ hne => (nomatch hne), h.notRepeated⟩,
        fun id hid => hsettled id ?_, hsettled⟩
      rw [Desk.queue_of_none (by rfl)] at hid
      exact houtbox ▸ hid
  | keep => exact ⟨h.notRepeated, h.queue, h.memory⟩
  | @refused d persisted m queue taken => exact h.sent taken fun _ hid => nomatch hid
  | @accepted d persisted m queue => exact h.sent true fun _ hid => hid
  | @rewriteOutbox d m queue =>
      have hsettled := h.rewritten horderly horderly.knows.2
      refine ⟨notRepeated_cons.mpr ⟨fun _ _ hne => (nomatch hne), h.notRepeated⟩,
        fun id hid => hsettled id ?_, hsettled⟩
      rwa [Desk.queue_of_none (by exact horderly.knows.1)] at hid
  | @skip d m queue _ =>
      exact ⟨h.notRepeated, h.queue, fun id hid => h.memory id (List.mem_cons_of_mem _ hid)⟩
  | @rewriteRecord d m queue fields =>
      have hsettled := h.rewritten horderly horderly.knows.2
      by_cases hnil : queue = []
      · -- the record is rewritten without the queue, and what is left of it the outbox holds
        subst hnil
        have hevents : (d.putRecord fields none [.rewritten]).events =
            .cleared (ids d.outbox.messages) :: .rewritten :: d.events := rfl
        obtain ⟨hcleared, _⟩ := covered_cons.mp hcovered
        refine ⟨notRepeated_cons.mpr ⟨fun _ _ hne => (nomatch hne), notRepeated_cons.mpr
          ⟨fun _ _ hne => (nomatch hne), h.notRepeated⟩⟩, fun id hid => ?_, hnone⟩
        rw [Desk.queue_of_none (by rfl)] at hid
        change ¬ Settled (.cleared (ids d.outbox.messages) :: .rewritten :: d.events) id
        rw [settled_cons_of_ne Event.noConfusion]
        exact hcleared _ (.inl rfl) id hid
      · have hput : d.putRecord fields (if queue = [] then none else some queue) [.rewritten] =
            d.putRecord fields (some queue) [.rewritten] := by rw [if_neg hnil]
        rw [hput]
        exact ⟨notRepeated_cons.mpr ⟨fun _ _ hne => (nomatch hne), h.notRepeated⟩,
          hsettled, hsettled⟩
  | @statusOnly d fields _ =>
      obtain ⟨hcleared, _⟩ := covered_cons.mp hcovered
      refine ⟨notRepeated_cons.mpr ⟨fun _ _ hne => (nomatch hne), h.notRepeated⟩,
        fun id hid => ?_, hnone⟩
      rw [Desk.queue_of_none (by rfl)] at hid
      change ¬ Settled (.cleared (ids d.outbox.messages) :: d.events) id
      rw [settled_cons_of_ne Event.noConfusion]
      exact hcleared _ (.inl rfl) id hid

theorem unrepeated_of_reachable {allow : Allowed} {w : World S} (h : (watches S allow).Reachable w)
    (hcovered : Covered w.events) : Unrepeated (w.toDesk, .idle) := by
  have hboth : Orderly (w.toDesk, .idle) ∧ (Covered w.events → Unrepeated (w.toDesk, .idle)) := by
    refine holds_of_reachable (I := fun c => Orderly c ∧ (Covered c.1.events → Unrepeated c))
      (fun d hd => ?_) (fun c c' hc hstep => ?_) (fun d raw hd => ?_) h
    · refine ⟨.empty hd, fun _ => ⟨?_, fun id _ hsettled => ?_, fun id hid => nomatch hid⟩⟩
      · rw [hd.2.2]
        exact fun _ _ _ hsuffix => nomatch List.suffix_nil.mp hsuffix
      · rw [hd.2.2] at hsettled
        exact nomatch sent_of_settled hsettled
    · exact ⟨hc.1.step hstep, fun hcovered =>
        (hc.2 (hcovered.of_suffix hstep.events)).step hc.1 hstep hcovered⟩
    · refine ⟨hd.1.spoil raw, fun hcovered => ?_⟩
      have hbefore := hd.2 (covered_cons.mp hcovered).2
      refine ⟨notRepeated_cons.mpr ⟨fun _ _ hne => (nomatch hne), hbefore.notRepeated⟩,
        fun id hid => ?_, fun id hid => nomatch hid⟩
      change ¬ Settled (.spoiled _ :: d.events) id
      rw [settled_cons_of_ne Event.noConfusion]
      refine hbefore.queue id ?_
      cases howed : d.owed with
      | none =>
          rw [Desk.queue_of_none (by exact howed)] at hid
          exact nomatch hid
      | some owed =>
          rw [Desk.queue_of_some (by exact howed)] at hid
          rwa [Desk.queue_of_some howed]
  exact hboth.2 hcovered

/-- After any runs, whatever writes and deliveries failed, no message has been sent again once its
delivery was settled, when the record was never rewritten without the queue beside an outbox
that still held a settled message, and no settled notice was carried over from it. -/
theorem delivery_not_repeated {w : World S} (h : (watches S ⟨true, true⟩).Reachable w)
    (hcovered : Covered w.events) : NotRepeated w.events :=
  (unrepeated_of_reachable h hcovered).notRepeated

namespace Drained

/-! ### An outbox that cannot be written -/

/-- A run whose write at one call raises before the rename, and whose send at one call is
refused. -/
def env (texts : List String) (raising refusing : Nat) : Env Unit where
  read _ := .done
  write n := if n = raising then .raises false else .done
  send n := if n = refusing then .refused false else .accepted
  name := "box"
  clock _ := "2026-09-16T12:00:00Z"
  problem _ := ""
  decide _ := .ok ((), texts)

def start : World Unit := ⟨⟨.missing, .missing, 0, []⟩, 0⟩

/-- The first run records its messages and its first send is refused. -/
def queued (texts : List String) : World Unit := (runLocked (env texts 100 6) .deliver start).2

/-- The second run cannot write the outbox and delivers from the record, up to a send that is
refused; the third run has no trouble. -/
def delivered (texts : List String) (refusing : Nat) : World Unit :=
  (runLocked (env [] 11 refusing) .deliver (queued texts)).2

def again (texts : List String) (refusing : Nat) : World Unit :=
  (runLocked (env [] 100 100) .deliver (delivered texts refusing)).2

theorem reachable (allow : Allowed) (hallow : allow.faults = true) (texts : List String)
    (refusing : Nat) : (watches Unit allow).Reachable (again texts refusing) := by
  refine .step (s := delivered texts refusing) (.step (s := queued texts) (.step (s := start)
    (.init ⟨rfl, rfl, rfl⟩) ?_) ?_) ?_
  · exact .inl ⟨env texts 100 6, .deliver, fun _ _ _ => hallow, (fun h => nomatch h), rfl⟩
  · exact .inl ⟨env [] 11 refusing, .deliver, fun _ _ _ => hallow, (fun h => nomatch h), rfl⟩
  · exact .inl ⟨env [] 100 100, .deliver, fun _ _ _ => hallow, (fun h => nomatch h), rfl⟩

/-- Two messages, the second of which is left in the record when the second run ends: the third run
delivers it, and not the first one again. -/
theorem partly_delivered :
    .sent 1 true ∈ (again ["a", "b"] 14).events ∧ NotRepeated (again ["a", "b"] 14).events := by
  have hevents : (again ["a", "b"] 14).events =
      [.rewritten, .sent 1 true, .cleared [1], .recorded [] [] none,
          .carried [], .sent 1 false, .rewritten, .sent 0 true,
          .recorded [] [] none, .sent 0 false, .cleared [0, 1], .recorded [0, 1] [] none] := by
        decide +kernel
  refine ⟨by rw [hevents]; decide, delivery_not_repeated (reachable ⟨true, true⟩ rfl _ _) ?_⟩
  rw [hevents]
  simp [covered_cons, covered_nil, settled_cons, settled_nil]

end Drained

open Drained in
/-- A message delivered from the record, whose rewrite succeeded, is sent again: the rewrite left
the record without a queue, and the outbox that could not be written still held the message. -/
theorem delivery_may_be_repeated :
    (watches Unit ⟨true, false⟩).Reachable (again ["a"] 100) ∧
      ¬ NotRepeated (again ["a"] 100).events := by
  have hevents : (again ["a"] 100).events =
      [.rewritten, .sent 0 true, .cleared [0], .recorded [] [] none,
          .cleared [0], .rewritten, .sent 0 true, .recorded [] [] none,
          .sent 0 false, .cleared [0], .recorded [0] [] none] := by
        decide +kernel
  refine ⟨reachable ⟨true, false⟩ rfl _ _, fun h => ?_⟩
  rw [hevents] at h
  refine h 0 true _ (List.suffix_cons ..) ?_
  exact ⟨[.cleared [0], .recorded [] [] none, .cleared [0]], _, rfl⟩

end OtsServer.Watch
