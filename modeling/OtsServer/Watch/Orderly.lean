import OtsServer.Watch.Steps
import Mathlib.Data.List.Nodup

/-!
# Orderly queues

Identities are given once, so that a message keeps its own through the files; and no file has
a message twice. Every step keeps this, whatever fails.
-/

namespace OtsServer.Watch

variable {S : Type}

/-! ## Queues -/

theorem ids_append (a b : List Message) : ids (a ++ b) = ids a ++ ids b := List.map_append

theorem mem_newMessages {fresh : Nat} {stamp : String} {notice : Bool} {texts : List String}
    {m : Message} (h : m ∈ newMessages fresh stamp notice texts) :
    fresh ≤ m.id ∧ m.id < fresh + texts.length ∧ m.content.notice = notice ∧
      m.content.cap = none := by
  obtain ⟨⟨text, i⟩, hmem, rfl⟩ := List.mem_map.mp h
  have hi := List.snd_lt_of_mem_zipIdx hmem
  exact ⟨Nat.le_add_right .., by simpa using hi, rfl, rfl⟩

theorem ids_newMessages (fresh : Nat) (stamp : String) (notice : Bool) (texts : List String) :
    ids (newMessages fresh stamp notice texts) = List.range' fresh texts.length := by
  rw [ids, newMessages, List.map_map]
  refine List.ext_getElem (by simp) fun i h₁ h₂ => ?_
  simp

/-- What `enqueue` makes of a queue: all of it, or a notice, the messages it dropped at the head and
the rest. A notice that stood at the head is folded into the new one. -/
theorem enqueue_cases (name stamp : String) (id : Nat) (queue new : List Message) :
    (enqueue name stamp id queue new = (queue ++ new, []) ∧ (queue ++ new).length ≤ outboxMax) ∨
    ∃ notice folded lost kept cap, enqueue name stamp id queue new = (notice :: kept, lost) ∧
      queue ++ new = folded ++ lost ++ kept ∧ notice.id = id ∧ notice.content.notice = false ∧
      notice.content.cap = some cap ∧ kept.length = outboxMax - 1 ∧ ((folded = [] ∧
        capAtHead (queue ++ new) = none ∧ notice.counted = ids lost ∧ cap.dropped = lost.length) ∨
        ∃ old oldCap, folded = [old] ∧ old.content.cap = some oldCap ∧ notice.counted =
            old.counted ++ ids lost ∧ cap.dropped = oldCap.dropped + lost.length) := by
  unfold enqueue
  by_cases hlen : (queue ++ new).length > outboxMax
  · right
    simp only [if_pos hlen]
    cases hcap : capAtHead (queue ++ new) with
    | none =>
        refine ⟨_, [], _, _, _, rfl, ?_, rfl, rfl, rfl, ?_, .inl ⟨rfl, rfl, ?_, ?_⟩⟩
        · simp
        · simp [outboxMax] at hlen ⊢
          omega
        · simp [ids]
        · simp
    | some found =>
        obtain ⟨old, oldCap⟩ := found
        obtain ⟨m, rest, hqueue⟩ : ∃ m rest, queue ++ new = m :: rest := by
          cases hq : queue ++ new with
          | nil => rw [hq] at hcap; exact nomatch hcap
          | cons m rest => exact ⟨m, rest, rfl⟩
        rw [hqueue] at hcap hlen
        obtain ⟨cap, hm, heq⟩ := Option.map_eq_some_iff.mp hcap
        obtain ⟨rfl, rfl⟩ := Prod.mk.inj heq
        simp only [hqueue]
        refine ⟨_, [m], _, _, _, rfl, ?_, rfl, rfl, rfl, ?_, .inr ⟨m, cap, rfl, hm, ?_, ?_⟩⟩
        · simp
        · simp [outboxMax] at hlen ⊢
          omega
        · simp [ids]
        · simp
  · exact .inl ⟨by simp only [if_neg hlen], Nat.le_of_not_lt hlen⟩

/-! ## Orderly desks -/

/-- The messages in the files. -/
def Desk.held (d : Desk S) : List Message := d.outbox.messages ++ d.owed.getD []

/-- The messages a run has in memory. -/
def Phase.queue : Phase → List Message
  | .idle => []
  | .loaded queue => queue
  | .recorded prepared => prepared
  | .delivering _ queue => queue
  | .delivered _ m queue => m :: queue

/-- What a run knows of the files in each phase. -/
def Phase.Knows (d : Desk S) : Phase → Prop
  | .recorded prepared => d.owed = some prepared
  | .delivering true _ => d.owed = none
  | .delivering false queue => queue = [] ∨ d.owed = some queue
  | .delivered true m _ => d.owed = none ∧ d.events.head? = some (.sent m.id true)
  | .delivered false m queue => d.owed = some (m :: queue) ∧ d.events.head? = some (.sent m.id true)
  | _ => True

/-- An identity is that of one message, it was given before, and no list has a message twice. -/
structure Orderly (c : Desk S × Phase) : Prop where
  known : ∀ m ∈ c.1.held ++ c.2.queue, m.id < c.1.fresh
  one : ∀ m ∈ c.1.held ++ c.2.queue, ∀ m' ∈ c.1.held ++ c.2.queue, m.id = m'.id → m = m'
  outbox : (ids c.1.outbox.messages).Nodup
  owed : (ids (c.1.owed.getD [])).Nodup
  queue : (ids c.2.queue).Nodup
  sent : ∀ id taken, .sent id taken ∈ c.1.events → id < c.1.fresh
  knows : c.2.Knows c.1

theorem Desk.mem_held {d : Desk S} {m : Message} :
    m ∈ d.held ↔ m ∈ d.outbox.messages ∨ m ∈ d.owed.getD [] :=
  List.mem_append

theorem Desk.queue_of_none {d : Desk S} (h : d.owed = none) : d.queue = d.outbox.messages := by
  rw [queue, h]
  rfl

theorem Desk.queue_of_some {d : Desk S} {owed : List Message} (h : d.owed = some owed) :
    d.queue = owed := by
  rw [queue, h]
  rfl

@[simp] theorem Desk.owed_note (d : Desk S) (e : Event) : (d.note e).owed = d.owed := rfl
@[simp] theorem Desk.owed_putOutbox (d : Desk S) (ms : List Message) (news : List Event) :
    (d.putOutbox ms news).owed = d.owed := rfl
@[simp] theorem Desk.owed_putRecord (d : Desk S) (fields : S) (owed : Option (List Message))
    (news : List Event) : (d.putRecord fields owed news).owed = owed :=
  rfl
@[simp] theorem Desk.owed_fresh (d : Desk S) (n : Nat) :
    ({ d with fresh := n } : Desk S).owed = d.owed :=
  rfl
@[simp] theorem Desk.owed_spoil (d : Desk S) (raw : Bytes) : (d.spoil raw).owed = d.owed := rfl

@[simp] theorem Desk.outbox_putRecord (d : Desk S) (fields : S) (owed : Option (List Message))
    (news : List Event) : (d.putRecord fields owed news).outbox = d.outbox :=
  rfl

theorem Desk.held_cleared {d : Desk S} {fields : S} {news : List Event} {m : Message}
    (h : m ∈ (d.putRecord fields none news).held) : m ∈ d.outbox.messages := by
  simpa [mem_held] using h

theorem sent_note {d : Desk S} {e : Event} {id : Nat} {taken : Bool}
    (h : .sent id taken ∈ (d.note e).events) : .sent id taken = e ∨ .sent id taken ∈ d.events :=
  List.mem_cons.mp h

/-- A desk whose messages were there before, or have new identities of their own. -/
theorem Orderly.move {c : Desk S × Phase}
    {d : Desk S} {phase : Phase} (h : Orderly c) (new : List Message)
    (hnew : ∀ m ∈ new, c.1.fresh ≤ m.id ∧ m.id < d.fresh) (hone : (ids new).Nodup)
    (hsub : ∀ m ∈ d.held ++ phase.queue, m ∈ c.1.held ++ c.2.queue ∨ m ∈ new)
    (hfresh : c.1.fresh ≤ d.fresh)
    (houtbox : (ids d.outbox.messages).Nodup) (howed : (ids (d.owed.getD [])).Nodup)
    (hqueue : (ids phase.queue).Nodup) (hsent : ∀ id taken, .sent id taken ∈ d.events →
      .sent id taken ∈ c.1.events ∨ ∃ m ∈ c.1.held ++ c.2.queue, m.id = id)
    (hknows : phase.Knows d) : Orderly (d, phase) where
  known m hm := by
    obtain hold | hm := hsub m hm
    · exact (h.known m hold).trans_le hfresh
    · exact (hnew m hm).2
  one m hm m' hm' heq := by
    obtain hm | hm := hsub m hm
    · obtain hm' | hm' := hsub m' hm'
      · exact h.one m hm m' hm' heq
      · exact absurd (h.known m hm) (by have := (hnew m' hm').1; omega)
    · obtain hm' | hm' := hsub m' hm'
      · exact absurd (h.known m' hm') (by have := (hnew m hm).1; omega)
      · exact List.inj_on_of_nodup_map hone hm hm' heq
  outbox := houtbox
  owed := howed
  queue := hqueue
  sent id taken hmem := by
    obtain hold | ⟨m, hm, rfl⟩ := hsent id taken hmem
    · exact (h.sent id taken hold).trans_le hfresh
    · exact (h.known m hm).trans_le hfresh
  knows := hknows

/-- The same without new messages. -/
theorem Orderly.keep {c : Desk S × Phase} {d : Desk S} {phase : Phase} (h : Orderly c)
    (hsub : ∀ m ∈ d.held ++ phase.queue, m ∈ c.1.held ++ c.2.queue) (hfresh : c.1.fresh ≤ d.fresh)
    (houtbox : (ids d.outbox.messages).Nodup) (howed : (ids (d.owed.getD [])).Nodup)
    (hqueue : (ids phase.queue).Nodup) (hsent : ∀ id taken, .sent id taken ∈ d.events →
      .sent id taken ∈ c.1.events ∨ ∃ m ∈ c.1.held ++ c.2.queue, m.id = id)
    (hknows : phase.Knows d) : Orderly (d, phase) :=
  h.move [] (fun _ hm => nomatch hm) .nil (fun m hm => .inl (hsub m hm)) hfresh
    houtbox howed hqueue hsent hknows

/-- The messages of a prepared queue: those of the queue and the new ones, and the notice. -/
theorem enqueue_new {name stamp : String} {fresh : Nat} {queue new prepared lost : List Message}
    (h : enqueue name stamp fresh queue new = (prepared, lost)) :
    ∃ notices : List Message,
      (∀ m ∈ notices, m.id = fresh ∧ m.content.notice = false ∧ m.content.cap.isSome) ∧
      notices.length ≤ 1 ∧ ∃ kept, prepared = notices ++ kept ∧ kept.Sublist (queue ++ new) := by
  obtain ⟨heq, _⟩ | ⟨notice, folded, lost', kept, cap, heq, hqueue, hid, hnotice, hcap, _⟩ :=
    enqueue_cases name stamp fresh queue new
  · obtain ⟨rfl, rfl⟩ := Prod.mk.inj (h.symm.trans heq)
    exact ⟨[], fun _ hm => (nomatch hm), Nat.zero_le _, _, rfl, .refl _⟩
  · obtain ⟨rfl, rfl⟩ := Prod.mk.inj (h.symm.trans heq)
    refine ⟨[notice], fun m hm => ?_, le_refl _, kept, rfl, hqueue ▸ List.sublist_append_right ..⟩
    obtain rfl := List.mem_singleton.mp hm
    exact ⟨hid, hnotice, hcap ▸ rfl⟩

section Loaded

variable {d : Desk S} {queue : List Message} {stamp : String} {texts : List String}

theorem Orderly.loaded (horderly : Orderly (d, .loaded queue)) {m : Message} (hm : m ∈ queue) :
    m.id < d.fresh :=
  horderly.known m (List.mem_append_right _ hm)

theorem Orderly.loaded_nodup (horderly : Orderly (d, .loaded queue)) :
    (ids (queue ++ newMessages d.fresh stamp false texts)).Nodup := by
  rw [ids_append, ids_newMessages]
  refine List.nodup_append.mpr ⟨horderly.queue, List.nodup_range', ?_⟩
  rintro a ha b hb rfl
  obtain ⟨m, hm, rfl⟩ := List.mem_map.mp ha
  exact absurd (horderly.loaded hm) (Nat.not_lt.mpr (List.mem_range'_1.mp hb).1)

end Loaded

theorem Orderly.record {d : Desk S} {queue prepared lost : List Message} {fields : S}
    {name stamp : String} {texts : List String} (h : Orderly (d, .loaded queue)) (henqueue :
      enqueue name stamp (d.fresh + texts.length) queue (newMessages d.fresh stamp false texts) =
      (prepared, lost)) (news : List Event) (hnews : ∀ id taken, .sent id taken ∉ news) :
    Orderly (({ d with fresh := d.fresh + texts.length + 1 } : Desk S).putRecord fields
        (some prepared) news, .recorded prepared) := by
  obtain ⟨notices, hnotices, hlength, kept, rfl, hkept⟩ := enqueue_new henqueue
  have hnotice : (ids notices).Nodup := by
    obtain _ | ⟨n, _ | ⟨_, _⟩⟩ := notices
    · exact .nil
    · exact List.nodup_singleton _
    · simp at hlength
  have hnew : (ids (newMessages d.fresh stamp false texts)).Nodup := by
    rw [ids_newMessages]
    exact List.nodup_range'
  have hfresh : ∀ m ∈ notices, m.id = d.fresh + texts.length := fun m hm => (hnotices m hm).1
  have hbefore : ∀ m ∈ queue ++ newMessages d.fresh stamp false texts,
      m.id < d.fresh + texts.length := by
    intro m hm
    obtain hm | hm := List.mem_append.mp hm
    · exact (h.loaded hm).trans_le (Nat.le_add_right ..)
    · exact (mem_newMessages hm).2.1
  have hall : (ids (queue ++ newMessages d.fresh stamp false texts)).Nodup := h.loaded_nodup
  have hprepared : (ids (notices ++ kept)).Nodup := by
    rw [ids_append]
    refine List.nodup_append.mpr ⟨hnotice, hall.sublist (hkept.map _), ?_⟩
    rintro a ha b hb rfl
    obtain ⟨m, hm, rfl⟩ := List.mem_map.mp ha
    obtain ⟨m', hm', heq⟩ := List.mem_map.mp hb
    have hlt := hbefore m' (hkept.subset hm')
    rw [heq, hfresh m hm] at hlt
    exact hlt.false
  refine h.move (newMessages d.fresh stamp false texts ++ notices) (fun m hm => ?_) ?_
    (fun m hm => ?_) (Nat.le_succ_of_le (Nat.le_add_right ..)) h.outbox hprepared hprepared
    (fun id taken hmem => ?_) rfl
  · obtain hm | hm := List.mem_append.mp hm
    · exact ⟨(mem_newMessages hm).1, Nat.lt_succ_of_lt (mem_newMessages hm).2.1⟩
    · rw [hfresh m hm]
      exact ⟨Nat.le_add_right .., Nat.lt_succ_self _⟩
  · rw [ids_append]
    refine List.nodup_append.mpr ⟨hnew, hnotice, ?_⟩
    rintro a ha b hb rfl
    obtain ⟨m, hm, rfl⟩ := List.mem_map.mp ha
    obtain ⟨m', hm', heq⟩ := List.mem_map.mp hb
    have hlt := (mem_newMessages hm).2.1
    rw [← heq, hfresh m' hm'] at hlt
    exact hlt.false
  · have hprep : ∀ m ∈ notices ++ kept, m ∈ d.held ++ queue ∨
        m ∈ newMessages d.fresh stamp false texts ++ notices := by
      intro m hm
      obtain hm | hm := List.mem_append.mp hm
      · exact .inr (List.mem_append_right _ hm)
      · obtain hm | hm := List.mem_append.mp (hkept.subset hm)
        · exact .inl (List.mem_append_right _ hm)
        · exact .inr (List.mem_append_left _ hm)
    obtain hm | hm := List.mem_append.mp hm
    · obtain hm | hm := Desk.mem_held.mp hm
      · exact .inl (List.mem_append_left _ (Desk.mem_held.mpr (.inl hm)))
      · exact hprep m hm
    · exact hprep m hm
  · obtain hmem | hmem := List.mem_append.mp (show .sent id taken ∈ [] ++ news ++
        d.events from hmem)
    · exact absurd hmem (hnews id taken)
    · exact .inl hmem

/-- A step that gives no identity makes no message. -/
theorem Step.messages {allow : Allowed} {c c' : Desk S × Phase} (h : Step allow c c')
    (hfresh : c'.1.fresh = c.1.fresh) :
    ∀ m ∈ c'.1.held ++ c'.2.queue, m ∈ c.1.held ++ c.2.queue := by
  intro m hm
  simp only [List.mem_append, Desk.mem_held] at hm ⊢
  cases h with
  | stop => exact .inl (hm.resolve_right List.not_mem_nil)
  | forget => exact hm
  | @recover d => exact absurd hfresh (Nat.succ_ne_self d.fresh)
  | loadOutbox => exact .inl (hm.elim id .inl)
  | @loadOwed d owed howed =>
      obtain hm | hm := hm
      · exact .inl hm
      · obtain hm | hm := List.mem_append.mp hm
        · exact .inl (.inr (by rwa [howed]))
        · exact .inl (.inl (List.mem_of_mem_filter hm))
  | @record d _ _ _ _ _ _ texts _ =>
      have hmore : d.fresh + texts.length + 1 = d.fresh := hfresh
      omega
  | copy => exact hm.elim (fun h => h.elim .inr fun h => .inl (.inr h)) .inr
  | clear => exact hm.elim (fun h => .inl (.inl (h.resolve_right List.not_mem_nil))) .inr
  | keep => exact hm
  | refused => exact .inl (hm.resolve_right List.not_mem_nil)
  | accepted => exact hm
  | rewriteOutbox =>
      exact hm.elim (fun h => h.elim (fun h => .inr (List.mem_cons_of_mem _ h)) fun h =>
          .inl (.inr h)) fun h => .inr (List.mem_cons_of_mem _ h)
  | skip => exact hm.elim .inl fun h => .inr (List.mem_cons_of_mem _ h)
  | @rewriteRecord d m' queue fields =>
      rw [Desk.owed_putRecord] at hm
      have howed : ∀ m ∈ (if queue = [] then none else some queue).getD [], m ∈ queue := by
        split_ifs <;> simp
      exact hm.elim (fun h => h.elim (fun h => .inl (.inl h)) fun h =>
          .inr (List.mem_cons_of_mem _ (howed m h))) fun h => .inr (List.mem_cons_of_mem _ h)
  | statusOnly =>
      exact .inl (.inl ((hm.resolve_right List.not_mem_nil).resolve_right List.not_mem_nil))

/-- Every step keeps order. -/
theorem Orderly.step {allow : Allowed} {c c' : Desk S × Phase} (h : Orderly c)
    (hstep : Step allow c c') : Orderly c' := by
  cases hstep with
  | @stop d phase =>
      refine h.keep (fun m hm => ?_) (le_refl _) h.outbox h.owed .nil
        (fun _ _ hmem => .inl hmem) trivial
      exact List.mem_append_left _ (by simpa [Phase.queue] using hm)
  | forget hle =>
      exact h.keep (fun m hm => hm) hle h.outbox h.owed .nil (fun _ _ hmem => .inl hmem) trivial
  | @recover d raw stamp text houtbox =>
      refine h.move (newMessages d.fresh stamp true [text]) (fun m hm => ?_) ?_
        (fun m hm => ?_) (Nat.le_succ _) ?_ h.owed .nil (fun _ _ hmem => .inl hmem) trivial
      · exact ⟨(mem_newMessages hm).1, (mem_newMessages hm).2.1⟩
      · rw [ids_newMessages]
        exact List.nodup_range'
      · simp only [Phase.queue, List.append_nil] at hm ⊢
        obtain hm | hm := Desk.mem_held.mp hm
        · exact .inr hm
        · exact .inl (Desk.mem_held.mpr (.inr hm))
      · change (ids (newMessages d.fresh stamp true [text])).Nodup
        rw [ids_newMessages]
        exact List.nodup_range'
  | @loadOutbox d howed =>
      refine h.keep (fun m hm => ?_) (le_refl _) h.outbox h.owed h.outbox
        (fun _ _ hmem => .inl hmem) trivial
      obtain hm | hm := List.mem_append.mp hm
      · exact List.mem_append_left _ hm
      · exact List.mem_append_left _ (Desk.mem_held.mpr (.inl hm))
  | @loadOwed d owed howed =>
      have howed' : ∀ m ∈ owed, m ∈ d.held := fun m hm => Desk.mem_held.mpr (.inr (by rwa [howed]))
      have hcarried : ∀ m ∈ d.outbox.messages.filter (fun m => m.content.notice && !m.isIn owed),
          m ∈ d.held :=
        fun m hm => Desk.mem_held.mpr (.inl (List.mem_of_mem_filter hm))
      refine h.keep (fun m hm => ?_) (le_refl _) h.outbox h.owed ?_
        (fun _ _ hmem => .inl (by simpa [Desk.note] using hmem)) trivial
      · refine List.mem_append_left _ ?_
        obtain hm | hm := List.mem_append.mp hm
        · exact hm
        · exact (List.mem_append.mp hm).elim (howed' m) (hcarried m)
      · change (ids (owed ++ _)).Nodup
        rw [ids_append]
        refine List.nodup_append.mpr ⟨?_, h.outbox.sublist (List.filter_sublist.map _), ?_⟩
        · have hnodup := h.owed
          rwa [howed] at hnodup
        · -- a notice with the identity of an owed message is that message, and would not be carried
          rintro a ha b hb rfl
          obtain ⟨o, ho, rfl⟩ := List.mem_map.mp ha
          obtain ⟨m, hm, heq⟩ := List.mem_map.mp hb
          obtain rfl := h.one m (List.mem_append_left _ (hcarried m hm)) o
            (List.mem_append_left _ (howed' o ho)) heq
          have hnotin := (List.mem_filter.mp hm).2
          have hin : m.isIn owed = true := List.any_eq_true.mpr ⟨m, ho, beq_self_eq_true _⟩
          rw [hin] at hnotin
          simp at hnotin
  | record name stamp texts henqueue =>
      exact h.record henqueue _ (fun _ _ hmem => by simp at hmem)
  | @copy d prepared =>
      refine h.keep (fun m hm => ?_) (le_refl _) h.queue h.owed h.queue
        (fun _ _ hmem => .inl hmem) h.knows
      obtain hm | hm := List.mem_append.mp hm
      · obtain hm | hm := Desk.mem_held.mp hm
        · exact List.mem_append_right _ hm
        · exact List.mem_append_left _ (Desk.mem_held.mpr (.inr hm))
      · exact List.mem_append_right _ hm
  | @clear d prepared fields houtbox =>
      refine h.keep (fun m hm => ?_) (le_refl _) h.outbox .nil h.queue
        (fun id taken hmem => .inl ?_) rfl
      · obtain hm | hm := List.mem_append.mp hm
        · exact List.mem_append_left _ (Desk.mem_held.mpr (.inl (Desk.held_cleared hm)))
        · exact List.mem_append_right _ hm
      · simpa [Desk.putRecord] using hmem
  | @keep d prepared _ =>
      exact h.keep (fun m hm => hm) (le_refl _) h.outbox h.owed h.queue (fun _ _ hmem => .inl hmem)
        (.inr h.knows)
  | @refused d persisted m queue taken =>
      refine h.keep (fun m' hm => ?_) (le_refl _) h.outbox h.owed .nil
        (fun id taken' hmem => ?_) trivial
      · exact List.mem_append_left _ ((List.mem_append.mp hm).resolve_right (fun h => nomatch h))
      · exact (sent_note hmem).symm.imp_right fun heq =>
          ⟨m, List.mem_append_right _ (List.mem_cons_self ..), (Event.sent.inj heq).1.symm⟩
  | @accepted d persisted m queue =>
      refine h.keep (fun m hm => hm) (le_refl _) h.outbox h.owed h.queue
        (fun id taken' hmem => ?_) ?_
      · exact (sent_note hmem).symm.imp_right fun heq =>
          ⟨m, List.mem_append_right _ (List.mem_cons_self ..), (Event.sent.inj heq).1.symm⟩
      · cases persisted with
        | true => exact ⟨h.knows, rfl⟩
        | false => exact ⟨h.knows.resolve_left (List.cons_ne_nil _ _), rfl⟩
  | @rewriteOutbox d m queue =>
      have hqueue : (ids queue).Nodup := (List.nodup_cons.mp h.queue).2
      refine h.keep (fun m' hm => ?_) (le_refl _) hqueue h.owed hqueue
        (fun _ _ hmem => .inl (by simpa [Desk.putOutbox] using hmem)) h.knows.1
      obtain hm | hm := List.mem_append.mp hm
      · obtain hm | hm := Desk.mem_held.mp hm
        · exact List.mem_append_right _ (List.mem_cons_of_mem _ hm)
        · exact List.mem_append_left _ (Desk.mem_held.mpr (.inr hm))
      · exact List.mem_append_right _ (List.mem_cons_of_mem _ hm)
  | @skip d m queue _ =>
      refine h.keep (fun m' hm => ?_) (le_refl _) h.outbox h.owed (List.nodup_cons.mp h.queue).2
        (fun _ _ hmem => .inl hmem) h.knows.1
      obtain hm | hm := List.mem_append.mp hm
      · exact List.mem_append_left _ hm
      · exact List.mem_append_right _ (List.mem_cons_of_mem _ hm)
  | @rewriteRecord d m queue fields =>
      have hqueue : (ids queue).Nodup := (List.nodup_cons.mp h.queue).2
      have hrest : ∀ m' ∈ queue, m' ∈ d.held ++ (m :: queue) := fun m' hm' =>
        List.mem_append_right _ (List.mem_cons_of_mem _ hm')
      have howed : (if queue = [] then none else some queue).getD [] = queue := by
        split_ifs with hnil
        · exact hnil.symm
        · rfl
      refine h.keep (fun m' hm => ?_) (le_refl _) h.outbox
        (by rw [Desk.owed_putRecord, howed]; exact hqueue) hqueue (fun _ _ hmem => .inl ?_) ?_
      · obtain hm | hm := List.mem_append.mp hm
        · obtain hm | hm := Desk.mem_held.mp hm
          · exact List.mem_append_left _ (Desk.mem_held.mpr (.inl hm))
          · rw [Desk.owed_putRecord, howed] at hm
            exact hrest m' hm
        · exact hrest m' hm
      · obtain hmem | hmem := List.mem_append.mp hmem
        · split_ifs at hmem <;> simp at hmem
        · exact hmem
      · by_cases hnil : queue = []
        · exact .inl hnil
        · exact .inr (if_neg hnil)
  | @statusOnly d fields _ =>
      refine h.keep (fun m hm => ?_) (le_refl _) h.outbox .nil .nil
        (fun _ _ hmem => .inl ?_) trivial
      · have hm := (List.mem_append.mp hm).resolve_right (fun h => nomatch h)
        exact List.mem_append_left _ (Desk.mem_held.mpr (.inl (Desk.held_cleared hm)))
      · simpa [Desk.putRecord] using hmem

theorem Orderly.spoil {d : Desk S} (h : Orderly (d, .idle)) (raw : Bytes) :
    Orderly (d.spoil raw, .idle) := by
  refine h.keep (fun m hm => ?_) (le_refl _) .nil h.owed .nil
    (fun _ _ hmem => .inl (by simpa [Desk.spoil] using hmem)) trivial
  simp only [Phase.queue, List.append_nil] at hm ⊢
  obtain hm | hm := Desk.mem_held.mp hm
  · exact nomatch hm
  · exact Desk.mem_held.mpr (.inr hm)

theorem Orderly.empty {d : Desk S} (h : d.IsEmpty) : Orderly (d, .idle) := by
  obtain ⟨houtbox, hstate, hevents⟩ := h
  have howed : d.owed = none := by rw [Desk.owed, hstate]
  have hheld : d.held = [] := by rw [Desk.held, houtbox, howed]; rfl
  constructor <;> simp [Phase.queue, hheld, houtbox, howed, hevents, Outbox.messages,
    ids, Phase.Knows]

/-! ## Runs of the watcher -/

/-- Runs of the watcher in a directory that held nothing; the outbox may be spoiled in between. -/
def watches (S : Type) (allow : Allowed) : Transition.System (World S) where
  init w := w.IsEmpty
  step w w' :=
    (∃ env mode, (∀ n renamed, env.write n = .raises renamed → allow.faults = true) ∧
      (mode = .statusOnly → allow.statusOnly = true) ∧ w' = (runLocked env mode w).2) ∨
    ∃ raw, w' = { w with toDesk := w.spoil raw }

/-- What holds of an empty desk, and is kept by the steps and by spoiling the outbox, holds after
any runs. -/
theorem holds_of_reachable {allow : Allowed} {I : Desk S × Phase → Prop}
    (hempty : ∀ d, d.IsEmpty → I (d, .idle)) (hstep : ∀ c c', I c → Step allow c c' → I c')
    (hspoil : ∀ d raw, I (d, .idle) → I (d.spoil raw, .idle))
    {w : World S} (h : (watches S allow).Reachable w) : I (w.toDesk, .idle) := by
  have hwalk : ∀ {c c'}, Walk allow c c' → I c → I c' := by
    intro c c' hwalk hc
    induction hwalk with
    | refl => exact hc
    | tail _ hlast ih => exact hstep _ _ ih hlast
  induction h with
  | init hinit => exact hempty _ hinit
  | @step w w' _ hrun ih =>
      obtain ⟨env, mode, hfaults, hmode, rfl⟩ | ⟨raw, rfl⟩ := hrun
      · exact hwalk (runLocked_walks env hfaults hmode w) ih
      · exact hspoil _ raw ih

end OtsServer.Watch
