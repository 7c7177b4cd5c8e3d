import OtsServer.Library.Transition
import OtsServer.Watch.Run

/-!
# The queue's protocol

What a run does to the files is a walk through a few phases: the queue is loaded, recorded,
copied to the outbox, and delivered. `Step` says what may happen in each phase, whatever is
observed and however the calls end, and `runLocked_walks` that every run is such a walk. What
is said of the watcher's runs is proved of these steps.
-/

namespace OtsServer.Watch

open Prog (Sees)

variable {S : Type}

/-- Where a run is, with the queue it has in memory. -/
inductive Phase
  | idle
  | loaded (queue : List Message)
  | recorded (prepared : List Message)
  | delivering (persisted : Bool) (queue : List Message)
  /-- The head is delivered and the rewrite for it is due. -/
  | delivered (persisted : Bool) (m : Message) (queue : List Message)

/-- Which runs there are: runs whose writes raise, and runs without `NTFY_URL`. -/
structure Allowed where
  faults : Bool
  statusOnly : Bool

/-- The steps of the allowed runs. -/
inductive Step (allow : Allowed) : Desk S × Phase → Desk S × Phase → Prop
  /-- The run ends, or the process stops. -/
  | stop {d phase} : Step allow (d, phase) (d, .idle)
  /-- Identities are given to messages that are never recorded. -/
  | forget {d : Desk S} {fresh} : d.fresh ≤ fresh →
      Step allow (d, .idle) ({ d with fresh := fresh }, .idle)
  /-- A spoiled outbox is replaced by a notice. -/
  | recover {d : Desk S} {raw stamp text} : d.outbox = .corrupt raw →
      Step allow (d, .idle)
        (({ d with fresh := d.fresh + 1 } : Desk S).putOutbox
            (newMessages d.fresh stamp true [text]) [], .idle)
  | loadOutbox {d} : d.owed = none → Step allow (d, .idle) (d, .loaded d.outbox.messages)
  | loadOwed {d owed} : d.owed = some owed →
      Step allow (d, .idle)
        (d.note (.carried
              (ids (d.outbox.messages.filter fun m => m.content.notice && !m.isIn owed))),
            .loaded (owed ++ d.outbox.messages.filter fun m => m.content.notice && !m.isIn owed))
  | record {d queue prepared lost fields} (name stamp : String) (texts : List String) :
      enqueue name stamp (d.fresh + texts.length) queue (newMessages d.fresh stamp false texts) =
        (prepared, lost) →
      Step allow (d, .loaded queue)
        (({ d with fresh := d.fresh + texts.length + 1 } : Desk S).putRecord fields (some prepared)
          [.recorded (ids (newMessages d.fresh stamp false texts)) (ids lost) (headTotal prepared)],
            .recorded prepared)
  | copy {d prepared} :
      Step allow (d, .recorded prepared) (d.putOutbox prepared [], .recorded prepared)
  | clear {d prepared fields} : d.outbox.messages = prepared →
      Step allow (d, .recorded prepared) (d.putRecord fields none [], .delivering true prepared)
  | keep {d prepared} : allow.faults = true →
      Step allow (d, .recorded prepared) (d, .delivering false prepared)
  | refused {d persisted m queue taken} :
      Step allow (d, .delivering persisted (m :: queue)) (d.note (.sent m.id taken), .idle)
  | accepted {d persisted m queue} :
      Step allow (d, .delivering persisted (m :: queue)) (d.note (.sent m.id true),
          .delivered persisted m queue)
  | rewriteOutbox {d m queue} :
      Step allow (d, .delivered true m queue) (d.putOutbox queue [.rewritten],
          .delivering true queue)
  | skip {d m queue} : allow.faults = true →
      Step allow (d, .delivered true m queue) (d, .delivering true queue)
  | rewriteRecord {d m queue fields} :
      Step allow (d, .delivered false m queue)
        (d.putRecord fields (if queue = [] then none else some queue) [.rewritten],
            .delivering false queue)
  /-- A run without `NTFY_URL`. -/
  | statusOnly {d fields} : allow.statusOnly = true →
      Step allow (d, .idle) (d.putRecord fields none [], .idle)

/-- A walk through the phases. -/
def Walk (allow : Allowed) : Desk S × Phase → Desk S × Phase → Prop :=
  Relation.ReflTransGen (Step allow)

/-! ## Calls -/

/-- How a write of these surroundings may fail. -/
def Env.Fails (env : Env S) (e : Fault) : Prop :=
  e = .stop ∨ e = .osError ∧ ∃ n renamed, env.write n = .raises renamed

section Calls

variable (env : Env S) {s : Desk S} {E : Fault → Desk S → Prop}

theorem Sees.readCall {unreadable : Fault} {Q : Unit → Desk S → Prop} (hok : Q () s)
    (herr : ∀ e, E e s) : Sees World.toDesk (readCall env unreadable) Q E s := by
  refine ⟨?_⟩
  rintro w rfl
  cases h : env.read w.calls with
  | done =>
      exact Prog.wp_of_ok (t := { w with calls := w.calls + 1 }) (by rw [Watch.readCall, h]) hok
  | raises =>
      exact Prog.wp_of_error (t := { w with calls := w.calls + 1 })
        (by rw [Watch.readCall, h]) (herr _)
  | stops =>
      exact Prog.wp_of_error (t := { w with calls := w.calls + 1 })
        (by rw [Watch.readCall, h]) (herr _)

theorem Sees.writeAtomic {rename : Desk S → Desk S} {Q : Unit → Desk S → Prop}
    (hok : Q () (rename s)) (herr : ∀ e, env.Fails e → E e s ∧ E e (rename s)) :
    Sees World.toDesk (writeAtomic env rename) Q E s := by
  refine ⟨?_⟩
  rintro w rfl
  cases h : env.write w.calls with
  | done =>
      exact Prog.wp_of_ok (t := ⟨rename w.toDesk, w.calls + 1⟩)
        (by rw [Watch.writeAtomic, h]; rfl) hok
  | raises renamed =>
      obtain ⟨hbefore, hafter⟩ := herr .osError (.inr ⟨rfl, _, _, h⟩)
      cases renamed with
      | false =>
          exact Prog.wp_of_error (t := ⟨w.toDesk, w.calls + 1⟩)
            (by rw [Watch.writeAtomic, h]; rfl) hbefore
      | true =>
          exact Prog.wp_of_error (t := ⟨rename w.toDesk, w.calls + 1⟩)
            (by rw [Watch.writeAtomic, h]; rfl) hafter
  | stops renamed =>
      obtain ⟨hbefore, hafter⟩ := herr .stop (.inl rfl)
      cases renamed with
      | false =>
          exact Prog.wp_of_error (t := ⟨w.toDesk, w.calls + 1⟩)
            (by rw [Watch.writeAtomic, h]; rfl) hbefore
      | true =>
          exact Prog.wp_of_error (t := ⟨rename w.toDesk, w.calls + 1⟩)
            (by rw [Watch.writeAtomic, h]; rfl) hafter

theorem Sees.writeOther {Q : Unit → Desk S → Prop} (hok : Q () s) (herr : ∀ e, E e s) :
    Sees World.toDesk (writeOther env) Q E s :=
  Sees.writeAtomic env hok fun e _ => ⟨herr e, herr e⟩

/-- A write that may raise and is gone on from. -/
theorem Sees.tried {m : M S Unit} {Q : Bool → Desk S → Prop} (h : Sees World.toDesk m
      (fun _ => Q true) (fun e t => if e = .osError then Q false t else E e t) s) :
    Sees World.toDesk (tried m) Q E s := by
  refine .catching
    (.bind (h.mono (fun _ t ht => .pure ht) fun e t ht => ⟨fun n hn => ?_, fun hn => ?_⟩))
  · split_ifs at hn with he
    obtain rfl := Option.some.inj hn
    rw [if_pos he] at ht
    exact .pure ht
  · split_ifs at hn with he
    rwa [if_neg he] at ht

theorem Sees.send {m : Message} {Q : Bool → Desk S → Prop} (hok : Q true (s.note (.sent m.id true)))
    (hrefused : ∀ taken, Q false (s.note (.sent m.id taken)))
    (hstop : ∀ taken, E .stop (s.note (.sent m.id taken))) :
    Sees World.toDesk (send env m) Q E s := by
  refine ⟨?_⟩
  rintro w rfl
  cases h : env.send w.calls with
  | accepted => exact Prog.wp_of_ok (by rw [Watch.send, h]) hok
  | refused taken => exact Prog.wp_of_ok (by rw [Watch.send, h]) (hrefused taken)
  | stops taken => exact Prog.wp_of_error (by rw [Watch.send, h]) (hstop taken)

omit env in
theorem Sees.note {e : Event} {Q : Unit → Desk S → Prop} (h : Q () (s.note e)) :
    Sees World.toDesk (note e) Q E s :=
  .modify (g := fun d => d.note e) (fun _ => rfl) h

theorem Sees.makeMessages {stamp : String} {notice : Bool} {texts : List String}
    {Q : List Message → Desk S → Prop}
    (h : Q (newMessages s.fresh stamp notice texts) { s with fresh := s.fresh + texts.length }) :
    Sees World.toDesk (makeMessages stamp notice texts) Q E s := by
  refine ⟨?_⟩
  rintro w rfl
  exact Prog.wp_of_ok rfl h

end Calls

/-! ## A run is a walk -/

section Walks

variable (env : Env S) {allow : Allowed} {d₀ d : Desk S}

theorem Walk.ends {phase : Phase} (h : Walk allow (d₀, .idle) (d, phase)) :
    Walk allow (d₀, .idle) (d, .idle) :=
  .tail h .stop

theorem Walk.forget {fresh : Nat} (h : Walk allow (d₀, .idle) (d, .idle))
    (hfresh : d.fresh ≤ fresh) : Walk allow (d₀, .idle) ({ d with fresh := fresh }, .idle) :=
  .tail h (.forget hfresh)

/-- Where a run stands when it is over. -/
abbrev Over (allow : Allowed) (d₀ d : Desk S) : Prop := Walk allow (d₀, .idle) (d, .idle)

theorem loadOutbox_walks (h : Over allow d₀ d) :
    Sees World.toDesk (loadOutbox env) (fun loaded d' => Over allow d₀ d' ∧
        d'.outbox.messages = loaded ∧ d'.owed = d.owed) (fun _ => Over allow d₀) d := by
  refine .bind (Sees.readCall env (.bind (.gets (g := Desk.outbox) (fun _ => rfl) ?_)) fun _ => h)
  cases houtbox : d.outbox with
  | missing => exact .pure ⟨h, by rw [houtbox]; rfl, rfl⟩
  | queue messages => exact .pure ⟨h, by rw [houtbox]; rfl, rfl⟩
  | corrupt raw =>
      refine .bind (Sees.writeOther env
          (.bind (.gets_any fun stamp => .bind (Sees.makeMessages ?_))) fun _ => h)
      have hrecover : ∀ text, Over allow d₀ (({ d with fresh := d.fresh + 1 } : Desk S).putOutbox
          (newMessages d.fresh stamp true [text]) []) := fun _ => .tail h (Step.recover houtbox)
      refine .bind (Sees.writeAtomic env (.pure ⟨hrecover _, rfl, rfl⟩) fun e _ =>
          ⟨h.forget (Nat.le_succ _), hrecover _⟩)

theorem loadQueue_walks (h : Over allow d₀ d) :
    Sees World.toDesk (loadQueue env d.owed)
      (fun queue d' => Walk allow (d₀, .idle) (d', .loaded queue)) (fun _ => Over allow d₀) d := by
  refine .bind ((loadOutbox_walks env h).mono ?_ fun _ _ h => h)
  rintro loaded d' ⟨hover, rfl, howed⟩
  cases hd : d.owed with
  | none => exact .pure (.tail hover (.loadOutbox (howed.trans hd)))
  | some owed =>
      have hcarried := Relation.ReflTransGen.tail hover (Step.loadOwed (howed.trans hd))
      exact .bind (Sees.note (.pure hcarried))

variable (hfaults : ∀ n renamed, env.write n = .raises renamed → allow.faults = true)

include hfaults

theorem deliver_walks {fields : S} {persisted : Bool} {queue : List Message}
    (h : Walk allow (d₀, .idle) (d, .delivering persisted queue)) :
    Sees World.toDesk (deliver env fields persisted queue) (fun _ => Over allow d₀)
      (fun _ => Over allow d₀) d := by
  induction queue generalizing d with
  | nil => exact .pure h.ends
  | cons m queue ih =>
      refine .bind (Sees.send env (.ite (fun _ => ?_) fun hnot => absurd rfl hnot)
        (fun taken => .ite (fun hsent => nomatch hsent) fun _ => .pure (.tail h .refused))
          fun taken => .tail h .refused)
      have haccepted := Relation.ReflTransGen.tail h Step.accepted
      cases persisted with
      | true =>
          have hrewritten := Relation.ReflTransGen.tail haccepted Step.rewriteOutbox
          refine .ite (fun _ =>
              .bind (Sees.tried (Sees.writeAtomic env (ih hrewritten) fun e he => ?_)))
            fun hnot => absurd rfl hnot
          obtain rfl | ⟨rfl, n, renamed, hraises⟩ := he
          · exact ⟨Walk.ends haccepted, Walk.ends hrewritten⟩
          · exact ⟨ih (.tail haccepted (.skip (hfaults n renamed hraises))), ih hrewritten⟩
      | false =>
          have hrewritten := Relation.ReflTransGen.tail haccepted
            (show Step allow _ (Desk.putRecord _ fields _ _, _) from Step.rewriteRecord)
          refine .ite (fun hnot => nomatch hnot) fun _ =>
            .bind (Sees.tried (Sees.writeAtomic env ?_ fun e he => ?_))
          · exact .ite (fun _ => ih hrewritten) fun hnot => absurd rfl hnot
          · obtain rfl | ⟨rfl, n, renamed, hraises⟩ := he
            · exact ⟨Walk.ends haccepted, Walk.ends hrewritten⟩
            · exact ⟨.ite (fun hnot => nomatch hnot) fun _ => .pure (Walk.ends haccepted),
                .ite (fun hnot => nomatch hnot) fun _ => .pure (Walk.ends hrewritten)⟩

theorem settle_walks {fields : S} {prepared : List Message}
    (h : Walk allow (d₀, .idle) (d, .recorded prepared)) :
    Sees World.toDesk (settle env fields prepared) (fun _ => Over allow d₀)
      (fun _ => Over allow d₀) d := by
  have hdeliver : ∀ {d persisted}, Walk allow (d₀, .idle) (d, .delivering persisted prepared) →
      Sees World.toDesk (do
        let queue ← deliver env fields persisted prepared
        if queue.length ≠ prepared.length then
          writeOther env
          pure (if queue = [] then 0 else 1)
        else pure (if queue = [] then 0 else 1)) (fun _ => Over allow d₀)
            (fun _ => Over allow d₀) d := by
    intro d persisted h
    refine .bind ((deliver_walks env hfaults h).mono (fun queue d' h => ?_) fun _ _ h => h)
    exact .ite (fun _ => .bind (Sees.writeOther env (.pure h) fun _ => h)) fun _ => .pure h
  have hcopied := Relation.ReflTransGen.tail h Step.copy
  have hcleared := Relation.ReflTransGen.tail hcopied
    (show Step allow _ (Desk.putRecord _ fields _ _, _) from Step.clear rfl)
  refine .bind (Sees.tried (Sees.writeAtomic env ?_ fun e he => ?_))
  · refine .bind (Sees.tried (Sees.writeAtomic env ?_ fun e he => ?_))
    · exact .ite (fun _ => hdeliver hcleared) fun hnot => absurd rfl hnot
    · obtain rfl | ⟨rfl, _⟩ := he
      · exact ⟨Walk.ends hcopied, Walk.ends hcleared⟩
      · exact ⟨.ite (fun hnot => nomatch hnot) fun _ => .pure (Walk.ends hcopied),
          .ite (fun hnot => nomatch hnot) fun _ => .pure (Walk.ends hcleared)⟩
  · obtain rfl | ⟨rfl, n, renamed, hraises⟩ := he
    · exact ⟨Walk.ends h, Walk.ends hcopied⟩
    · have hkeep := fun {d} (h : Walk allow (d₀, .idle) (d, .recorded prepared)) =>
        hdeliver (.tail h (.keep (hfaults n renamed hraises)))
      exact ⟨.bind (.pure (.ite (fun _ => hkeep h) fun hnot => absurd rfl hnot)),
        .bind (.pure (.ite (fun _ => hkeep hcopied) fun hnot => absurd rfl hnot))⟩

theorem record_walks {fields : S} {queue : List Message} {texts : List String}
    (h : Walk allow (d₀, .idle) (d, .loaded queue)) :
    Sees World.toDesk (record env fields queue texts) (fun _ => Over allow d₀)
      (fun _ => Over allow d₀) d := by
  refine .bind (.gets_any fun stamp =>
      .bind (Sees.makeMessages (.bind (.gets (g := Desk.fresh) (fun _ => rfl)
        (.bind (.modify (g := fun d => { d with fresh := d.fresh + 1 }) (fun _ => rfl) ?_))))))
  have hforgot : Over allow d₀ { d with fresh := d.fresh + texts.length + 1 } :=
    h.ends.forget (show d.fresh ≤ d.fresh + texts.length + 1 by omega)
  refine .bind (Sees.writeOther env (.bind ?_) fun _ => hforgot)
  have hrecord := Relation.ReflTransGen.tail h
    (show Step allow _ (Desk.putRecord _ fields _ _, _) from Step.record env.name stamp texts rfl)
  exact Sees.writeAtomic env (settle_walks env hfaults hrecord) fun e _ =>
    ⟨hforgot, Walk.ends hrecord⟩

omit hfaults in
theorem loadState_walks (h : Over allow d₀ d) (aside : Bool) :
    Sees World.toDesk (loadState env aside) (fun r d' => Over allow d₀ d' ∧
        d'.owed = r.1.bind Record.owed) (fun _ => Over allow d₀) d := by
  refine .bind (Sees.readCall env (.bind (.gets (g := Desk.state) (fun _ => rfl) ?_)) fun _ => h)
  cases hstate : d.state with
  | missing => exact .pure ⟨h, by rw [Desk.owed, hstate]; rfl⟩
  | record r => exact .pure ⟨h, by rw [Desk.owed, hstate]; rfl⟩
  | corrupt raw =>
      have howed : d.owed = none := by rw [Desk.owed, hstate]
      exact .ite (fun _ => .bind (Sees.writeOther env (.pure ⟨h, howed⟩) fun _ => h)) fun _ =>
        .pure ⟨h, howed⟩

theorem runBody_walks {mode : Mode} (hmode : mode = .statusOnly → allow.statusOnly = true)
    (h : Over allow d₀ d) :
    Sees World.toDesk (runBody env mode) (fun _ => Over allow d₀) (fun _ => Over allow d₀) d := by
  refine .bind ((loadState_walks env h _).mono ?_ fun _ _ h => h)
  rintro ⟨state, notices⟩ d₁ ⟨hover, howed⟩
  refine .ite (fun _ => ?_) fun _ => .bind (.ofExcept (fun decided _ => ?_) fun _ _ => hover)
  · have hload := loadQueue_walks env hover
    rw [howed] at hload
    refine .bind (hload.mono (fun queue d₂ hloaded => ?_) fun _ _ h => h)
    exact .bind (.ofExcept (fun decided _ => record_walks env hfaults hloaded) fun _ _ =>
        hloaded.ends)
  · refine .bind
      (Sees.writeOther env (.ite (fun hstatus => ?_) fun _ => .pure hover) fun _ => hover)
    have hstatus := Relation.ReflTransGen.tail hover
      (show Step allow _ (Desk.putRecord _ decided.1 _ _, _) from Step.statusOnly (hmode hstatus))
    exact .bind (Sees.writeAtomic env (.pure hstatus) fun _ _ => ⟨hover, hstatus⟩)

/-- What a run does to the files is a walk through the phases. -/
theorem runLocked_walks {mode : Mode} (hmode : mode = .statusOnly → allow.statusOnly = true)
    (w : World S) : Over allow w.toDesk (runLocked env mode w).2.toDesk := by
  have hstart : Over allow w.toDesk w.toDesk := .refl
  refine Sees.apply (.catching ((runBody_walks env hfaults hmode hstart).mono
        (fun _ _ h => h) fun e d h => ⟨fun n hn => ?_, fun _ => h⟩))
  split_ifs at hn
  obtain rfl := Option.some.inj hn
  exact .pure h

end Walks

end OtsServer.Watch
