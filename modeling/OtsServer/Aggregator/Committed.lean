import OtsServer.Aggregator.Threads

/-!
# An acknowledged digest is committed, once

Four facts hold of every reachable state, each proved from what one step keeps: the lock
admits one thread (`Locked`), every number handed out names one fresh registration
(`Named`), every leaf put on the queue is in exactly one place (`Queued`) and a round's
lists and count are those of its leaves (`Gathered`). From them a set event means a
committed round or a recorded failure (`Woken`), which is what a returning submitter has
checked.

A round has failed once the loop has recorded the failure: `self.failure` is what every
submitter reads.
-/

namespace OtsServer.Aggregator

variable {M : Type*} {config : Config} {s : State M}

@[simp] theorem State.setSubmitter_self (s : State M) (t : Tid) (pc : Submitter M) :
    (s.setSubmitter t pc).submitter t = pc := Function.update_self ..

theorem State.setSubmitter_of_ne (s : State M) {t u : Tid} (pc : Submitter M) (h : u ≠ t) :
    (s.setSubmitter t pc).submitter u = s.submitter u := Function.update_of_ne h ..

/-- What a state says of every submitter is kept when one submitter moves, if it holds of
where that one has moved to. -/
theorem forall_setSubmitter {P : Tid → Submitter M → Prop} {t : Tid} (pc : Submitter M)
    (hpc : P t pc) (h : ∀ u, P u (s.submitter u)) :
    ∀ u, P u ((s.setSubmitter t pc).submitter u) := by
  intro u
  by_cases hu : u = t
  · subst hu
    simpa using hpc
  · simpa only [s.setSubmitter_of_ne pc hu] using h u

theorem Submitter.Advance.not_holding {s : State M} {pc pc' : Submitter M}
    (h : Submitter.Advance s pc pc') : ¬pc'.Holding := by
  cases h <;> exact id

/-- A step that touches nothing shared keeps the ticket or gives it up. -/
theorem Submitter.Advance.ticket {s : State M} {pc pc' : Submitter M}
    (h : Submitter.Advance s pc pc') {c : Call M} {id : Nat} (ht : pc'.ticket = some (c, id)) :
    pc.ticket = some (c, id) := by
  cases h <;> first | exact ht | cases ht

theorem Submitter.Advance.ne_putting {s : State M} {pc pc' : Submitter M}
    (h : Submitter.Advance s pc pc') (c : Call M) (id : Nat) : pc' ≠ .putting c id := by
  rintro rfl
  exact h.not_holding trivial

/-! ## The lock -/

/-- Only the thread that has the lock is inside the `with`. -/
def Locked (s : State M) : Prop := ∀ t, (s.submitter t).Holding → s.lock = some t

theorem Locked.eq {s : State M} (h : Locked s) {t u : Tid} (ht : (s.submitter t).Holding)
    (hu : (s.submitter u).Holding) : t = u :=
  Option.some_inj.1 ((h t ht).symm.trans (h u hu))

theorem locked_inductive [DecidableEq M] : (system (M := M) config).Inductive Locked where
  init := by
    rintro s rfl t ht
    exact ht.elim
  step := by
    intro s s' _ h hstep
    cases hstep with
    | submitter t hadv =>
        exact forall_setSubmitter (P := fun u pc => pc.Holding → s.lock = some u) _
          (fun hh => absurd hh hadv.not_holding) h
    | @acquire t c now ht hfree =>
        intro u hu
        by_cases hut : u = t
        · rw [hut]
        · have hu' : (s.submitter u).Holding := by
            simpa only [s.setSubmitter_of_ne _ hut] using hu
          rw [h u hu'] at hfree
          cases hfree
    | attach t ht _ =>
        have hlock := h t (by rw [ht]; trivial)
        exact forall_setSubmitter (P := fun u pc => pc.Holding → s.lock = some u) _
          (fun _ => hlock) h
    | create t ht _ =>
        have hlock := h t (by rw [ht]; trivial)
        exact forall_setSubmitter (P := fun u pc => pc.Holding → s.lock = some u) _
          (fun _ => hlock) h
    | put t ht =>
        have hlock := h t (by rw [ht]; trivial)
        exact forall_setSubmitter (P := fun u pc => pc.Holding → s.lock = some u) _
          (fun _ => hlock) h
    | @release t c id ht =>
        intro u hu
        by_cases hut : u = t
        · subst hut
          simp only [State.setSubmitter_self] at hu
          exact hu.elim
        · have hu' : (s.submitter u).Holding := by
            simpa only [s.setSubmitter_of_ne _ hut] using hu
          exact absurd (h.eq hu' (by rw [ht]; trivial)) hut
    | _ => exact h

/-! ## Numbers -/

/-- The fresh registration of a number by a call of that message. -/
def FreshFor (s : State M) (id : Nat) (msg : M) : Prop :=
  ∃ f ∈ s.registered, f.fresh ∧ f.id = id ∧ f.call.msg = msg

/-- Every number in use was registered afresh once, first, for the same message. -/
structure Named (s : State M) : Prop where
  lt : ∀ r ∈ s.registered, r.id < s.nextId
  first : ∀ l₁ r l₂, s.registered = l₁ ++ r :: l₂ → (r.fresh ↔ ∀ r' ∈ l₁, r'.id ≠ r.id)
  same : ∀ r ∈ s.registered, FreshFor s r.id r.call.msg
  recent : ∀ e ∈ s.recent, FreshFor s e.2.id e.1
  ticket : ∀ t c id, (s.submitter t).ticket = some (c, id) → FreshFor s id c.msg
  putting : ∀ t c id, s.submitter t = .putting c id → ⟨c, id, true⟩ ∈ s.registered

/-- Two fresh registrations of one number are one. -/
theorem Named.unique (h : Named s) {f g : Registration M} (hf : f ∈ s.registered)
    (hg : g ∈ s.registered) (hff : f.fresh) (hgf : g.fresh) (hid : f.id = g.id) : f = g := by
  obtain ⟨l₁, l₂, hl⟩ := List.append_of_mem hf
  have hg' : g ∈ l₁ ∨ g = f ∨ g ∈ l₂ := by simpa [hl] using hg
  rcases hg' with hg' | rfl | hg'
  · exact absurd hid.symm (((h.first l₁ f l₂ hl).1 hff) g hg')
  · rfl
  · obtain ⟨k₁, k₂, rfl⟩ := List.append_of_mem hg'
    have hl' : s.registered = (l₁ ++ f :: k₁) ++ g :: k₂ := by simp [hl]
    exact absurd hid (((h.first _ g k₂ hl').1 hgf) f (by simp))

theorem FreshFor.mono {s' : State M} {id : Nat} {msg : M} (h : FreshFor s id msg)
    (hsub : s.registered ⊆ s'.registered) : FreshFor s' id msg := by
  obtain ⟨f, hf, h⟩ := h
  exact ⟨f, hsub hf, h⟩

theorem Recent.mem_of_find [DecidableEq M] {recent : Recent M} {msg : M} {entry : Entry}
    (h : recent.find msg = some entry) : (msg, entry) ∈ recent := by
  obtain ⟨⟨m, e⟩, he, rfl⟩ := Option.map_eq_some_iff.1 h
  have hm : m = msg := by simpa using List.find?_some he
  exact hm ▸ List.mem_of_find?_eq_some he

theorem Recent.mem_of_mem_purge {now : ℚ} {recent : Recent M} {e : M × Entry}
    (h : e ∈ recent.purge now) : e ∈ recent :=
  (List.dropWhile_sublist _).subset h

theorem Recent.mem_refresh [DecidableEq M] {now : ℚ} {msg : M} {id : Nat} {recent : Recent M}
    {e : M × Entry} (h : e ∈ recent.refresh config now msg id) :
    e ∈ recent ∨ e.1 = msg ∧ e.2.id = id := by
  rcases List.mem_append.1 h with h | h
  · exact .inl (List.mem_filter.1 h).1
  · obtain rfl := List.mem_singleton.1 h
    exact .inr ⟨rfl, rfl⟩

theorem Recent.mem_add {now : ℚ} {msg : M} {id : Nat} {recent : Recent M} {e : M × Entry}
    (h : e ∈ recent.add config now msg id) : e ∈ recent ∨ e.1 = msg ∧ e.2.id = id := by
  have h' : e ∈ recent ++ [(msg, ⟨now + config.dedupeHorizon, id⟩)] := by
    simp only [Recent.add] at h
    split_ifs at h
    · exact List.mem_of_mem_tail h
    · exact h
  rcases List.mem_append.1 h' with h' | h'
  · exact .inl h'
  · obtain rfl := List.mem_singleton.1 h'
    exact .inr ⟨rfl, rfl⟩

/-- Appending a registration keeps who was first, when it is fresh exactly if its number
is new. -/
theorem first_append {l : List (Registration M)} {x : Registration M}
    (h : ∀ l₁ r l₂, l = l₁ ++ r :: l₂ → (r.fresh ↔ ∀ r' ∈ l₁, r'.id ≠ r.id))
    (hx : x.fresh ↔ ∀ r' ∈ l, r'.id ≠ x.id) :
    ∀ l₁ r l₂, l ++ [x] = l₁ ++ r :: l₂ → (r.fresh ↔ ∀ r' ∈ l₁, r'.id ≠ r.id) := by
  intro l₁ r l₂ heq
  rcases List.eq_nil_or_concat l₂ with rfl | ⟨l₃, y, rfl⟩
  · obtain ⟨rfl, hr⟩ := List.append_inj' heq rfl
    obtain rfl := List.singleton_inj.1 hr
    exact hx
  · have heq' : l ++ [x] = (l₁ ++ r :: l₃) ++ [y] := by simpa using heq
    exact h l₁ r l₃ (List.append_inj' heq' rfl).1

/-- A submitter that moves keeps the numbers named when it has no new ticket and puts
nothing. -/
theorem Named.setSubmitter (h : Named s) (t : Tid) (pc : Submitter M)
    (hticket : ∀ c id, pc.ticket = some (c, id) → (s.submitter t).ticket = some (c, id))
    (hput : ∀ c id, pc ≠ .putting c id) : Named (s.setSubmitter t pc) :=
  { h with
    ticket := forall_setSubmitter
      (P := fun _ pc => ∀ c id, pc.ticket = some (c, id) → FreshFor s id c.msg) pc
      (fun c id hid => h.ticket t c id (hticket c id hid)) h.ticket
    putting := forall_setSubmitter
      (P := fun _ pc => ∀ c id, pc = .putting c id → ⟨c, id, true⟩ ∈ s.registered) pc
      (fun c id hid => absurd hid (hput c id)) h.putting }

theorem named_inductive [DecidableEq M] : (system (M := M) config).Inductive Named where
  init := by
    rintro s rfl
    exact ⟨by simp [State.start], by simp [State.start], by simp [State.start],
      by simp [State.start], by simp [State.start, Submitter.ticket], by simp [State.start]⟩
  step := by
    intro s s' hs h hstep
    cases hstep with
    | submitter t hadv =>
        exact h.setSubmitter t _ (fun c id => hadv.ticket) hadv.ne_putting
    | @acquire t c now ht _ =>
        exact { h.setSubmitter t (.locked c now) nofun nofun with }
    | @attach t c now entry ht hfind =>
        have hentry : FreshFor s entry.id c.msg :=
          h.recent _ (Recent.mem_of_mem_purge (Recent.mem_of_find hfind))
        have hsub : s.registered ⊆ s.registered ++ [⟨c, entry.id, false⟩] := by simp
        refine ⟨?_, first_append h.first ?_, ?_, ?_, ?_, ?_⟩
        · intro r hr
          rcases List.mem_append.1 hr with hr | hr
          · exact h.lt r hr
          · obtain rfl := List.mem_singleton.1 hr
            obtain ⟨f, hf, -, hid, -⟩ := hentry
            exact hid ▸ h.lt f hf
        · obtain ⟨f, hf, -, hid, -⟩ := hentry
          exact ⟨by simp, fun hnew => absurd hid (hnew f hf)⟩
        · intro r hr
          rcases List.mem_append.1 hr with hr | hr
          · exact (h.same r hr).mono hsub
          · obtain rfl := List.mem_singleton.1 hr
            exact hentry.mono hsub
        · intro e he
          rcases Recent.mem_refresh he with he | ⟨hm, hid⟩
          · exact (h.recent e (Recent.mem_of_mem_purge he)).mono hsub
          · rw [hm, hid]
            exact hentry.mono hsub
        · refine forall_setSubmitter
            (P := fun _ pc => ∀ c id, pc.ticket = some (c, id) → FreshFor _ id c.msg) _ ?_
            fun u c id hid => (h.ticket u c id hid).mono hsub
          intro c' id hid
          obtain ⟨rfl, rfl⟩ := Prod.mk.inj (Option.some_inj.1 hid)
          exact hentry.mono hsub
        · exact forall_setSubmitter
            (P := fun _ pc => ∀ c' id, pc = .putting c' id →
              ⟨c', id, true⟩ ∈ s.registered ++ [⟨c, entry.id, false⟩])
            (.leaving c entry.id) nofun fun u c id hid => hsub (h.putting u c id hid)
    | @create t c now ht hfind =>
        have hsub : s.registered ⊆ s.registered ++ [⟨c, s.nextId, true⟩] := by simp
        have hmem : ⟨c, s.nextId, true⟩ ∈ s.registered ++ [⟨c, s.nextId, true⟩] := by simp
        refine ⟨?_, first_append h.first ?_, ?_, ?_, ?_, ?_⟩
        · intro r hr
          rcases List.mem_append.1 hr with hr | hr
          · exact Nat.lt_succ_of_lt (h.lt r hr)
          · obtain rfl := List.mem_singleton.1 hr
            exact Nat.lt_succ_self _
        · exact ⟨fun _ r hr => (h.lt r hr).ne, fun _ => rfl⟩
        · intro r hr
          rcases List.mem_append.1 hr with hr | hr
          · exact (h.same r hr).mono hsub
          · obtain rfl := List.mem_singleton.1 hr
            exact ⟨_, hmem, rfl, rfl, rfl⟩
        · intro e he
          rcases Recent.mem_add he with he | ⟨hm, hid⟩
          · exact (h.recent e (Recent.mem_of_mem_purge he)).mono hsub
          · rw [hm, hid]
            exact ⟨_, hmem, rfl, rfl, rfl⟩
        · refine forall_setSubmitter
            (P := fun _ pc => ∀ c id, pc.ticket = some (c, id) → FreshFor _ id c.msg) _ ?_
            fun u c id hid => (h.ticket u c id hid).mono hsub
          intro c' id hid
          obtain ⟨rfl, rfl⟩ := Prod.mk.inj (Option.some_inj.1 hid)
          exact ⟨_, hmem, rfl, rfl, rfl⟩
        · refine forall_setSubmitter
            (P := fun _ pc => ∀ c' id, pc = .putting c' id →
              ⟨c', id, true⟩ ∈ s.registered ++ [⟨c, s.nextId, true⟩]) _ ?_
            fun u c id hid => hsub (h.putting u c id hid)
          intro c' id hid
          obtain ⟨rfl, rfl⟩ := Submitter.putting.inj hid
          exact hmem
    | @put t c id ht =>
        exact { h.setSubmitter t (.leaving c id) (fun _ _ hid => ht ▸ hid) nofun with }
    | @release t c id ht =>
        exact { h.setSubmitter t (.waiting c id) (fun _ _ hid => ht ▸ hid) nofun with }
    | _ => exact { h with }

/-! ## Leaves -/

/-- The leaves of the round that is being drained. -/
def Loop.gathering : Loop M → List (Leaf M)
  | draining r => r.digests
  | _ => []

/-- The round whose leaves are drained, from the call of `Calendar.submit` to its end. -/
def Loop.round? : Loop M → Option (Round M)
  | submitting r | syncing r | synced r | failed r | recorded r => some r
  | _ => none

def Registration.leaf (r : Registration M) : Leaf M := ⟨r.id, r.call.msg, r.call.counted⟩

/-- Every leaf put on the queue is in one round, in the round being drained or still on the
queue, once, and is the leaf of a fresh registration. -/
structure Queued (s : State M) : Prop where
  places : s.puts = s.rounds.flatMap Round.digests ++ s.loop.gathering ++ s.queue
  nodup : (s.puts.map Leaf.id).Nodup
  fresh : ∀ leaf ∈ s.puts, ∃ f ∈ s.registered, f.fresh ∧ leaf = f.leaf
  notYet : ∀ t c id, s.submitter t = .putting c id → ∀ leaf ∈ s.puts, leaf.id ≠ id

/-- A submitter that moves keeps the leaves queued when it is not about to put one. -/
theorem Queued.setSubmitter (h : Queued s) (t : Tid) (pc : Submitter M)
    (hput : ∀ c id, pc ≠ .putting c id) : Queued (s.setSubmitter t pc) :=
  { h with
    notYet := forall_setSubmitter
      (P := fun _ pc => ∀ c id, pc = .putting c id → ∀ leaf ∈ s.puts, leaf.id ≠ id) pc
      (fun c id hid => absurd hid (hput c id)) h.notYet }

/-- What the loop does between two rounds gathers nothing. -/
theorem Loop.Advance.gathering {pc : Loop M} (h : Loop.Advance s s.loop pc) :
    pc.gathering = s.loop.gathering := by
  cases hpc : s.loop <;> rw [hpc] at h <;> cases h <;> first | rfl | skip
  next hnone => exact hnone.symm

theorem queued_inductive [DecidableEq M] : (system (M := M) config).Inductive Queued where
  init := by
    rintro s rfl
    exact ⟨rfl, by simp [State.start], by simp [State.start], by simp [State.start]⟩
  step := by
    intro s s' hs h hstep
    have hnamed := named_inductive.reachable hs
    have hlocked := locked_inductive.reachable hs
    cases hstep with
    | submitter t hadv => exact h.setSubmitter t _ hadv.ne_putting
    | @acquire t c now ht _ => exact { h.setSubmitter t (.locked c now) nofun with }
    | @attach t c now entry ht _ =>
        exact
          { h.setSubmitter t (.leaving c entry.id) nofun with
            fresh := fun leaf hleaf => by
              obtain ⟨f, hf, h⟩ := h.fresh leaf hleaf
              exact ⟨f, List.mem_append_left _ hf, h⟩ }
    | @create t c now ht _ =>
        refine ⟨h.places, h.nodup, fun leaf hleaf => ?_, ?_⟩
        · obtain ⟨f, hf, h⟩ := h.fresh leaf hleaf
          exact ⟨f, List.mem_append_left _ hf, h⟩
        · refine forall_setSubmitter
            (P := fun _ pc => ∀ c id, pc = .putting c id → ∀ leaf ∈ s.puts,
                leaf.id ≠ id) _ ?_ h.notYet
          intro c' id hid leaf hleaf
          obtain ⟨rfl, rfl⟩ := Submitter.putting.inj hid
          obtain ⟨f, hf, -, rfl⟩ := h.fresh leaf hleaf
          exact (hnamed.lt f hf).ne
    | @put t c id ht =>
        refine ⟨?_, ?_, ?_, ?_⟩
        · change s.puts ++ _ = _ ++ (s.queue ++ _)
          rw [h.places, List.append_assoc, List.append_assoc, List.append_assoc]
          rfl
        · have hnew := h.notYet t c id ht
          change (List.map Leaf.id (s.puts ++ [_])).Nodup
          rw [List.map_append, List.nodup_append]
          refine ⟨h.nodup, by simp, ?_⟩
          rintro a ha b hb rfl
          obtain ⟨leaf, hleaf, rfl⟩ := List.mem_map.1 ha
          exact hnew leaf hleaf (by simpa using hb)
        · intro leaf hleaf
          rcases List.mem_append.1 hleaf with hleaf | hleaf
          · exact h.fresh leaf hleaf
          · exact ⟨_, hnamed.putting t c id ht, rfl, List.mem_singleton.1 hleaf⟩
        · intro u c' id' hu
          by_cases hut : u = t
          · subst hut
            simp at hu
          · have hu' : s.submitter u = .putting c' id' := by
              simpa only [s.setSubmitter_of_ne _ hut] using hu
            exact absurd (hlocked.eq (by rw [hu']; trivial) (by rw [ht]; trivial)) hut
    | @release t c id ht => exact { h.setSubmitter t (.waiting c id) nofun with }
    | loop hadv =>
        have hplaces := h.places
        rw [← hadv.gathering] at hplaces
        exact { h with places := hplaces }
    | @take r leaf rest hr hq =>
        have hplaces := h.places
        rw [hr, hq] at hplaces
        exact { h with places := by simpa [Loop.gathering, Round.take] using hplaces }
    | @submit r hr hq _ =>
        have hplaces := h.places
        rw [hr, hq] at hplaces
        exact { h with places := by simpa [Loop.gathering, hq] using hplaces }
    | sync hr | commit hr | record _ hr | exit hr | notify hr =>
        have hplaces := h.places
        rw [hr] at hplaces
        exact { h with places := hplaces }
    | setExit => exact { h with }

/-! ## Rounds -/

/-- A round's events and its count are those of its leaves. -/
structure Round.Accurate (r : Round M) : Prop where
  doneEvents : r.doneEvents = r.digests.map Leaf.id
  records : r.records = r.digests.countP Leaf.counted

theorem Round.Accurate.take {r : Round M} (h : r.Accurate) (leaf : Leaf M) :
    (r.take leaf).Accurate where
  doneEvents := by simp [Round.take, h.doneEvents]
  records := by
    simp only [Round.take, List.countP_append, List.countP_singleton, h.records]
    split_ifs <;> rfl

/-- Every round given to the calendar is accurate, and the synced and the committed ones
are among them, in that order of the loop. -/
structure Gathered (s : State M) : Prop where
  draining : ∀ r, s.loop = .draining r → r.Accurate
  rounds : ∀ r ∈ s.rounds, r.Accurate
  current : ∀ r, s.loop.round? = some r → r ∈ s.rounds
  synced : ∀ r, s.loop = .synced r → r ∈ s.journal
  journal : s.journal ⊆ s.rounds
  committed : s.committed ⊆ s.journal

theorem Loop.Advance.round? {pc : Loop M} (h : Loop.Advance s s.loop pc) {r : Round M}
    (hr : pc.round? = some r) : s.loop.round? = some r := by
  cases hpc : s.loop <;> rw [hpc] at h <;> cases h <;> exact hr

theorem Loop.Advance.ne_synced {pc : Loop M} (h : Loop.Advance s s.loop pc) (r : Round M) :
    pc ≠ .synced r := by
  rintro rfl
  cases hpc : s.loop <;> rw [hpc] at h <;> cases h

theorem Loop.Advance.draining {pc : Loop M} (h : Loop.Advance s s.loop pc) {r : Round M}
    (hr : pc = .draining r) : r = .empty := by
  subst hr
  cases hpc : s.loop <;> rw [hpc] at h <;> cases h
  rfl

theorem gathered_inductive [DecidableEq M] : (system (M := M) config).Inductive Gathered where
  init := by
    rintro s rfl
    exact ⟨nofun, nofun, nofun, nofun, by simp [State.start], by simp [State.start]⟩
  step := by
    intro s s' _ h hstep
    cases hstep with
    | loop hadv =>
        exact
          { h with
            draining := fun r hr => hadv.draining hr ▸ ⟨rfl, rfl⟩
            current := fun r hr => h.current r (hadv.round? hr)
            synced := fun r hr => absurd hr (hadv.ne_synced r) }
    | @take r leaf rest hr _ =>
        exact
          { h with
            draining := fun r' hr' => Loop.draining.inj hr' ▸ (h.draining r hr).take leaf
            current := nofun
            synced := nofun }
    | @submit r hr _ _ =>
        refine ⟨nofun, fun r' hr' => ?_, fun r' hr' => ?_, nofun,
          List.Subset.trans h.journal (List.subset_append_left _ _), h.committed⟩
        · rcases List.mem_append.1 hr' with hr' | hr'
          · exact h.rounds r' hr'
          · exact List.mem_singleton.1 hr' ▸ h.draining r hr
        · obtain rfl := Option.some_inj.1 hr'
          exact List.mem_append_right _ (List.mem_singleton.2 rfl)
    | @sync r hr =>
        have hcurrent := h.current r (by rw [hr]; rfl)
        refine ⟨nofun, h.rounds, fun r' hr' => ?_, fun r' hr' => ?_, ?_,
          List.Subset.trans h.committed (List.subset_append_left _ _)⟩
        · exact Option.some_inj.1 hr' ▸ hcurrent
        · exact Loop.synced.inj hr' ▸ List.mem_append_right _ (List.mem_singleton.2 rfl)
        · exact List.append_subset.2 ⟨h.journal, by simpa using hcurrent⟩
    | @commit r hr =>
        refine ⟨nofun, h.rounds, nofun, nofun, h.journal, ?_⟩
        exact List.append_subset.2 ⟨h.committed, by simpa using h.synced r hr⟩
    | @record r _ hr =>
        have hcurrent := h.current r (by rw [hr]; rfl)
        exact
          { h with
            draining := nofun
            current := fun r' hr' => Option.some_inj.1 hr' ▸ hcurrent
            synced := nofun }
    | exit | notify => exact { h with draining := nofun, current := nofun, synced := nofun }
    | _ => exact { h with }

/-! ## Events -/

/-- A committed round holds the leaf of that number. -/
def CommittedId (s : State M) (id : Nat) : Prop :=
  ∃ r ∈ s.committed, ∃ leaf ∈ r.digests, leaf.id = id

/-- An event is set for a committed leaf, or after a failure was recorded; a submitter that
has found no failure after its event was set is attached to a committed leaf. -/
structure Woken (s : State M) : Prop where
  done : ∀ id, s.done id → s.failure ≠ none ∨ CommittedId s id
  recorded : ∀ r, s.loop = .recorded r → s.failure ≠ none
  last : ∀ events, s.loop = .notifying events true → s.failure ≠ none
  notifying : ∀ events, s.loop = .notifying events false → ∀ id ∈ events, CommittedId s id
  woken : ∀ t c id, s.submitter t = .woken c id → s.done id
  through : ∀ t c id, s.submitter t = .passed c id ∨ s.submitter t = .returned c id →
    CommittedId s id

/-- A submitter that moves keeps the events right when it has seen its event, and checked
after that. -/
theorem Woken.setSubmitter (h : Woken s) (t : Tid) (pc : Submitter M)
    (hwoken : ∀ c id, pc = .woken c id → s.done id)
    (hthrough : ∀ c id, pc = .passed c id ∨ pc = .returned c id → CommittedId s id) :
    Woken (s.setSubmitter t pc) :=
  { h with
    woken := forall_setSubmitter
      (P := fun _ pc => ∀ c id, pc = .woken c id → s.done id) pc hwoken h.woken
    through := forall_setSubmitter
      (P := fun _ pc => ∀ c id, pc = .passed c id ∨ pc = .returned c id → CommittedId s id) pc
      hthrough h.through }

theorem Woken.advance (h : Woken s) (t : Tid) {pc : Submitter M}
    (hadv : Submitter.Advance s (s.submitter t) pc) : Woken (s.setSubmitter t pc) := by
  refine h.setSubmitter t pc ?_ ?_
  · rintro c id rfl
    cases hpc : s.submitter t <;> rw [hpc] at hadv <;> cases hadv
    next hdone => exact hdone
  · rintro c id (rfl | rfl)
    · cases hpc : s.submitter t <;> rw [hpc] at hadv <;> cases hadv
      next hnone => exact (h.done id (h.woken t c id hpc)).resolve_left (absurd hnone)
    · cases hpc : s.submitter t <;> rw [hpc] at hadv <;> cases hadv
      next => exact h.through t c id (.inl hpc)

theorem Loop.Advance.eq_of_notifying {pc : Loop M} (h : Loop.Advance s s.loop pc) :
    (∀ r, pc ≠ .recorded r) ∧ ∀ events last, pc ≠ .notifying events last := by
  constructor
  · rintro r rfl
    cases hpc : s.loop <;> rw [hpc] at h <;> cases h
  · rintro events last rfl
    cases hpc : s.loop <;> rw [hpc] at h <;> cases h

theorem woken_inductive [DecidableEq M] : (system (M := M) config).Inductive Woken where
  init := by
    rintro s rfl
    exact ⟨nofun, nofun, nofun, nofun, nofun, by simp [State.start]⟩
  step := by
    intro s s' hs h hstep
    have hgathered := gathered_inductive.reachable hs
    cases hstep with
    | submitter t hadv => exact h.advance t hadv
    | @acquire t c now _ _ => exact { h.setSubmitter t (.locked c now) nofun (by simp) with }
    | @attach t c _ entry _ _ =>
        exact { h.setSubmitter t (.leaving c entry.id) nofun (by simp) with }
    | @create t c _ _ _ => exact { h.setSubmitter t (.putting c s.nextId) nofun (by simp) with }
    | @put t c id _ => exact { h.setSubmitter t (.leaving c id) nofun (by simp) with }
    | @release t c id _ => exact { h.setSubmitter t (.waiting c id) nofun (by simp) with }
    | loop hadv =>
        obtain ⟨hrecorded, hnotifying⟩ := hadv.eq_of_notifying
        exact
          { h with
            recorded := fun r hr => absurd hr (hrecorded r)
            last := fun events he => absurd he (hnotifying events _)
            notifying := fun events he => absurd he (hnotifying events _) }
    | take | submit | sync => exact { h with recorded := nofun, last := nofun, notifying := nofun }
    | @commit r hr =>
        have hmono : ∀ id, CommittedId s id → ∃ r' ∈ s.committed ++ [r], ∃ leaf ∈ r'.digests,
            leaf.id = id := by
          rintro id ⟨r', hr', hid⟩
          exact ⟨r', List.mem_append_left _ hr', hid⟩
        have haccurate := hgathered.rounds r (hgathered.current r (by rw [hr]; rfl))
        refine ⟨fun id hid => (h.done id hid).imp_right (hmono id), nofun, nofun, ?_, h.woken,
          fun t c id ht => hmono id (h.through t c id ht)⟩
        intro events he id hid
        obtain ⟨rfl, -⟩ := Loop.notifying.inj he
        rw [haccurate.doneEvents] at hid
        obtain ⟨leaf, hleaf, rfl⟩ := List.mem_map.1 hid
        exact ⟨r, List.mem_append_right _ (List.mem_singleton.2 rfl), leaf, hleaf, rfl⟩
    | record exp _ =>
        exact ⟨fun _ _ => .inl nofun, fun _ _ => nofun, nofun, nofun, h.woken, h.through⟩
    | @exit r hr =>
        exact ⟨h.done, nofun, fun _ _ => h.recorded r hr, by simp, h.woken, h.through⟩
    | @notify id events last hr =>
        have hid : s.failure ≠ none ∨ CommittedId s id := by
          cases last with
          | true => exact .inl (h.last _ hr)
          | false => exact .inr (h.notifying _ hr id (by simp))
        refine ⟨fun id' hid' => ?_, nofun, fun events' he => ?_, fun events' he id' hid' => ?_,
          fun t c id' ht => ?_, h.through⟩
        · by_cases heq : id' = id
          · exact heq ▸ hid
          · exact h.done id' (by simpa only [Function.update_of_ne heq] using hid')
        · obtain ⟨rfl, rfl⟩ := Loop.notifying.inj he
          exact h.last _ hr
        · obtain ⟨rfl, rfl⟩ := Loop.notifying.inj he
          exact h.notifying _ hr id' (List.mem_cons_of_mem _ hid')
        · by_cases heq : id' = id
          · subst heq
            exact Function.update_self ..
          · change Function.update s.done id true id' = true
            rw [Function.update_of_ne heq]
            exact h.woken t c id' ht
    | setExit => exact { h with }

/-! ## A recorded failure -/

/-- A failure is recorded, and the submitter is not through its last check. -/
def Barred (t : Tid) (s : State M) : Prop := s.failure ≠ none ∧ ¬(s.submitter t).Through

theorem barred_setSubmitter {t u : Tid} {pc : Submitter M} (h : Barred t s)
    (hpc : u = t → ¬pc.Through) : ¬((s.setSubmitter u pc).submitter t).Through := by
  by_cases hut : t = u
  · subst hut
    simpa using hpc rfl
  · rw [s.setSubmitter_of_ne pc hut]
    exact h.2

/-- After a recorded failure no submitter gets through its last check. -/
theorem Barred.step [DecidableEq M] {t : Tid} {s' : State M} (h : Barred t s)
    (hstep : Step config s s') : Barred t s' := by
  cases hstep with
  | @submitter u pc hadv =>
      refine ⟨h.1, barred_setSubmitter h ?_⟩
      rintro rfl hthrough
      cases hpc : s.submitter u <;> rw [hpc] at hadv <;> cases hadv <;>
        first | exact hthrough | exact h.1 ‹_› | exact h.2 (by rw [hpc]; trivial)
  | acquire | attach | create | put | release => exact ⟨h.1, barred_setSubmitter h fun _ => id⟩
  | record exp _ => exact ⟨nofun, h.2⟩
  | _ => exact h

/-- The acknowledgement of a digest, over every interleaving. A submitter that has returned
is attached to a leaf of its message in a round that `Calendar.submit` has synced and
returned from. Every leaf put on the queue is in one round at most, once. Every round is
given the number of its leaves that were queued as counted; a number's first registration
alone is fresh, a leaf is that of a fresh registration, and a later registration of the
number is of the same message. After a recorded failure no submitter that has still to
check returns. -/
theorem acknowledged_is_committed_once [DecidableEq M] (config : Config) (s : State M)
    (hs : (system config).Reachable s) :
    (∀ t c id, s.submitter t = .returned c id →
      ∃ r ∈ s.committed, r ∈ s.journal ∧ r ∈ s.rounds ∧
        ∃ leaf ∈ r.digests, leaf.id = id ∧ leaf.msg = c.msg) ∧
    (s.puts = s.rounds.flatMap Round.digests ++ s.loop.gathering ++ s.queue ∧
      (s.puts.map Leaf.id).Nodup) ∧
    ((∀ r ∈ s.rounds, r.records = r.digests.countP Leaf.counted) ∧
      (∀ leaf ∈ s.puts, ∃ f ∈ s.registered, f.fresh ∧ leaf = f.leaf) ∧
      (∀ l₁ r l₂, s.registered = l₁ ++ r :: l₂ → (r.fresh ↔ ∀ r' ∈ l₁, r'.id ≠ r.id)) ∧
      ∀ r ∈ s.registered, FreshFor s r.id r.call.msg) ∧
    ∀ t, s.failure ≠ none → ¬(s.submitter t).Through →
      ∀ s', (system config).Run s s' → ∀ c id, s'.submitter t ≠ .returned c id := by
  have hnamed := named_inductive.reachable hs
  have hqueued := queued_inductive.reachable hs
  have hgathered := gathered_inductive.reachable hs
  refine ⟨fun t c id ht => ?_, ⟨hqueued.places, hqueued.nodup⟩,
    ⟨fun r hr => (hgathered.rounds r hr).records, hqueued.fresh, hnamed.first, hnamed.same⟩,
    fun t hfail ht s' hrun c id hret => ?_⟩
  · obtain ⟨r, hr, leaf, hleaf, hid⟩ := (woken_inductive.reachable hs).through t c id (.inr ht)
    have hjournal := hgathered.committed hr
    have hround := hgathered.journal hjournal
    have hput : leaf ∈ s.puts := by
      rw [hqueued.places]
      exact List.mem_append_left _ (List.mem_append_left _ (List.mem_flatMap.2 ⟨r, hround, hleaf⟩))
    obtain ⟨f, hf, hff, rfl⟩ := hqueued.fresh leaf hput
    obtain ⟨g, hg, hgf, hgid, hgmsg⟩ := hnamed.ticket t c id (by rw [ht]; rfl)
    have hfg : f = g := hnamed.unique hf hg hff hgf (Eq.trans hid hgid.symm)
    exact ⟨r, hr, hjournal, hround, f.leaf, hleaf, hid, hfg ▸ hgmsg⟩
  · have hbarred := hrun.keeps (P := Barred t) (fun _ _ _ h hst => h.step hst) hs ⟨hfail, ht⟩
    exact hbarred.2 (by rw [hret]; trivial)

/-- One digest is acknowledged, then the round of another one fails to sync. -/
theorem acknowledged_then_failed : ∃ s : State Nat,
    s.submitter 0 = .returned ⟨7, true⟩ 0 ∧ s.failure = some "fsync" ∧
    (∃ r ∈ s.committed, r ∈ s.journal ∧ r ∈ s.rounds ∧
      ∃ leaf ∈ r.digests, leaf.id = 0 ∧ leaf.msg = 7) ∧
    ∀ s', (system ⟨3600, 65536⟩).Run s s' → ∀ c id, s'.submitter 1 ≠ .returned c id := by
  have h : (system (M := Nat) ⟨3600, 65536⟩).Reachable (.start Nat) := .init rfl
  -- thread 0 queues its leaf
  replace h := h.step (.submitter 0 (.call ⟨7, true⟩))
  replace h := h.step (.submitter 0 (.unfailed rfl))
  replace h := h.step (.submitter 0 (.admitted nofun))
  replace h := h.step (.submitter 0 (.clock 0))
  replace h := h.step (.acquire 0 rfl rfl)
  replace h := h.step (.create 0 rfl rfl)
  replace h := h.step (.put 0 rfl)
  replace h := h.step (.release 0 rfl)
  -- its round is committed, and thread 0 returns
  replace h := h.step (.loop (.wake nofun))
  replace h := h.step (.take rfl rfl)
  replace h := h.step (.submit rfl rfl nofun)
  replace h := h.step (.loop .write)
  replace h := h.step (.sync rfl)
  replace h := h.step (.commit rfl)
  replace h := h.step (.notify rfl)
  replace h := h.step (.loop .round)
  replace h := h.step (.submitter 0 (.wake rfl))
  replace h := h.step (.submitter 0 (.pass rfl))
  replace h := h.step (.submitter 0 .ret)
  -- thread 1 queues another leaf, and its round fails
  replace h := h.step (.submitter 1 (.call ⟨8, false⟩))
  replace h := h.step (.submitter 1 (.unfailed rfl))
  replace h := h.step (.submitter 1 (.admitted nofun))
  replace h := h.step (.submitter 1 (.clock 1))
  replace h := h.step (.acquire 1 rfl rfl)
  replace h := h.step (.create 1 rfl (by decide +kernel))
  replace h := h.step (.put 1 rfl)
  replace h := h.step (.release 1 rfl)
  replace h := h.step (.loop (.wake nofun))
  replace h := h.step (.take rfl rfl)
  replace h := h.step (.submit rfl rfl nofun)
  replace h := h.step (.loop .write)
  replace h := h.step (.loop .raiseSyncing)
  replace h := h.step (.record "fsync" rfl)
  obtain ⟨hreturned, -, -, hbarred⟩ := acknowledged_is_committed_once _ _ h
  exact ⟨_, rfl, rfl, hreturned 0 ⟨7, true⟩ 0 rfl, hbarred 1 nofun id⟩

end OtsServer.Aggregator
