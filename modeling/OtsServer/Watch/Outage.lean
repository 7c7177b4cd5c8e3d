import OtsServer.Watch.Alarm
import OtsServer.Watch.Closed

/-!
# The outage a recovery reports

The time a check began to fail is set by its first run that is not ok, and cleared only when the
check leaves the delivered set. While no check is ok outside that set with such a time standing,
the time is that of the episode the check leaves; a failure that was over before it alarmed
leaves its time behind, for the next outage to be counted from.
-/

namespace OtsServer.Watch

/-- The names delivered after these runs. -/
def deliveredAfter (utc : Utc) (ticks : List Tick) : List String :=
  match after utc ticks with
  | .ok s => s.delivered
  | .error _ => []

/-- The messages of a run after these. -/
def alertsAfter (utc : Utc) (t : Tick) (before : List Tick) : Except Fault (List Alert) := do
  let s ← after utc before
  let (_, alerts) ← decide utc s t.checks t.now t.cfg
  pure alerts

/-- When a check's failure episode began: at its first run that was not ok, after its last ok run
outside the delivered set. -/
def episodeStart (utc : Utc) (c : Check) : List Tick → Option ℚ
  | [] => none
  | t :: before =>
      if c ∉ activeChecks t.cfg ∨ suspends t.checks c then episodeStart utc c before
      else if (t.checks c).1 ≠ .ok then some ((episodeStart utc c before).getD t.now)
      else if c.name ∈ deliveredAfter utc (t :: before) then episodeStart utc c before
      else none

/-- In this run no check is ok outside the delivered set that has failed and not left since. -/
def SteadyAt (s : State) (t : Tick) : Prop :=
  ∀ c ∈ activeChecks t.cfg, (t.checks c).1 = .ok → c.name ∉ s.delivered → s.since c = none

instance (s : State) (t : Tick) : Decidable (SteadyAt s t) :=
  inferInstanceAs (Decidable (∀ c ∈ _, _))

def Steady (utc : Utc) : List Tick → Prop
  | [] => True
  | t :: before => Steady utc before ∧ ∀ s, after utc before = .ok s → SteadyAt s t

theorem steadyAt_of_all {utc : Utc} {t : Tick} {before : List Tick} {s : State}
    (h : (after utc before).toOption.all fun s => SteadyAt s t) (hs : after utc before = .ok s) :
    SteadyAt s t := by
  rw [hs] at h
  exact of_decide_eq_true h

section EpisodeStart

variable {utc : Utc} {c : Check} {t : Tick} {before : List Tick}

theorem episodeStart_of_skips (h : c ∉ activeChecks t.cfg ∨ suspends t.checks c) :
    episodeStart utc c (t :: before) = episodeStart utc c before := by
  rw [episodeStart, if_pos h]

theorem episodeStart_of_failed (hc : c ∈ activeChecks t.cfg) (hsuspends : ¬ suspends t.checks c)
    (hok : (t.checks c).1 ≠ .ok) :
    episodeStart utc c (t :: before) = some ((episodeStart utc c before).getD t.now) := by
  rw [episodeStart, if_neg (not_or.mpr ⟨not_not.mpr hc, hsuspends⟩), if_pos hok]

theorem episodeStart_of_ok (hc : c ∈ activeChecks t.cfg) (hok : (t.checks c).1 = .ok) :
    episodeStart utc c (t :: before) =
      if c.name ∈ deliveredAfter utc (t :: before) then episodeStart utc c before else none := by
  rw [episodeStart, if_neg (not_or.mpr ⟨not_not.mpr hc, by simp [not_suspends_of_ok hok]⟩),
    if_neg (not_not.mpr hok)]

end EpisodeStart

/-- The times of a state are those of the episodes, and what is delivered has one. -/
structure Dated (utc : Utc) (ticks : List Tick) (s : State) : Prop where
  since : ∀ c, s.since c = (episodeStart utc c ticks).map .float
  delivered : ∀ c : Check, c.name ∈ s.delivered → s.since c ≠ none

section Dated

variable {utc : Utc} {t : Tick} {before : List Tick} {s s' : State}

/-- A configured check's turn keeps its date. -/
theorem Dated.turn (h : Dated utc before s) {c : Check} (hc : c ∈ activeChecks t.cfg)
    (hsteady : (t.checks c).1 = .ok → c.name ∉ s.delivered → s.since c = none)
    (hafter : after utc (t :: before) = .ok s') (hdecided : Decided s t.checks t.now t.cfg s') :
    s'.since c = (episodeStart utc c (t :: before)).map .float := by
  rw [hdecided.since, if_pos hc]
  by_cases hok : (t.checks c).1 = .ok
  · have hmem : c.name ∈ deliveredAfter utc (t :: before) ↔
        c.name ∈ s.delivered ∧ ¬ Leaves s t.checks t.cfg c := by
      rw [deliveredAfter, hafter]
      exact (hdecided.mem_delivered hc).trans (or_iff_right fun hjoins => hjoins.2.1 hok)
    rw [episodeStart_of_ok hc hok]
    by_cases hleaves : Leaves s t.checks t.cfg c
    · rw [if_pos hleaves, if_neg fun hin => (hmem.mp hin).2 hleaves]
      rfl
    · rw [if_neg hleaves, sinceAfter, if_pos (.inr hok)]
      by_cases hdelivered : c.name ∈ s.delivered
      · rw [if_pos (hmem.mpr ⟨hdelivered, hleaves⟩), h.since]
      · rw [if_neg fun hin => hdelivered (hmem.mp hin).1, hsteady hok hdelivered]
        rfl
  · rw [if_neg fun hleaves => hok hleaves.1]
    by_cases hsuspends : suspends t.checks c
    · rw [sinceAfter, if_pos (.inl hsuspends), episodeStart_of_skips (.inr hsuspends), h.since]
    · rw [sinceAfter, if_neg (not_or.mpr ⟨hsuspends, hok⟩),
        episodeStart_of_failed hc hsuspends hok, h.since]
      cases episodeStart utc c before <;> rfl

theorem Dated.step (h : Dated utc before s) (hsteady : SteadyAt s t)
    (hafter : after utc (t :: before) = .ok s') (hdecided : Decided s t.checks t.now t.cfg s') :
    Dated utc (t :: before) s' := by
  constructor
  · intro c
    by_cases hc : c ∈ activeChecks t.cfg
    · exact h.turn hc (hsteady c hc) hafter hdecided
    · rw [hdecided.since, if_neg hc, episodeStart_of_skips (.inl hc), h.since]
  · intro c hmem
    obtain ⟨c', hc, hstays, heq⟩ := (hdecided.delivered _).mp hmem
    obtain rfl := Check.name_injective heq
    rw [hdecided.since, if_pos hc]
    obtain hjoins | ⟨hmem, hleaves⟩ := hstays
    · rw [if_neg hjoins.not_leaves, sinceAfter, if_neg (not_or.mpr ⟨hjoins.1, hjoins.2.1⟩)]
      exact Option.some_ne_none _
    · rw [if_neg hleaves, sinceAfter]
      split_ifs
      · exact h.delivered _ hmem
      · exact Option.some_ne_none _

end Dated

theorem after_dated (utc : Utc) (ticks : List Tick) :
    ∃ s, after utc ticks = .ok s ∧ s.Floats ∧ (Steady utc ticks → Dated utc ticks s) := by
  refine after_induction utc (I := fun ticks s => Steady utc ticks → Dated utc ticks s) ?_ ?_ ticks
  · exact fun _ => ⟨fun _ => rfl, fun _ hmem => nomatch hmem⟩
  · intro t before s s' hI hs hafter hdecided hsteady
    exact (hI hsteady.1).step (hsteady.2 s hs) hafter hdecided

/-- A RECOVERED message is the one of a run that empties the working set. -/
theorem recovered_mem {utc : Utc} {s s' : State} {checks : Checks} {now : ℚ}
    {cfg : Config} {alerts : List Alert} (hreturns : decide utc s checks now cfg = .ok (s', alerts))
    {left : List Check} {dur : ℚ} {total : Nat}
    {notClear : List String} (hmem : .recovered left dur total notClear ∈ alerts) :
    Clears s checks cfg ∧ ∃ dur',
      outage s.since now ((activeChecks cfg).filter (Leaves s checks cfg)) = .ok dur' ∧
      .recovered left dur total notClear = recoveredAlert s checks cfg dur' := by
  by_cases hclears : Clears s checks cfg
  · rw [decide_of_clears hclears] at hreturns
    cases houtage : outage s.since now ((activeChecks cfg).filter (Leaves s checks cfg)) with
    | error e =>
        rw [houtage] at hreturns
        exact nomatch hreturns
    | ok dur' =>
        rw [houtage] at hreturns
        obtain ⟨_, rfl⟩ := Prod.mk.inj (Except.ok.inj hreturns)
        exact ⟨hclears, dur', rfl, List.mem_singleton.mp hmem⟩
  · rw [decide_of_not_clears hclears] at hreturns
    obtain ⟨_, rfl⟩ := Prod.mk.inj (Except.ok.inj hreturns)
    obtain ⟨_, halerts⟩ | ⟨_, what, still, halerts⟩ := degradedAlerts_cases s checks now cfg
    · rw [halerts] at hmem
      exact nomatch hmem
    · rw [halerts] at hmem
      exact nomatch List.mem_singleton.mp hmem

/-- After runs none of which found a check ok outside the delivered set whose failure was not
cleared, a RECOVERED message names what leaves in its run, and states the longest time since the
start of the episode that a leaving check leaves. -/
theorem outage_of_the_episode (utc : Utc) (before : List Tick) (hsteady : Steady utc before)
    (t : Tick) :
    ∃ alerts, alertsAfter utc t before = .ok alerts ∧
      ∀ left dur total notClear, .recovered left dur total notClear ∈ alerts →
        (∀ c : Check, c ∈ left ↔
          c.name ∈ deliveredAfter utc before ∧ c.name ∉ deliveredAfter utc (t :: before)) ∧
        IsGreatest
          {d | ∃ c ∈ left, ∃ start, episodeStart utc c before = some start ∧ d = t.now - start}
          dur := by
  obtain ⟨s, hs, hfloats, hdated⟩ := after_dated utc before
  have hdated := hdated hsteady
  obtain ⟨s', alerts, hreturns, hdecided⟩ := decide_returns utc hfloats t.checks t.now t.cfg
  have hafter : after utc (t :: before) = .ok s' := by
    rw [after, hs]
    change decide utc s t.checks t.now t.cfg >>= _ = _
    rw [hreturns]
    rfl
  have halerts : alertsAfter utc t before = .ok alerts := by
    rw [alertsAfter, hs]
    change decide utc s t.checks t.now t.cfg >>= _ = _
    rw [hreturns]
    rfl
  refine ⟨alerts, halerts, fun left dur total notClear hmem => ?_⟩
  obtain ⟨hclears, dur', houtage, heq⟩ := recovered_mem hreturns hmem
  obtain ⟨rfl, rfl, _, _⟩ := Alert.recovered.inj heq
  rw [deliveredAfter, hs, deliveredAfter, hafter]
  have hnone : s'.delivered = [] := hdecided.delivered_eq_nil.mpr fun c hc => hclears.not_stays hc
  have hleft : ∀ c : Check, c ∈ (activeChecks t.cfg).filter (Leaves s t.checks t.cfg) ↔
      c.name ∈ s.delivered := by
    intro c
    rw [hclears.mem_left, and_iff_right_iff_imp]
    intro hmem
    obtain ⟨c', hc, _, heq⟩ := hclears.2.1 _ hmem
    exact Check.name_injective heq ▸ hc
  refine ⟨fun c => ?_, ?_⟩
  · rw [hleft]
    simp [hnone]
  · have hstarted : ∀ c ∈ (activeChecks t.cfg).filter (Leaves s t.checks t.cfg), ∀ start,
        started s.since t.now c = .ok start ↔ episodeStart utc c before = some start := by
      intro c hc start
      have hsince := hdated.since c
      have hsome := hdated.delivered c ((hleft c).mp hc)
      rw [started, hsince]
      cases hstart : episodeStart utc c before with
      | none =>
          rw [hstart] at hsince
          exact absurd hsince hsome
      | some q =>
          change Except.ok q = Except.ok start ↔ _
          rw [Except.ok.injEq, Option.some.injEq]
    have hne : (activeChecks t.cfg).filter (Leaves s t.checks t.cfg) ≠ [] := by
      obtain ⟨x, hx⟩ := List.exists_mem_of_ne_nil _ hclears.1
      obtain ⟨c, _, _, rfl⟩ := hclears.2.1 x hx
      exact List.ne_nil_of_mem ((hleft c).mpr hx)
    have hset : {d | ∃ c ∈ (activeChecks t.cfg).filter (Leaves s t.checks t.cfg), ∃ start,
          episodeStart utc c before = some start ∧ d = t.now - start} =
        {d | ∃ c ∈ (activeChecks t.cfg).filter (Leaves s t.checks t.cfg), ∃ start,
          started s.since t.now c = .ok start ∧ d = t.now - start} := by
      ext d
      exact exists_congr fun c => and_congr_right fun hc => exists_congr fun start =>
        and_congr_left' (hstarted c hc start).symm
    rw [hset]
    exact outage_greatest hne houtage

namespace Blip

/-! ### A blip long before an outage -/

def cfg : Config := ⟨"box", fun _ => "1", 2, 8⟩

def utc : Utc := ⟨fun _ => "2026-09-16", fun _ => 0⟩

/-- Every check but `mem` is ok. -/
def memIs (verdict : Verdict) (now : ℚ) : Tick :=
  ⟨cfg, fun c => (if c = .mem then verdict else .ok, ""), now⟩

/-- `mem` fails twice and is ok again. -/
def outage : List Tick := [memIs .ok 87000, memIs .failed 86700, memIs .failed 86400]

/-- The same after a run in which it failed and one in which it was ok. -/
def afterBlip : List Tick := outage ++ [memIs .ok 600, memIs .failed 300]

/-- The recovery after the outage alone states its length. -/
theorem stated :
    ∃ alerts, alertsAfter utc (memIs .ok 87300) outage = .ok alerts ∧
    .recovered [.mem] 900 22 [] ∈ alerts ∧ IsGreatest
      {d | ∃ c ∈ [Check.mem], ∃ start, episodeStart utc c outage = some start ∧ d = (87300 :
      ℚ) - start} 900 := by
  have hsteady : Steady utc outage := by
    refine ⟨⟨⟨trivial, fun s hs => ?_⟩, fun s hs => ?_⟩, fun s hs => ?_⟩
      <;> exact steadyAt_of_all (by decide +kernel) hs
  obtain ⟨alerts, halerts, hall⟩ := outage_of_the_episode utc outage hsteady (memIs .ok 87300)
  have hstated : alerts = [.recovered [.mem] 900 22 []] := by
    have hrun : (alertsAfter utc (memIs .ok 87300) outage).toOption =
        some [.recovered [.mem] 900 22 []] := by
      decide +kernel
    rw [halerts] at hrun
    exact Option.some.inj hrun
  subst hstated
  exact ⟨_, halerts, List.mem_singleton_self _, (hall _ _ _ _ (List.mem_singleton_self _)).2⟩

end Blip

open Blip in
/-- `mem` failed in one run, was ok the next, and failed a day later for three quarters of an hour:
the recovery states the time since the run of the day before. -/
theorem outage_may_count_a_blip :
    ∃ alerts, alertsAfter utc (memIs .ok 87300) afterBlip = .ok alerts ∧ .recovered
      [.mem] 87000 22 [] ∈ alerts ∧ episodeStart utc .mem afterBlip = some 86400 ∧ ¬ IsGreatest
      {d | ∃ c ∈ [Check.mem], ∃ start, episodeStart utc c afterBlip = some start ∧ d = (87300 :
      ℚ) - start} 87000 := by
  have hrun : (alertsAfter utc (memIs .ok 87300) afterBlip).toOption =
      some [.recovered [.mem] 87000 22 []] := by
    decide +kernel
  have hstart : episodeStart utc .mem afterBlip = some 86400 := by decide +kernel
  cases halerts : alertsAfter utc (memIs .ok 87300) afterBlip with
  | error e =>
      rw [halerts] at hrun
      exact nomatch hrun
  | ok alerts =>
      rw [halerts] at hrun
      obtain rfl := Option.some.inj hrun
      refine ⟨_, rfl, List.mem_singleton_self _, hstart, fun ⟨⟨c, hc, start, heq, hdur⟩, _⟩ => ?_⟩
      obtain rfl := List.mem_singleton.mp hc
      obtain rfl := Option.some.inj (hstart.symm.trans heq)
      norm_num at hdur

end OtsServer.Watch
