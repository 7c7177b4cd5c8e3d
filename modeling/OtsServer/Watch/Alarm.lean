import OtsServer.Library.Streaks
import OtsServer.Watch.Decide

/-!
# The alarm set over a history of runs

`decide` is fed the state it returned, from the empty state on. The state after any runs is the
one that the confirmed streaks of each check's verdicts say: the two counters of a check are the
lengths of its current streaks, and it is delivered when the most recent streak to have reached
its length was not ok. Runs in which a check is suspended are left out of its history.
-/

namespace OtsServer.Watch

open Streaks (current confirmed)

/-- What a run feeds to `decide`. -/
structure Tick where
  cfg : Config
  checks : Checks
  now : ℚ

/-- The state after these runs, the newest first. -/
def after (utc : Utc) : List Tick → Except Fault State
  | [] => .ok .empty
  | t :: before => do
      let s ← after utc before
      let (s', _) ← decide utc s t.checks t.now t.cfg
      pure s'

/-- The verdicts of a check in the runs that did not suspend it: whether they were ok. -/
def verdicts (c : Check) (ticks : List Tick) : List Bool :=
  ticks.filterMap fun t => if suspends t.checks c then none else some ((t.checks c).1 = .ok)

/-! ## Every run returns -/

/-- The times of a state are times that a run had. -/
def State.Floats (s : State) : Prop := ∀ c n, s.since c = some n → ∃ q, n = .float q

section Step

variable {utc : Utc} {s s' : State} {checks : Checks} {now : ℚ} {cfg : Config}

theorem State.Floats.started (h : s.Floats) (now : ℚ) (c : Check) :
    Watch.started s.since now c = .ok (match s.since c with | some (.float q) => q | _ => now) := by
  rw [Watch.started]
  cases hc : s.since c with
  | none => rfl
  | some n =>
      obtain ⟨q, rfl⟩ := h c n hc
      rfl

theorem Decided.floats (h : Decided s checks now cfg s') (hs : s.Floats) : s'.Floats := by
  intro c n hn
  rw [h.since, sinceAfter] at hn
  split_ifs at hn with hactive hleaves hsame
  · exact hs c n hn
  · obtain rfl := Option.some.inj hn
    cases hc : s.since c with
    | none => exact ⟨now, rfl⟩
    | some n => exact hs c n hc
  · exact hs c n hn

/-- A run that is fed times of runs returns, and its state is the decided one. -/
theorem decide_returns (utc : Utc) (hs : s.Floats) (checks : Checks) (now : ℚ) (cfg : Config) :
    ∃ s' alerts, decide utc s checks now cfg = .ok (s', alerts) ∧ Decided s checks now cfg s' := by
  by_cases hclears : Clears s checks cfg
  · obtain ⟨dur, houtage⟩ :=
        outage_ok_iff.mpr fun c (_ : c ∈ (activeChecks cfg).filter (Leaves s checks cfg)) =>
      ⟨_, hs.started now c⟩
    exact ⟨_, _, by rw [decide_of_clears hclears, houtage]; rfl, nextState_decided ..⟩
  · exact ⟨_, _, decide_of_not_clears hclears, nextState_decided ..⟩

end Step

/-- What holds of the empty state and is kept by every decided run holds after any runs. -/
theorem after_induction (utc : Utc) {I : List Tick → State → Prop} (hempty : I [] .empty)
    (hstep : ∀ t before s s', I before s → after utc before = .ok s →
      after utc (t :: before) = .ok s' → Decided s t.checks t.now t.cfg s' → I (t :: before) s') :
    ∀ ticks, ∃ s, after utc ticks = .ok s ∧ s.Floats ∧ I ticks s := by
  intro ticks
  induction ticks with
  | nil => exact ⟨.empty, rfl, fun _ _ h => (nomatch h), hempty⟩
  | cons t before ih =>
      obtain ⟨s, hs, hfloats, hI⟩ := ih
      obtain ⟨s', alerts, hreturns, hdecided⟩ := decide_returns utc hfloats t.checks t.now t.cfg
      have hafter : after utc (t :: before) = .ok s' := by
        rw [after, hs]
        change decide utc s t.checks t.now t.cfg >>= _ = _
        rw [hreturns]
        rfl
      exact ⟨s', hafter, hdecided.floats hfloats, hstep t before s s' hI hs hafter hdecided⟩

/-! ## The automaton -/

/-- The counters of a check and its place in the alarm set, as its history has them. -/
structure Tracks (cfg : Config) (c : Check) (history : List Bool) (s : State) : Prop where
  okRuns : (s.okRuns c).getD 0 = current true history
  failRuns : (s.failRuns c).getD 0 = current false history
  delivered : c.name ∈ s.delivered ↔ confirmed (need cfg c).toNat history = some false

section Tracks

variable {s s' : State} {checks : Checks} {now : ℚ} {cfg : Config} {c : Check} {history : List Bool}

theorem Decided.mem_delivered (h : Decided s checks now cfg s') (hc : c ∈ activeChecks cfg) :
    c.name ∈ s'.delivered ↔ Stays s checks cfg c := by
  rw [h.delivered]
  constructor
  · rintro ⟨c', _, hstays, heq⟩
    exact Check.name_injective heq ▸ hstays
  · exact fun hstays => ⟨c, hc, hstays, rfl⟩

theorem Tracks.suspended (h : Tracks cfg c history s) (hdecided : Decided s checks now cfg s')
    (hc : c ∈ activeChecks cfg) (hsuspends : suspends checks c) : Tracks cfg c history s' where
  okRuns := by rw [hdecided.okRuns c hc, okRunsAfter, if_pos hsuspends, h.okRuns]
  failRuns := by rw [hdecided.failRuns c hc, failRunsAfter, if_pos hsuspends, h.failRuns]
  delivered := by
    rw [hdecided.mem_delivered hc, ← h.delivered, Stays, or_iff_right fun hjoins =>
      hjoins.1 hsuspends, and_iff_left]
    intro hleaves
    rw [not_suspends_of_ok hleaves.1] at hsuspends
    cases hsuspends

theorem Tracks.ok (h : Tracks cfg c history s) (hdecided : Decided s checks now cfg s')
    (hc : c ∈ activeChecks cfg) (hok : (checks c).1 = .ok) : Tracks cfg c (true :: history) s' where
  okRuns := by
    rw [hdecided.okRuns c hc, okRunsAfter, if_neg (by simp [not_suspends_of_ok hok]),
      if_pos hok, Option.getD_some, h.okRuns, Streaks.current_cons_self]
    rfl
  failRuns := by
    rw [hdecided.failRuns c hc, failRunsAfter, if_neg (by simp [not_suspends_of_ok hok]),
      if_pos hok, Streaks.current_cons_of_ne (by decide)]
    rfl
  delivered := by
    rw [hdecided.mem_delivered hc, Stays, or_iff_right fun hjoins => hjoins.2.1 hok,
      Leaves, h.delivered, h.okRuns, Streaks.confirmed_cons, Streaks.current_cons_self]
    have hreached : (need cfg c).toNat ≤ current true history + 1 ↔
        need cfg c ≤ (current true history : Int) + 1 := by
      rw [Int.toNat_le]
      rfl
    split_ifs with hneed
    · simp [hok, hreached.mp hneed]
    · simp [hreached.not.mp hneed]

theorem Tracks.failed (h : Tracks cfg c history s) (hdecided : Decided s checks now cfg s')
    (hc : c ∈ activeChecks cfg) (hsuspends : ¬ suspends checks c) (hok : (checks c).1 ≠ .ok) :
    Tracks cfg c (false :: history) s' where
  okRuns := by
    rw [hdecided.okRuns c hc, okRunsAfter, if_neg hsuspends, if_neg hok,
      Streaks.current_cons_of_ne (by decide)]
    rfl
  failRuns := by
    rw [hdecided.failRuns c hc, failRunsAfter, if_neg hsuspends, if_neg hok,
      Option.getD_some, h.failRuns, Streaks.current_cons_self]
    rfl
  delivered := by
    have hkeeps : ¬ Leaves s checks cfg c := fun hleaves => hok hleaves.1
    rw [hdecided.mem_delivered hc, Stays, and_iff_left hkeeps, Joins, h.delivered,
      h.failRuns, Streaks.confirmed_cons, Streaks.current_cons_self]
    have hreached : (need cfg c).toNat ≤ current false history + 1 ↔
        need cfg c ≤ (current false history : Int) + 1 := by
      rw [Int.toNat_le]
      rfl
    split_ifs with hneed
    · have hneed := hreached.mp hneed
      simp only [iff_true]
      tauto
    · have hneed := hreached.not.mp hneed
      tauto

end Tracks

/-- A run, whatever its verdicts, keeps the automaton of each configured check. -/
theorem Tracks.step {t : Tick} {before : List Tick}
    {s s' : State} {c : Check} (h : Tracks t.cfg c (verdicts c before) s)
    (hdecided : Decided s t.checks t.now t.cfg s') (hc : c ∈ activeChecks t.cfg) :
    Tracks t.cfg c (verdicts c (t :: before)) s' := by
  rw [verdicts, List.filterMap_cons]
  by_cases hsuspends : suspends t.checks c
  · simp only [if_pos hsuspends]
    exact h.suspended hdecided hc hsuspends
  · simp only [if_neg hsuspends]
    by_cases hok : (t.checks c).1 = .ok
    · rw [decide_eq_true hok]
      exact h.ok hdecided hc hok
    · rw [decide_eq_false hok]
      exact h.failed hdecided hc hsuspends hok

/-- These runs under one configuration, the newest first. -/
def under (cfg : Config) (runs : List (Checks × ℚ)) : List Tick := runs.map fun r => ⟨cfg, r.1, r.2⟩

/-- Under one configuration, the state after any runs is that of the automaton of each configured
check, and nothing else is delivered. -/
theorem after_tracks (utc : Utc) (cfg : Config) (runs : List (Checks × ℚ)) :
    ∃ s, after utc (under cfg runs) = .ok s ∧
      s.Floats ∧ (∀ x ∈ s.delivered, ∃ c ∈ activeChecks cfg, c.name = x) ∧
      ∀ c ∈ activeChecks cfg, Tracks cfg c (verdicts c (under cfg runs)) s := by
  have hall := after_induction utc (I := fun ticks s => (∀ t ∈ ticks, t.cfg = cfg) →
    (∀ x ∈ s.delivered, ∃ c ∈ activeChecks cfg, c.name = x) ∧ ∀ c ∈ activeChecks cfg,
      Tracks cfg c (verdicts c ticks) s)
    (fun _ => ⟨fun _ hx => (nomatch hx), fun c _ => ⟨rfl, rfl, by simp [State.empty, verdicts]⟩⟩) ?_
      (under cfg runs)
  · obtain ⟨s, hs, hfloats, hI⟩ := hall
    refine ⟨s, hs, hfloats, hI fun t ht => ?_⟩
    obtain ⟨r, _, rfl⟩ := List.mem_map.mp ht
    rfl
  · intro t before s s' hI _ _ hdecided hcfg
    obtain rfl := hcfg t (List.mem_cons_self ..)
    refine ⟨fun x hx => ?_, fun c hc => ?_⟩
    · obtain ⟨c, hc, _, heq⟩ := (hdecided.delivered x).mp hx
      exact ⟨c, hc, heq⟩
    · exact ((hI fun t ht => hcfg t (List.mem_cons_of_mem _ ht)).2 c hc).step hdecided hc

/-- The newest run's own verdict of a check. -/
theorem verdicts_cons_of_not_suspends {c : Check} {t : Tick} (h : ¬ suspends t.checks c)
    (before : List Tick) :
    verdicts c (t :: before) = Decidable.decide ((t.checks c).1 = .ok) :: verdicts c before := by
  rw [verdicts, List.filterMap_cons]
  simp only [if_neg h]
  rfl

theorem verdicts_cons_of_suspends {c : Check} {t : Tick} (h : suspends t.checks c)
    (before : List Tick) : verdicts c (t :: before) = verdicts c before := by
  rw [verdicts, List.filterMap_cons]
  simp only [if_pos h]
  rfl

/-- Under one configuration that confirms after one run or more, after any runs a configured check
is delivered if and only if, among the runs that did not suspend it, the most recent maximal streak
to have reached its length was one of verdicts that were not ok; nothing else is delivered. And with
one run more, its place in the delivered set changes if and only if the run does not suspend it, its
verdict is the other one, and the streak of it reaches just that length. -/
theorem delivered_iff_confirmed (utc : Utc) (cfg : Config) (hconfirm : 1 ≤ cfg.confirmRuns)
    (runs : List (Checks × ℚ)) :
    ∃ s, after utc (under cfg runs) = .ok s ∧
      (∀ x ∈ s.delivered, ∃ c ∈ activeChecks cfg, c.name = x) ∧
      ∀ c ∈ activeChecks cfg,
        (c.name ∈ s.delivered ↔
          confirmed (need cfg c).toNat (verdicts c (under cfg runs)) = some false) ∧
        ∀ checks now, ∃ s', after utc (under cfg ((checks, now) :: runs)) = .ok s' ∧
          (¬ (c.name ∈ s'.delivered ↔ c.name ∈ s.delivered) ↔
            ¬ suspends checks c ∧ ((checks c).1 = .ok ↔ c.name ∈ s.delivered) ∧
              (current (Decidable.decide ((checks c).1 = .ok))
                (verdicts c (under cfg ((checks, now) :: runs))) : Int) = need cfg c) := by
  obtain ⟨s, hs, _, hknown, htracks⟩ := after_tracks utc cfg runs
  refine ⟨s, hs, hknown, fun c hc => ⟨(htracks c hc).delivered, fun checks now => ?_⟩⟩
  obtain ⟨s', hs', _, _, htracks'⟩ := after_tracks utc cfg ((checks, now) :: runs)
  refine ⟨s', hs', ?_⟩
  have hneed : 0 < need cfg c := by
    rw [need]
    split_ifs
    · exact Int.one_pos
    · exact hconfirm
  have hnat : ((need cfg c).toNat : Int) = need cfg c := Int.toNat_of_nonneg hneed.le
  rw [(htracks' c hc).delivered, (htracks c hc).delivered]
  change ¬ (confirmed (need cfg c).toNat (verdicts c (⟨cfg, checks, now⟩ :: under cfg runs)) = some
      false ↔ _) ↔ _ ∧ _ ∧ (current _ (verdicts c (⟨cfg, checks, now⟩ :: under cfg runs)) : Int) = _
  by_cases hsuspends : suspends checks c
  · rw [verdicts_cons_of_suspends hsuspends]
    simp [hsuspends]
  · rw [verdicts_cons_of_not_suspends hsuspends, Streaks.confirmed_cons]
    set v := Decidable.decide ((checks c).1 = .ok) with hv
    have hok : (checks c).1 = .ok ↔ v = true := (decide_eq_true_iff ..).symm
    split_ifs with hreached
    · -- a streak that was long enough before was confirmed before
      have hlong : (v = true ↔ confirmed (need cfg c).toNat (verdicts c (under cfg runs)) =
            some false) → current v (v :: verdicts c (under cfg runs)) = (need cfg c).toNat := by
        intro hsame
        refine le_antisymm ?_ hreached
        rw [Streaks.current_cons_self, Nat.succ_le_iff]
        by_contra hlong
        have hpos : 0 < (need cfg c).toNat := by omega
        rw [Streaks.confirmed_of_le_current hpos (Nat.le_of_not_lt hlong),
          Option.some.injEq] at hsame
        cases v <;> simp at hsame
      have hflip : ∀ (b : Bool) (p : Prop), ¬ (b = false ↔ p) ↔ (b = true ↔ p) := by
        intro b p
        cases b <;> simp
      rw [hok, Option.some.injEq, hflip]
      exact ⟨fun hsame => ⟨hsuspends, hsame, by rw [hlong hsame, hnat]⟩, fun h => h.2.1⟩
    · refine ⟨fun hchanges => absurd Iff.rfl hchanges, fun hchanged => absurd ?_ hreached⟩
      have heq := hchanged.2.2
      omega

namespace Confirmed

/-! ### A blip and an outage -/

def cfg : Config := ⟨"box", fun _ => "1", 2, 8⟩

def utc : Utc := ⟨fun _ => "2026-09-16", fun _ => 0⟩

/-- Every check but `mem` is ok. -/
def memIs (verdict : Verdict) : Checks := fun c => (if c = .mem then verdict else .ok, "")

/-- `mem` fails once, is ok, fails twice and is ok again. -/
def runs : List (Checks × ℚ) :=
  [(memIs .ok, 1500), (memIs .failed, 1200), (memIs .unknown, 900), (memIs .ok, 600),
    (memIs .failed, 300)]

/-- Its last streak of two was not ok, and `mem` is delivered. -/
theorem mem_alarmed : ∃ s, after utc (under cfg runs) = .ok s ∧ "mem" ∈ s.delivered := by
  obtain ⟨s, hs, _, hall⟩ := delivered_iff_confirmed utc cfg (by decide) runs
  exact ⟨s, hs, (hall .mem (by decide)).1.mpr (by decide)⟩

end Confirmed

end OtsServer.Watch
