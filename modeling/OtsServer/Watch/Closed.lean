import OtsServer.Watch.Decide

/-!
# Whether every alarm is closed

A run announces what enters the delivered set, and that the set emptied. The recovery test looks
at the working set, which keeps what the configuration has no check for any more, while the
recorded set does not; and the length of the outage is computed from numbers that a state may
hold and a float cannot.
-/

namespace OtsServer.Watch

def Alert.isDegraded : Alert → Bool
  | degraded .. => true
  | recovered .. => false

def Alert.isRecovered : Alert → Bool
  | degraded .. => false
  | recovered .. => true

/-- Some check enters the delivered set. -/
def Enters (s s' : State) : Prop := ∃ x ∈ s'.delivered, x ∉ s.delivered

/-- The delivered set empties. -/
def Empties (s s' : State) : Prop := s.delivered ≠ [] ∧ s'.delivered = []

/-- One DEGRADED message if a check enters, one RECOVERED message if the set empties, and no
other. -/
structure Announced (s s' : State) (alerts : List Alert) : Prop where
  enters : Enters s s' → alerts.countP Alert.isDegraded = 1
  stays : ¬ Enters s s' → alerts.countP Alert.isDegraded = 0
  empties : Empties s s' → alerts.countP Alert.isRecovered = 1
  keeps : ¬ Empties s s' → alerts.countP Alert.isRecovered = 0
  noOther : ∀ a ∈ alerts, a.isDegraded ∨ a.isRecovered

/-- Nothing was delivered, or something is after this run, or what was delivered are checks that are
configured and whose outages began at times a float holds. -/
def Closable (s : State) (checks : Checks) (now : ℚ) (cfg : Config) : Prop :=
  s.delivered = [] ∨ (∃ c ∈ activeChecks cfg, Stays s checks cfg c) ∨
    ∀ x ∈ s.delivered, ∃ c ∈ activeChecks cfg, c.name = x ∧ ∃ start,
      started s.since now c = .ok start

section Closed

variable {utc : Utc} {s s' : State} {checks : Checks} {now : ℚ} {cfg : Config}

/-- A check enters when one joins. -/
theorem Decided.enters_iff (h : Decided s checks now cfg s') :
    Enters s s' ↔ ∃ c ∈ activeChecks cfg, Joins s checks cfg c := by
  constructor
  · rintro ⟨x, hx, hnew⟩
    obtain ⟨c, hc, hstays, rfl⟩ := (h.delivered x).mp hx
    exact ⟨c, hc, hstays.resolve_right fun hold => hnew hold.1⟩
  · rintro ⟨c, hc, hjoins⟩
    exact ⟨c.name, (h.delivered _).mpr ⟨c, hc, .inl hjoins, rfl⟩, hjoins.2.2.1⟩

/-- The recorded set is empty when no configured check stays. -/
theorem Decided.delivered_eq_nil (h : Decided s checks now cfg s') :
    s'.delivered = [] ↔ ∀ c ∈ activeChecks cfg, ¬ Stays s checks cfg c := by
  rw [List.eq_nil_iff_forall_not_mem]
  constructor
  · exact fun hnil c hc hstays => hnil c.name ((h.delivered _).mpr ⟨c, hc, hstays, rfl⟩)
  · intro hnone x hx
    obtain ⟨c, hc, hstays, _⟩ := (h.delivered x).mp hx
    exact hnone c hc hstays

theorem Clears.not_stays (h : Clears s checks cfg) {c : Check} (hc : c ∈ activeChecks cfg) :
    ¬ Stays s checks cfg c := by
  rintro (hjoins | ⟨hdelivered, hnot⟩)
  · exact h.2.2 c hc hjoins
  · obtain ⟨c', _, hleaves, heq⟩ := h.2.1 _ hdelivered
    exact hnot (Check.name_injective heq ▸ hleaves)

theorem Clears.mem_left (h : Clears s checks cfg) (c : Check) :
    c ∈ (activeChecks cfg).filter (Leaves s checks cfg) ↔ c ∈ activeChecks cfg ∧
      c.name ∈ s.delivered := by
  rw [List.mem_filter, decide_eq_true_eq]
  refine and_congr_right fun hc => ⟨fun hleaves => hleaves.2.1, fun hdelivered => ?_⟩
  by_contra hnot
  exact h.not_stays hc (.inr ⟨hdelivered, hnot⟩)

/-- When configured checks are delivered and none of them stays, they all leave. -/
theorem clears_of_not_stays (hdelivered : s.delivered ≠ [])
    (hactive : ∀ x ∈ s.delivered, ∃ c ∈ activeChecks cfg, c.name = x)
    (hnone : ∀ c ∈ activeChecks cfg, ¬ Stays s checks cfg c) : Clears s checks cfg := by
  refine ⟨hdelivered, fun x hx => ?_, fun c hc hjoins => hnone c hc (.inl hjoins)⟩
  obtain ⟨c, hc, rfl⟩ := hactive x hx
  refine ⟨c, hc, ?_, rfl⟩
  by_contra hnot
  exact hnone c hc (.inr ⟨hx, hnot⟩)

/-- What a run announces that empties no working set. -/
theorem announced_of_not_clears (h : ¬ Clears s checks cfg)
    (hclosable : Closable s checks now cfg) :
    Announced s (nextState utc s (sweep s checks now cfg) now cfg)
      (degradedAlerts (sweep s checks now cfg) checks cfg) := by
  have hdecided := nextState_decided utc s checks now cfg
  have hkeeps : ¬ Empties s (nextState utc s (sweep s checks now cfg) now cfg) := by
    rintro ⟨hdelivered, hnil⟩
    have hnone := hdecided.delivered_eq_nil.mp hnil
    obtain hold | ⟨c, hc, hstays⟩ | hactive := hclosable
    · exact hdelivered hold
    · exact hnone c hc hstays
    · refine h (clears_of_not_stays hdelivered (fun x hx => ?_) hnone)
      obtain ⟨c, hc, heq, _⟩ := hactive x hx
      exact ⟨c, hc, heq⟩
  obtain ⟨hjoins, halerts⟩ | ⟨hjoins, what, still, halerts⟩ := degradedAlerts_cases s checks now cfg
  · rw [halerts]
    refine ⟨fun henters => ?_, fun _ => rfl, fun hempties => absurd hempties hkeeps,
      fun _ => rfl, fun _ ha => nomatch ha⟩
    obtain ⟨c, hc, hjoin⟩ := hdecided.enters_iff.mp henters
    exact absurd hjoin (hjoins c hc)
  · rw [halerts]
    refine ⟨fun _ => rfl, fun henters => absurd (hdecided.enters_iff.mpr hjoins) henters,
      fun hempties => absurd hempties hkeeps, fun _ => rfl, fun a ha => ?_⟩
    obtain rfl := List.mem_singleton.mp ha
    exact .inl rfl

theorem announced_of_clears (h : Clears s checks cfg) (dur : ℚ) :
    Announced s (nextState utc s (sweep s checks now cfg) now cfg)
      [recoveredAlert s checks cfg dur] := by
  have hdecided := nextState_decided utc s checks now cfg
  have hnil := hdecided.delivered_eq_nil.mpr fun c hc => h.not_stays hc
  refine ⟨fun henters => ?_, fun _ => rfl, fun _ => rfl, fun hkeeps => absurd ⟨h.1, hnil⟩ hkeeps,
    fun a ha => ?_⟩
  · obtain ⟨x, hx, _⟩ := henters
    rw [hnil] at hx
    exact nomatch hx
  · obtain rfl := List.mem_singleton.mp ha
    exact .inr rfl

end Closed

/-- A run returns and announces what enters and that the set emptied if and only if nothing was
delivered before, or a configured check is delivered after it, or everything delivered before
is a configured check whose outage began at a time a float holds. -/
theorem alarms_closed_iff (utc : Utc) (s : State) (checks : Checks) (now : ℚ) (cfg : Config) :
    (∃ s' alerts, decide utc s checks now cfg = .ok (s', alerts) ∧ Announced s s' alerts) ↔
      Closable s checks now cfg := by
  by_cases hclears : Clears s checks cfg
  · rw [decide_of_clears hclears]
    constructor
    · rintro ⟨s', alerts, hreturns, _⟩
      refine .inr (.inr fun x hx => ?_)
      obtain ⟨c, hc, hleaves, rfl⟩ := hclears.2.1 x hx
      refine ⟨c, hc, rfl, ?_⟩
      cases houtage : outage s.since now ((activeChecks cfg).filter (Leaves s checks cfg)) with
      | error e =>
          rw [houtage] at hreturns
          exact nomatch hreturns
      | ok dur => exact outage_ok_iff.mp ⟨dur, houtage⟩ c ((hclears.mem_left c).mpr ⟨hc, hx⟩)
    · intro hclosable
      have hstarted : ∀ c ∈ (activeChecks cfg).filter (Leaves s checks cfg),
          ∃ start, started s.since now c = .ok start := by
        intro c hc
        obtain ⟨hc, hdelivered⟩ := (hclears.mem_left c).mp hc
        obtain hold | ⟨c', hc', hstays⟩ | hactive := hclosable
        · exact absurd hold hclears.1
        · exact absurd hstays (hclears.not_stays hc')
        · obtain ⟨c', _, heq, hstart⟩ := hactive _ hdelivered
          exact Check.name_injective heq ▸ hstart
      obtain ⟨dur, houtage⟩ := outage_ok_iff.mpr hstarted
      exact ⟨_, _, by rw [houtage]; rfl, announced_of_clears hclears dur⟩
  · rw [decide_of_not_clears hclears]
    constructor
    · rintro ⟨s', alerts, hreturns, hannounced⟩
      obtain ⟨rfl, rfl⟩ := Prod.mk.inj (Except.ok.inj hreturns)
      by_contra hnot
      simp only [Closable, not_or, not_exists, not_and] at hnot
      obtain ⟨hdelivered, hnone, _⟩ := hnot
      have hcount := hannounced.empties
        ⟨hdelivered, (nextState_decided utc s checks now cfg).delivered_eq_nil.mpr hnone⟩
      obtain ⟨_, halerts⟩ | ⟨_, what, still, halerts⟩ :=
        degradedAlerts_cases s checks now cfg
      · rw [halerts] at hcount
        exact nomatch hcount
      · rw [halerts] at hcount
        exact nomatch hcount
    · exact fun hclosable => ⟨_, _, rfl, announced_of_not_clears hclears hclosable⟩

namespace Unconfigured

/-! ### A delivered check that is not configured any more -/

/-- `mem` has been ok once, and `temp` was delivered when it was configured. -/
def state : State :=
  { State.empty with
    delivered := ["temp", "mem"]
    okRuns := fun c => if c = .mem then some 1 else none }

def cfg : Config := ⟨"box", fun k => if k = .tempC then "" else "1", 2, 8⟩

def allOk : Checks := fun _ => (.ok, "")

def utc : Utc := ⟨fun _ => "2026-09-16", fun _ => 0⟩

end Unconfigured

open Unconfigured in
/-- `mem` is ok again and leaves, and nothing is delivered any more: no message closes the alarm. -/
theorem alarm_may_stay_open :
    ∃ s' alerts, decide utc state allOk 1789500000 cfg = .ok (s', alerts) ∧
    Empties state s' ∧ ¬ Announced state s' alerts := by
  have hnot : ¬ Clears state allOk cfg := by
    rintro ⟨_, hall, _⟩
    obtain ⟨c, hc, hleaves, hname⟩ := hall "temp" (by decide)
    obtain rfl : c = .temp := Check.name_injective hname
    exact absurd hc (by decide)
  have hnone : ∀ c ∈ activeChecks cfg, ¬ Stays state allOk cfg c := by
    rintro c hc (hjoins | ⟨hdelivered, hnot⟩)
    · exact hjoins.2.1 rfl
    · cases c <;> first
        | exact absurd hdelivered (by decide)
        | exact hnot (by decide)
        | exact absurd hc (by decide)
  have hempties :
      Empties state (nextState utc state (sweep state allOk 1789500000 cfg) 1789500000 cfg) :=
    ⟨by decide, (nextState_decided ..).delivered_eq_nil.mpr hnone⟩
  refine ⟨_, _, decide_of_not_clears hnot, hempties, fun hannounced => ?_⟩
  have hcount := hannounced.empties hempties
  have halerts : degradedAlerts (sweep state allOk 1789500000 cfg) allOk cfg = [] := by decide
  rw [halerts] at hcount
  exact nomatch hcount

end OtsServer.Watch
