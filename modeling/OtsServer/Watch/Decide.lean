import OtsServer.Library.Traverse
import OtsServer.Watch.Run
import Mathlib.Data.List.Induction
import Mathlib.Data.List.Nodup
import Mathlib.Data.Rat.Floor

/-!
# What the watcher decides

`decide` takes the state as last recorded, the verdicts of a run and its time, and gives the new
state and the messages. Times are rational numbers: a time a run takes is a float, and a state may
also hold integers, which Python converts before it subtracts them from a float. The state is
kept as `valid_state` has it, an absent field as an empty one; the copy through JSON changes
nothing in it.
-/

namespace OtsServer.Watch

/-! ## The checks -/

inductive Check
  | healthReach | health | calendar | containers | unitsSystem | unitsUser | diskRoot | diskBoot
  | temp | mem | feeder | endpoint | journalErrors | sshFailures | journalRead | anchorAge
  | rebootWanted | egressDrops | dhcpLease | torCircuits | btcPeers | sshUnexpected
deriving DecidableEq

namespace Check

def name : Check → String
  | healthReach => "health_reach"
  | health => "health"
  | calendar => "calendar"
  | containers => "containers"
  | unitsSystem => "units_system"
  | unitsUser => "units_user"
  | diskRoot => "disk_root"
  | diskBoot => "disk_boot"
  | temp => "temp"
  | mem => "mem"
  | feeder => "feeder"
  | endpoint => "endpoint"
  | journalErrors => "journal_errors"
  | sshFailures => "ssh_failures"
  | journalRead => "journal_read"
  | anchorAge => "anchor_age"
  | rebootWanted => "reboot_wanted"
  | egressDrops => "egress_drops"
  | dhcpLease => "dhcp_lease"
  | torCircuits => "tor_circuits"
  | btcPeers => "btc_peers"
  | sshUnexpected => "ssh_unexpected"

/-- `ORDER`. -/
def order : List Check :=
  [healthReach, health, calendar, containers, unitsSystem, unitsUser, diskRoot, diskBoot,
    temp, mem, feeder, endpoint, journalErrors, sshFailures, journalRead, anchorAge,
    rebootWanted, egressDrops, dhcpLease, torCircuits, btcPeers, sshUnexpected]

/-- `BURST_CHECKS`. -/
def burstChecks : List Check := [journalErrors, sshFailures, egressDrops, sshUnexpected]

/-- `OWNED_BY`. -/
def ownedBy : Check → Option Check
  | health => some healthReach
  | journalErrors => some journalRead
  | sshFailures => some journalRead
  | egressDrops => some journalRead
  | sshUnexpected => some journalRead
  | _ => none

end Check

/-- The knobs that a check may be left out by. -/
inductive Knob
  | healthUrl | calendarUrl | containers | unitsSystem | unitsUser | diskRoot | diskBoot | tempC
  | memMb | feederLog | endpointHeartbeat | receipts | dhcpIface | torContainer | btcP2pPort
deriving DecidableEq

/-- `SKIP_WHEN_EMPTY`. -/
def skipWhenEmpty : Check → Option Knob
  | .healthReach => some .healthUrl
  | .health => some .healthUrl
  | .calendar => some .calendarUrl
  | .containers => some .containers
  | .unitsSystem => some .unitsSystem
  | .unitsUser => some .unitsUser
  | .diskRoot => some .diskRoot
  | .diskBoot => some .diskBoot
  | .temp => some .tempC
  | .mem => some .memMb
  | .feeder => some .feederLog
  | .endpoint => some .endpointHeartbeat
  | .anchorAge => some .receipts
  | .dhcpLease => some .dhcpIface
  | .torCircuits => some .torContainer
  | .btcPeers => some .btcP2pPort
  | _ => none

/-- What `decide` reads of a configuration; `name` is `box_name`. -/
structure Config where
  name : String
  knob : Knob → String
  confirmRuns : Int
  heartbeatHour : Int

/-- `active_checks`. -/
def activeChecks (cfg : Config) : List Check :=
  Check.order.filter fun c => ((skipWhenEmpty c).map cfg.knob).getD "-" ≠ ""

inductive Verdict
  | ok
  | failed
  | unknown
deriving DecidableEq

/-- What `evaluate` returns: a verdict and a detail for every check. -/
abbrev Checks := Check → Verdict × String

/-! ## The state -/

/-- A number of a state. -/
inductive Number
  | int (i : Int)
  | float (q : ℚ)
deriving DecidableEq

/-- The number as an operand beside a float. From here on the nearest float would be infinite, and
the conversion raises OverflowError. -/
def Number.toFloat : Number → Except Fault ℚ
  | int i => if i.natAbs < 2 ^ 1024 - 2 ^ 970 then .ok i else .error .other
  | float q => .ok q

/-- The fields of a state that `decide` reads or writes. -/
structure State where
  delivered : List String
  failRuns : Check → Option Int
  okRuns : Check → Option Int
  since : Check → Option Number
  heartbeatDay : Option String
  heartbeatPending : Bool

/-- `{}`. -/
def State.empty : State := ⟨[], fun _ => none, fun _ => none, fun _ => none, none, false⟩

/-- The day and the hour of a time. -/
structure Utc where
  day : ℚ → String
  hour : ℚ → Int

/-! ## The messages -/

inductive Alert
  /-- What joined, and what is delivered still. -/
  | degraded (what still : List String)
  /-- What left after how long, of how many checks, and what is not ok now. -/
  | recovered (left : List Check) (dur : ℚ) (total : Nat) (notClear : List String)
deriving DecidableEq

/-! ## The loop over the checks -/

/-- What the loop works on. `delivered` is the set of the names delivered. -/
structure Sweep where
  failRuns : Check → Option Int
  okRuns : Check → Option Int
  since : Check → Option Number
  delivered : List String
  joined : List Check
  left : List Check
  suspended : List Check

/-- Unknown because its owner is not ok. -/
def suspends (checks : Checks) (c : Check) : Bool :=
  (checks c).1 = .unknown && (Check.ownedBy c).any fun owner => (checks owner).1 ≠ .ok

def need (cfg : Config) (c : Check) : Int := if c ∈ Check.burstChecks then 1 else cfg.confirmRuns

/-- One check's turn. -/
def Sweep.visit (cfg : Config) (checks : Checks) (now : ℚ) (s : Sweep) (c : Check) : Sweep :=
  if suspends checks c then { s with suspended := s.suspended ++ [c] }
  else if (checks c).1 = .ok then
    let okRuns := (s.okRuns c).getD 0 + 1
    let s :=
      { s with
        failRuns := Function.update s.failRuns c (some 0)
        okRuns := Function.update s.okRuns c (some okRuns) }
    if c.name ∈ s.delivered ∧ need cfg c ≤ okRuns then
      { s with delivered := s.delivered.filter (· ≠ c.name), left := s.left ++ [c] }
    else s
  else
    let failRuns := (s.failRuns c).getD 0 + 1
    let s :=
      { s with
        okRuns := Function.update s.okRuns c (some 0)
        failRuns := Function.update s.failRuns c (some failRuns)
        since := Function.update s.since c (some ((s.since c).getD (.float now))) }
    if c.name ∉ s.delivered ∧ need cfg c ≤ failRuns then
      { s with delivered := c.name :: s.delivered, joined := s.joined ++ [c] }
    else s

def sweep (s : State) (checks : Checks) (now : ℚ) (cfg : Config) : Sweep :=
  (activeChecks cfg).foldl (Sweep.visit cfg checks now)
    ⟨s.failRuns, s.okRuns, s.since, s.delivered, [], [], []⟩

/-- When a check began to fail, as an operand beside `now`. -/
def started (since : Check → Option Number) (now : ℚ) (c : Check) : Except Fault ℚ :=
  ((since c).getD (.float now)).toFloat

/-- How long the oldest of what left has been failing. -/
def outage (since : Check → Option Number) (now : ℚ) (left : List Check) : Except Fault ℚ := do
  let starts ← left.mapM (started since now)
  pure ((starts.map fun start => now - start).max?.getD 0)

/-- The text of a check that is delivered still. -/
def stillText (checks : Checks) (c : Check) : String :=
  if (checks c).1 ≠ .ok then (checks c).2 else c.name ++ " recovering"

def degradedAlerts (sw : Sweep) (checks : Checks) (cfg : Config) : List Alert :=
  let still := (activeChecks cfg).filter fun c => c.name ∈ sw.delivered ∧ c ∉ sw.joined ∧
    c ∉ sw.suspended
  if sw.joined = [] then []
  else [.degraded (sw.joined.map fun c => (checks c).2) (still.map (stillText checks))]

def recoveredAlerts (sw : Sweep) (checks : Checks) (now : ℚ) (cfg : Config) :
    Except Fault (List Alert) :=
  if sw.left ≠ [] ∧ sw.delivered = [] then do
    let dur ← outage sw.since now sw.left
    let notClear := (activeChecks cfg).filter fun c => (checks c).1 ≠ .ok
    pure [.recovered sw.left dur (activeChecks cfg).length (notClear.map fun c => (checks c).2)]
  else pure []

/-- The state after the loop; a heartbeat is due once a day from its hour on. -/
def nextState (utc : Utc) (s : State) (sw : Sweep) (now : ℚ) (cfg : Config) : State :=
  let today := utc.day now
  let heartbeat : Bool := s.heartbeatDay ≠ some today ∧ cfg.heartbeatHour ≤ utc.hour now
  { delivered := ((activeChecks cfg).filter fun c => c.name ∈ sw.delivered).map Check.name
    failRuns := sw.failRuns
    okRuns := sw.okRuns
    since := fun c => if c ∈ sw.left then none else sw.since c
    heartbeatDay := if heartbeat then some today else s.heartbeatDay
    heartbeatPending := s.heartbeatPending || heartbeat }

def decide (utc : Utc) (s : State) (checks : Checks) (now : ℚ) (cfg : Config) :
    Except Fault (State × List Alert) :=
  do
  let sw := sweep s checks now cfg
  let recovered ← recoveredAlerts sw checks now cfg
  pure (nextState utc s sw now cfg, degradedAlerts sw checks cfg ++ recovered)

/-! ## What the loop does -/

namespace Check

theorem mem_order (c : Check) : c ∈ order := by cases c <;> decide

theorem order_nodup : order.Nodup := by decide

/-- A check has a name of its own. -/
theorem name_injective : Function.Injective name := by
  have hnodup : (order.map name).Nodup := by decide
  intro c c' h
  exact List.inj_on_of_nodup_map hnodup (mem_order c) (mem_order c') h

@[simp] theorem name_inj {c c' : Check} : c.name = c'.name ↔ c = c' := name_injective.eq_iff

end Check

theorem activeChecks_nodup (cfg : Config) : (activeChecks cfg).Nodup := Check.order_nodup.filter _

/-- The check enters the delivered set in this run. -/
def Joins (s : State) (checks : Checks) (cfg : Config) (c : Check) : Prop :=
  ¬ suspends checks c ∧ (checks c).1 ≠ .ok ∧ c.name ∉ s.delivered ∧
    need cfg c ≤ (s.failRuns c).getD 0 + 1

/-- The check leaves the delivered set in this run. -/
def Leaves (s : State) (checks : Checks) (cfg : Config) (c : Check) : Prop :=
  (checks c).1 = .ok ∧ c.name ∈ s.delivered ∧ need cfg c ≤ (s.okRuns c).getD 0 + 1

instance (s : State) (checks : Checks) (cfg : Config) : DecidablePred (Joins s checks cfg) :=
  fun _ =>
  inferInstanceAs (Decidable (_ ∧ _))

instance (s : State) (checks : Checks) (cfg : Config) : DecidablePred (Leaves s checks cfg) :=
  fun _ =>
  inferInstanceAs (Decidable (_ ∧ _))

theorem not_suspends_of_ok {checks : Checks} {c : Check} (h : (checks c).1 = .ok) :
    suspends checks c = false := by
  simp [suspends, h]

/-- The counters and the start after a check's turn. -/
def failRunsAfter (s : State) (checks : Checks) (c : Check) : Option Int :=
  if suspends checks c then s.failRuns c
  else if (checks c).1 = .ok then some 0 else some ((s.failRuns c).getD 0 + 1)

def okRunsAfter (s : State) (checks : Checks) (c : Check) : Option Int :=
  if suspends checks c then s.okRuns c
  else if (checks c).1 = .ok then some ((s.okRuns c).getD 0 + 1) else some 0

def sinceAfter (s : State) (checks : Checks) (now : ℚ) (c : Check) : Option Number :=
  if suspends checks c ∨ (checks c).1 = .ok then s.since c else some ((s.since c).getD (.float now))

/-- What the loop has done when these checks had their turns. -/
structure Did (s : State) (checks : Checks) (now : ℚ) (cfg : Config) (done : List Check)
    (sw : Sweep) : Prop where
  failRuns : ∀ c, sw.failRuns c = if c ∈ done then failRunsAfter s checks c else s.failRuns c
  okRuns : ∀ c, sw.okRuns c = if c ∈ done then okRunsAfter s checks c else s.okRuns c
  since : ∀ c, sw.since c = if c ∈ done then sinceAfter s checks now c else s.since c
  delivered : ∀ x, x ∈ sw.delivered ↔
    (x ∈ s.delivered ∧ ∀ c ∈ done, Leaves s checks cfg c → c.name ≠ x) ∨ ∃ c ∈ done,
      Joins s checks cfg c ∧ c.name = x
  joined : sw.joined = done.filter (Joins s checks cfg)
  left : sw.left = done.filter (Leaves s checks cfg)
  suspended : sw.suspended = done.filter fun c => suspends checks c

section Sweep

variable {s : State} {checks : Checks} {now : ℚ} {cfg : Config} {done : List Check} {sw : Sweep}

/-- What a turn does to a table with an entry for each check. -/
theorem update_turn {α : Type*} {table before after : Check → α} {c : Check}
    (h : ∀ c', table c' = if c' ∈ done then after c' else before c') (c' : Check) :
    Function.update table c (after c) c' = if c' ∈ done ++ [c] then after c' else before c' := by
  by_cases hc : c' = c
  · subst hc
    simp
  · rw [Function.update_of_ne hc, h]
    simp [hc]

/-- A check that has not had its turn is delivered as before. -/
theorem Did.mem_delivered (h : Did s checks now cfg done sw) {c : Check} (hc : c ∉ done) :
    c.name ∈ sw.delivered ↔ c.name ∈ s.delivered := by
  rw [h.delivered, or_iff_left, and_iff_left]
  · intro c' hc' _ heq
    exact hc (Check.name_injective heq ▸ hc')
  · rintro ⟨c', hc', _, heq⟩
    exact hc (Check.name_injective heq ▸ hc')

theorem keep_turn {α : Type*} {table before after : Check → α} {c : Check}
    (h : ∀ c', table c' = if c' ∈ done then after c' else before c') (hkept : after c = before c)
    (c' : Check) : table c' = if c' ∈ done ++ [c] then after c' else before c' := by
  rw [h]
  by_cases hc : c' = c
  · subst hc
    simp [hkept]
  · simp [hc]

theorem filter_turn (p : Check → Bool) (done : List Check) (c : Check) :
    (done ++ [c]).filter p = if p c then done.filter p ++ [c] else done.filter p := by
  rw [List.filter_append]
  cases hc : p c <;> simp [hc]

/-- What a turn does to the delivered set. -/
theorem Did.delivered_turn (h : Did s checks now cfg done sw) {c : Check} (hc : c ∉ done)
    (x : String) :
    ((x ∈ s.delivered ∧ ∀ c' ∈ done ++ [c], Leaves s checks cfg c' → c'.name ≠ x) ∨
        ∃ c' ∈ done ++ [c], Joins s checks cfg c' ∧ c'.name = x) ↔
      (x ∈ sw.delivered ∧ (Leaves s checks cfg c → c.name ≠ x)) ∨
        (Joins s checks cfg c ∧ c.name = x) := by
  simp only [List.mem_append, List.mem_singleton, h.delivered]
  constructor
  · rintro (⟨hx, hall⟩ | ⟨c', hc' | rfl, hjoins, rfl⟩)
    · exact .inl ⟨.inl ⟨hx, fun c' hc' => hall c' (.inl hc')⟩, hall c (.inr rfl)⟩
    · exact .inl ⟨.inr ⟨c', hc', hjoins, rfl⟩, fun _ heq => hc (Check.name_injective heq ▸ hc')⟩
    · exact .inr ⟨hjoins, rfl⟩
  · rintro (⟨⟨hx, hall⟩ | ⟨c', hc', hjoins, rfl⟩, hleaves⟩ | ⟨hjoins, rfl⟩)
    · refine .inl ⟨hx, ?_⟩
      rintro c' (hc' | rfl)
      · exact hall c' hc'
      · exact hleaves
    · exact .inr ⟨c', .inl hc', hjoins, rfl⟩
    · exact .inr ⟨c, .inr rfl, hjoins, rfl⟩

/-- One check's turn. -/
theorem Did.visit (h : Did s checks now cfg done sw) {c : Check} (hc : c ∉ done) :
    Did s checks now cfg (done ++ [c]) (sw.visit cfg checks now c) := by
  have hfail := h.failRuns c
  have hok := h.okRuns c
  have hsince := h.since c
  rw [if_neg hc] at hfail hok hsince
  have hmem := h.mem_delivered hc
  have hjoined := filter_turn (fun c => Joins s checks cfg c) done c
  have hleft := filter_turn (fun c => Leaves s checks cfg c) done c
  have hsuspended := filter_turn (fun c => suspends checks c) done c
  simp only [← h.joined, decide_eq_true_eq] at hjoined
  simp only [← h.left, decide_eq_true_eq] at hleft
  rw [← h.suspended] at hsuspended
  have hdelivered := h.delivered_turn hc
  unfold Sweep.visit
  by_cases hsuspends : suspends checks c
  · have hjoins : ¬ Joins s checks cfg c := fun hjoins => hjoins.1 hsuspends
    have hleaves : ¬ Leaves s checks cfg c := fun hleaves => by
      rw [not_suspends_of_ok hleaves.1] at hsuspends
      exact nomatch hsuspends
    rw [if_neg hjoins] at hjoined
    rw [if_neg hleaves] at hleft
    rw [if_pos hsuspends] at hsuspended ⊢
    refine ⟨keep_turn h.failRuns (by rw [failRunsAfter, if_pos hsuspends]),
      keep_turn h.okRuns (by rw [okRunsAfter, if_pos hsuspends]),
      keep_turn h.since (by rw [sinceAfter, if_pos (.inl hsuspends)]), fun x => ?_,
      hjoined.symm, hleft.symm,
      hsuspended.symm⟩
    rw [hdelivered]
    simp [hjoins, hleaves]
  · rw [if_neg hsuspends] at hsuspended ⊢
    by_cases hisok : (checks c).1 = .ok
    · have hjoins : ¬ Joins s checks cfg c := fun hjoins => hjoins.2.1 hisok
      rw [if_neg hjoins] at hjoined
      rw [if_pos hisok]
      have hfailRuns := update_turn h.failRuns (c := c)
      have hokRuns := update_turn h.okRuns (c := c)
      rw [failRunsAfter, if_neg hsuspends, if_pos hisok] at hfailRuns
      rw [okRunsAfter, if_neg hsuspends, if_pos hisok, ← hok] at hokRuns
      have hsinceKept := keep_turn h.since (c := c) (by rw [sinceAfter, if_pos (.inr hisok)])
      have hleaves : (c.name ∈ sw.delivered ∧ need cfg c ≤ (sw.okRuns c).getD 0 + 1) ↔
          Leaves s checks cfg c := by
        rw [hmem, hok]
        exact ⟨fun h => ⟨hisok, h⟩, fun h => h.2⟩
      simp only [hleaves]
      split_ifs with hleave
      · rw [if_pos hleave] at hleft
        refine ⟨hfailRuns, hokRuns, hsinceKept, fun x => ?_, hjoined.symm, hleft.symm,
          hsuspended.symm⟩
        rw [hdelivered]
        simp [hjoins, hleave, eq_comm (a := x)]
      · rw [if_neg hleave] at hleft
        refine ⟨hfailRuns, hokRuns, hsinceKept, fun x => ?_, hjoined.symm, hleft.symm,
          hsuspended.symm⟩
        rw [hdelivered]
        simp [hjoins, hleave]
    · have hleaves : ¬ Leaves s checks cfg c := fun hleaves => hisok hleaves.1
      rw [if_neg hleaves] at hleft
      rw [if_neg hisok]
      have hfailRuns := update_turn h.failRuns (c := c)
      have hokRuns := update_turn h.okRuns (c := c)
      have hsinceSet := update_turn h.since (c := c)
      rw [failRunsAfter, if_neg hsuspends, if_neg hisok, ← hfail] at hfailRuns
      rw [okRunsAfter, if_neg hsuspends, if_neg hisok] at hokRuns
      rw [sinceAfter, if_neg (by tauto), ← hsince] at hsinceSet
      have hjoins : (c.name ∉ sw.delivered ∧ need cfg c ≤ (sw.failRuns c).getD 0 + 1) ↔
          Joins s checks cfg c := by
        rw [hmem, hfail]
        exact ⟨fun h => ⟨hsuspends, hisok, h⟩, fun h => h.2.2⟩
      simp only [hjoins]
      split_ifs with hjoin
      · rw [if_pos hjoin] at hjoined
        refine ⟨hfailRuns, hokRuns, hsinceSet, fun x => ?_, hjoined.symm, hleft.symm,
          hsuspended.symm⟩
        rw [hdelivered]
        simp [hjoin, hleaves, or_comm, eq_comm (a := x)]
      · rw [if_neg hjoin] at hjoined
        refine ⟨hfailRuns, hokRuns, hsinceSet, fun x => ?_, hjoined.symm, hleft.symm,
          hsuspended.symm⟩
        rw [hdelivered]
        simp [hjoin, hleaves]

theorem sweep_did (s : State) (checks : Checks) (now : ℚ) (cfg : Config) :
    Did s checks now cfg (activeChecks cfg) (sweep s checks now cfg) := by
  have hrun : ∀ l : List Check, l.Nodup →
      Did s checks now cfg l (l.foldl (Sweep.visit cfg checks now)
            ⟨s.failRuns, s.okRuns, s.since, s.delivered, [], [], []⟩) := by
    intro l
    induction l using List.reverseRecOn with
    | nil =>
        intro _
        constructor <;> simp
    | append_singleton l c ih =>
        intro hnodup
        obtain ⟨hl, _, hdisjoint⟩ := List.nodup_append.mp hnodup
        rw [List.foldl_append]
        exact (ih hl).visit fun hc => hdisjoint c hc c (List.mem_singleton_self c) rfl
  exact hrun _ (activeChecks_nodup cfg)

end Sweep

/-! ## What `decide` returns -/

/-- In the delivered set after the run. -/
def Stays (s : State) (checks : Checks) (cfg : Config) (c : Check) : Prop :=
  Joins s checks cfg c ∨ c.name ∈ s.delivered ∧ ¬ Leaves s checks cfg c

section Decide

variable {utc : Utc} {s s' : State} {checks : Checks} {now : ℚ} {cfg : Config} {alerts : List Alert}

theorem Joins.not_leaves {c : Check} (h : Joins s checks cfg c) : ¬ Leaves s checks cfg c :=
  fun hleaves =>
  h.2.1 hleaves.1

theorem mem_sweep_delivered {c : Check} (hc : c ∈ activeChecks cfg) :
    c.name ∈ (sweep s checks now cfg).delivered ↔ Stays s checks cfg c := by
  rw [(sweep_did s checks now cfg).delivered, Stays, or_comm]
  refine or_congr ⟨?_, fun h => ⟨c, hc, h, rfl⟩⟩ (and_congr_right fun _ =>
      ⟨fun h hleaves => h c hc hleaves rfl, ?_⟩)
  · rintro ⟨c', _, hjoins, heq⟩
    exact Check.name_injective heq ▸ hjoins
  · intro h c' _ hleaves heq
    exact h (Check.name_injective heq ▸ hleaves)

/-- The working set is empty when everything delivered leaves and nothing joins. -/
theorem sweep_delivered_eq_nil : (sweep s checks now cfg).delivered = [] ↔
    (∀ x ∈ s.delivered, ∃ c ∈ activeChecks cfg, Leaves s checks cfg c ∧ c.name = x) ∧
      ∀ c ∈ activeChecks cfg, ¬ Joins s checks cfg c := by
  have hdelivered := (sweep_did s checks now cfg).delivered
  rw [List.eq_nil_iff_forall_not_mem]
  constructor
  · refine fun h =>
      ⟨fun x hx => ?_, fun c hc hjoins => h c.name ((hdelivered _).mpr (.inr ⟨c, hc, hjoins, rfl⟩))⟩
    by_contra hnone
    exact h x ((hdelivered x).mpr (.inl ⟨hx, fun c hc hleaves heq => hnone ⟨c, hc, hleaves, heq⟩⟩))
  · rintro ⟨hall, hnone⟩ x hx
    obtain ⟨hx, hkeeps⟩ | ⟨c, hc, hjoins, _⟩ := (hdelivered x).mp hx
    · obtain ⟨c, hc, hleaves, heq⟩ := hall x hx
      exact hkeeps c hc hleaves heq
    · exact hnone c hc hjoins

/-- The outage reported is the longest of those that end. -/
theorem outage_greatest {since : Check → Option Number} {left : List Check}
    (hleft : left ≠ []) {dur : ℚ} (h : outage since now left = .ok dur) :
    IsGreatest {d | ∃ c ∈ left, ∃ start, started since now c = .ok start ∧ d = now - start} dur :=
      by
  cases hstarts : left.mapM (started since now) with
  | error e =>
      rw [outage, hstarts] at h
      exact nomatch h
  | ok starts =>
      rw [outage, hstarts] at h
      have hdur : (starts.map fun start => now - start).max?.getD 0 = dur := Except.ok.inj h
      have hall := Traverse.mem_of_mapM_ok hstarts
      have hmem : ∀ d, d ∈ starts.map (fun start => now - start) ↔
          ∃ c ∈ left, ∃ start, started since now c = .ok start ∧ d = now - start := by
        intro d
        rw [List.mem_map]
        constructor
        · rintro ⟨start, hstart, rfl⟩
          obtain ⟨c, hc, heq⟩ := (hall start).mp hstart
          exact ⟨c, hc, start, heq, rfl⟩
        · rintro ⟨c, hc, start, heq, rfl⟩
          exact ⟨start, (hall start).mpr ⟨c, hc, heq⟩, rfl⟩
      have hne : starts.map (fun start => now - start) ≠ [] := by
        obtain ⟨c, hc⟩ := List.exists_mem_of_ne_nil left hleft
        obtain ⟨start, hstart⟩ := Traverse.mapM_ok_iff.mp ⟨starts, hstarts⟩ c hc
        exact List.ne_nil_of_mem ((hmem _).mpr ⟨c, hc, start, hstart, rfl⟩)
      obtain ⟨d, hd⟩ := Option.isSome_iff_exists.mp (List.isSome_max?_of_ne_nil hne)
      rw [hd] at hdur
      obtain rfl : d = dur := hdur
      obtain ⟨hin, hle⟩ := List.max?_eq_some_iff.mp hd
      exact ⟨(hmem d).mp hin, fun d' hd' => hle d' ((hmem d').mpr hd')⟩

theorem outage_ok_iff {since : Check → Option Number} {left : List Check} :
    (∃ dur, outage since now left = .ok dur) ↔ ∀ c ∈ left, ∃ start,
      started since now c = .ok start := by
  rw [← Traverse.mapM_ok_iff]
  constructor
  · rintro ⟨dur, hdur⟩
    cases hstarts : left.mapM (started since now) with
    | error e =>
        rw [outage, hstarts] at hdur
        exact nomatch hdur
    | ok starts => exact ⟨starts, rfl⟩
  · rintro ⟨starts, hstarts⟩
    exact ⟨_, by rw [outage, hstarts]; rfl⟩

/-- The state that `decide` returns. -/
structure Decided (s : State) (checks : Checks) (now : ℚ) (cfg : Config) (s' : State) : Prop where
  delivered : ∀ x, x ∈ s'.delivered ↔ ∃ c ∈ activeChecks cfg, Stays s checks cfg c ∧ c.name = x
  failRuns : ∀ c ∈ activeChecks cfg, s'.failRuns c = failRunsAfter s checks c
  okRuns : ∀ c ∈ activeChecks cfg, s'.okRuns c = okRunsAfter s checks c
  since : ∀ c, s'.since c =
    if c ∈ activeChecks cfg then if Leaves s checks cfg c then none else
      sinceAfter s checks now c else s.since c

theorem nextState_decided (utc : Utc) (s : State) (checks : Checks) (now : ℚ) (cfg : Config) :
    Decided s checks now cfg (nextState utc s (sweep s checks now cfg) now cfg) where
  delivered x := by
    simp only [nextState, List.mem_map, List.mem_filter, decide_eq_true_eq, and_assoc]
    exact exists_congr fun c => and_congr_right fun hc => and_congr_left' (mem_sweep_delivered hc)
  failRuns c hc := ((sweep_did s checks now cfg).failRuns c).trans (if_pos hc)
  okRuns c hc := ((sweep_did s checks now cfg).okRuns c).trans (if_pos hc)
  since c := by
    have hdid := sweep_did s checks now cfg
    simp only [nextState, hdid.left, hdid.since, List.mem_filter, decide_eq_true_eq]
    by_cases hc : c ∈ activeChecks cfg <;> simp [hc]

/-- Everything delivered leaves in this run, and something does. -/
def Clears (s : State) (checks : Checks) (cfg : Config) : Prop :=
  s.delivered ≠ [] ∧
    (∀ x ∈ s.delivered, ∃ c ∈ activeChecks cfg, Leaves s checks cfg c ∧ c.name = x) ∧
    ∀ c ∈ activeChecks cfg, ¬ Joins s checks cfg c

theorem clears_iff : (sweep s checks now cfg).left ≠ [] ∧ (sweep s checks now cfg).delivered = [] ↔
    Clears s checks cfg := by
  rw [sweep_delivered_eq_nil, (sweep_did s checks now cfg).left, Clears]
  refine and_congr_left fun h => ?_
  constructor
  · intro hleft hnil
    obtain ⟨c, hc⟩ := List.exists_mem_of_ne_nil _ hleft
    have hleaves := of_decide_eq_true (List.mem_filter.mp hc).2
    rw [Leaves, hnil] at hleaves
    exact nomatch hleaves.2.1
  · intro hdelivered
    obtain ⟨x, hx⟩ := List.exists_mem_of_ne_nil _ hdelivered
    obtain ⟨c, hc, hleaves, _⟩ := h.1 x hx
    exact List.ne_nil_of_mem (List.mem_filter.mpr ⟨hc, decide_eq_true hleaves⟩)

/-- What a RECOVERED message reports: the checks that leave began when the state has it. -/
theorem sweep_outage : outage (sweep s checks now cfg).since now (sweep s checks now cfg).left =
    outage s.since now ((activeChecks cfg).filter (Leaves s checks cfg)) := by
  have hdid := sweep_did s checks now cfg
  rw [outage, outage, hdid.left]
  refine congrArg (· >>= _) (Traverse.mapM_congr fun c hc => ?_)
  obtain ⟨hc, hleaves⟩ := List.mem_filter.mp hc
  rw [started, started, hdid.since, if_pos hc, sinceAfter,
    if_pos (.inr (of_decide_eq_true hleaves).1)]

theorem sweep_joined_eq_nil :
    (sweep s checks now cfg).joined = [] ↔ ∀ c ∈ activeChecks cfg, ¬ Joins s checks cfg c := by
  rw [(sweep_did s checks now cfg).joined, List.filter_eq_nil_iff]
  simp only [decide_eq_true_eq]

/-- One message when something joins, none otherwise. -/
theorem degradedAlerts_cases (s : State) (checks : Checks) (now : ℚ) (cfg : Config) :
    (∀ c ∈ activeChecks cfg, ¬ Joins s checks cfg c) ∧
      degradedAlerts (sweep s checks now cfg) checks cfg = [] ∨
      (∃ c ∈ activeChecks cfg, Joins s checks cfg c) ∧ ∃ what still,
          degradedAlerts (sweep s checks now cfg) checks cfg = [.degraded what still] := by
  by_cases hjoined : (sweep s checks now cfg).joined = []
  · exact .inl ⟨sweep_joined_eq_nil.mp hjoined, by rw [degradedAlerts, if_pos hjoined]⟩
  · refine .inr ⟨?_, _, _, by rw [degradedAlerts, if_neg hjoined]⟩
    by_contra hnone
    exact hjoined (sweep_joined_eq_nil.mpr fun c hc hjoins => hnone ⟨c, hc, hjoins⟩)

/-- The message that the delivered set emptied. -/
def recoveredAlert (s : State) (checks : Checks) (cfg : Config) (dur : ℚ) : Alert :=
  .recovered ((activeChecks cfg).filter (Leaves s checks cfg)) dur (activeChecks cfg).length
    (((activeChecks cfg).filter fun c => (checks c).1 ≠ .ok).map fun c => (checks c).2)

theorem decide_of_not_clears (h : ¬ Clears s checks cfg) :
    decide utc s checks now cfg = .ok (nextState utc s (sweep s checks now cfg) now cfg,
      degradedAlerts (sweep s checks now cfg) checks cfg) := by
  rw [decide, recoveredAlerts, if_neg (clears_iff.not.mpr h)]
  change Except.ok (_, _ ++ []) = _
  rw [List.append_nil]

theorem decide_of_clears (h : Clears s checks cfg) : decide utc s checks now cfg =
    (outage s.since now ((activeChecks cfg).filter (Leaves s checks cfg))).map fun dur =>
      (nextState utc s (sweep s checks now cfg) now cfg, [recoveredAlert s checks cfg dur]) := by
  have hjoined : (sweep s checks now cfg).joined = [] := sweep_joined_eq_nil.mpr h.2.2
  rw [decide, recoveredAlerts, if_pos (clears_iff.mpr h), sweep_outage, degradedAlerts,
    if_pos hjoined, (sweep_did s checks now cfg).left]
  cases outage s.since now ((activeChecks cfg).filter (Leaves s checks cfg)) <;> rfl

end Decide

end OtsServer.Watch
