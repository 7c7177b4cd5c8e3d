import OtsServer.Watch.Evaluate

/-!
# No answer reads as healthy

`Sourced` says of a check which source its positive verdict rests on and what that source must have
given. A run of `evaluate` on what `observe` gives returns, and says ok only of checks that are
sourced, exactly when two answers have a shape that the code can read: what the calendar says needs
attention, and the circuits that Tor's log tells of.
-/

namespace OtsServer.Watch

/-- The object that an answer decodes to. -/
def objectOf (src : Sources) : Fetched → Option (List (List Nat × JsonValue))
  | .body text =>
      match src.loads text with
      | some (.obj items) => some items
      | _ => none
  | _ => none

/-- A status of the calendar that is all well. -/
structure AllWell (cfg : Settings) (items : List (List Nat × JsonValue)) : Prop where
  bestBlock : (field items "best_block").truthy = true
  needsAttention : (field items "needs_attention").truthy = false
  anchorReceipts : isText (field items "anchor_receipts") "on" = true
  balance : ∃ sats, parseSats (field items "balance") = some sats ∧ cfg.calMinSats ≤ sats

/-- The queries that a check counts the lines of. -/
def ownQueries : Check → List Query
  | .journalErrors => [.errors, .userErrors]
  | .sshFailures => [.sshFailures]
  | .egressDrops => [.egress]
  | .sshUnexpected => [.sshAccepted]
  | _ => []

section Sourced

variable (ip : IpAddress) (src : Sources) (cfg : Settings) (now : ℚ)

/-- Every unit that is configured answers that it is active. -/
def UnitsActive (user : Bool) (knob : Knob) : Prop :=
  ∀ name ∈ cfg.names knob, Text.trim (src.isActive user name) = "active".toList

/-- A mount that is configured could be measured, and has room. -/
def HasRoom (mount : Knob) : Prop :=
  cfg.knob mount ≠ "" ∧
    ∃ percent, usedPercent (src.statvfs (cfg.knob mount).toList) = .ok (some percent) ∧
      percent < cfg.diskPct

/-- What the source of a check gave, when the check is ok. -/
def Sourced : Check → Prop
  | .healthReach => cfg.knob .healthUrl ≠ "" ∧ src.health ≠ .unreached
  | .health => cfg.knob .healthUrl ≠ "" ∧
      ∃ items, objectOf src src.health = some items ∧ isText (field items "status") "ok" = true
  | .calendar =>
      cfg.knob .calendarUrl ≠ "" ∧ ∃ items, objectOf src src.calendar = some items ∧
        AllWell cfg items
  | .containers => cfg.knob .containers ≠ "" ∧ src.dockerPs.code = 0 ∧
      ∀ name ∈ cfg.names .containers, ∃ status,
        lastOf (containerStates src.dockerPs.out) name = some status ∧ isUp (some status) = true
  | .unitsSystem => UnitsActive src cfg false .unitsSystem
  | .unitsUser => UnitsActive src cfg true .unitsUser
  | .diskRoot => HasRoom src cfg .diskRoot
  | .diskBoot => HasRoom src cfg .diskBoot
  | .temp =>
      ∃ text t, src.thermal = .held text ∧ thermalC text = some t ∧
        (cfg.knob .tempC = "" ∨ t < cfg.tempLimit)
  | .mem =>
      ∃ text m, src.meminfo = .held text ∧ memAvailMb text = some m ∧
        (cfg.knob .memMb = "" ∨ cfg.memLimit ≤ m)
  | .feeder =>
      cfg.knob .feederLog ≠ "" ∧ ∃ mtime, src.feederStat = .changed mtime ∧
        now - mtime ≤ cfg.feederStaleS ∧ src.tail.code = 0 ∧ pollCounts src.tail.out ≠ [] ∧
        (((pollCounts src.tail.out).filter (0 < ·)).length : Int) < cfg.feederErrPolls
  | .endpoint =>
      cfg.knob .endpointHeartbeat ≠ "" ∧ ∃ mtime text, src.heartbeatStat = .changed mtime ∧
        now - mtime ≤ cfg.endpointStaleS ∧ src.heartbeat = .held text ∧
        (breakers text).head? = some "ok".toList
  | .journalErrors => (∀ query ∈ [Query.errors, .userErrors], (src.journal query).code = 0) ∧
      (((journalLines src .errors).length + (journalLines src .userErrors).length : Nat) : Int) ≤
        cfg.errorsLimit
  | .sshFailures => (src.journal .sshFailures).code = 0 ∧
      ((journalLines src .sshFailures).length : Int) ≤ cfg.sshFailuresLimit
  | .journalRead => ∀ query, (src.journal query).code = 0
  | .anchorAge => cfg.knob .receipts ≠ "" ∧ ∃ text times newest age, src.receipts = .held text ∧
      receiptTimes src text = some times ∧ newestTime times = some newest ∧
        newest.toFloat = .ok age ∧
      (now - age) / 3600 ≤ cfg.anchorMaxH
  | .rebootWanted => src.rebootRequired = false ∧ kernelNewest src = some src.running
  | .egressDrops =>
      (src.journal .egress).code = 0 ∧ ((journalLines src .egress).length : Int) ≤ cfg.egressLimit
  -- whatever code `nmcli` exits with: its output alone is read
  | .dhcpLease => cfg.knob .dhcpIface ≠ "" ∧
      ∃ left, leaseLeftH now (leaseLines src) = .ok (some left) ∧ cfg.dhcpMinH ≤ left
  | .torCircuits =>
      cfg.knob .torContainer ≠ "" ∧ src.torLogs.code = 0 ∧ aliveLines src.torLogs.out ≠ [] ∧
        (∀ line, circuitsLine src.torLogs.out = some line → ∃ n, circuitsOf line = some n ∧ n ≠ 0) ∧
        src.torWarnings.code = 0 ∧ netWarnings src.torWarnings.out = 0
  | .btcPeers =>
      cfg.knob .btcP2pPort ≠ "" ∧ src.ss.code = 0 ∧
        cfg.btcMinPeers ≤ ((Text.lines src.ss.out).length : Int)
  | .sshUnexpected => (src.journal .sshAccepted).code = 0 ∧ ∃ found, sshSources src = .ok found ∧
      ∀ addr ∈ found, sourceKnown ip addr
        (((cfg.sshKnownSources.toList.splitOn ',').map Text.trim).filter (· ≠ [])) = true

/-- What the calendar says needs attention can be gone through, where it comes to that. -/
def AttentionListed : Prop :=
  cfg.knob .calendarUrl ≠ "" → ∀ items, objectOf src src.calendar = some items →
    (field items "best_block").truthy = true → (field items "needs_attention").truthy = true →
      ∃ entries, membersOf (field items "needs_attention") = .ok entries

/-- The circuits that Tor's log last tells of can be read, where nothing else speaks against Tor. -/
def CircuitsCounted : Prop :=
  cfg.knob .torContainer ≠ "" → src.torLogs.code = 0 →
    src.torWarnings.code = 0 → netWarnings src.torWarnings.out = 0 →
    ∀ line, circuitsLine src.torLogs.out = some line → ∃ n, circuitsOf line = some n

/-- A count of the journal is unknown exactly when a query of its own failed, and then the journal
is not read. -/
def JournalUnknown (checks : Checks) : Prop :=
  ∀ c, ownQueries c ≠ [] →
    ((checks c).1 = .unknown ↔ ∃ query ∈ ownQueries c, (src.journal query).code ≠ 0) ∧
      ((checks c).1 = .unknown → (checks .journalRead).1 = .failed)

end Sourced

/-! ## What an observation holds -/

section Observed

variable {ip : IpAddress} {printer : Printer} {src : Sources} {cfg : Settings}
  {now : ℚ} {o : Observation}

/-- What of a source an observation holds. -/
structure Observed (src : Sources) (cfg : Settings) (now : ℚ) (o : Observation) : Prop where
  running : o.kernelRunning = src.running
  newest : o.kernelNewest = kernelNewest src
  reboot : o.rebootRequiredFile = src.rebootRequired
  health : (o.health, o.healthReach) = if cfg.knob .healthUrl = "" then (.null, false) else
    fetchJson src src.health
  calendar : (o.calendar, o.calendarReach) =
    if cfg.knob .calendarUrl = "" then (.null, false) else fetchJson src src.calendar
  containers : o.containers =
    if cfg.knob .containers = "" ∨ src.dockerPs.code ≠ 0 then none else
      some (containerStates src.dockerPs.out)
  unitsSystem : o.unitsSystem = unitStates src false (cfg.names .unitsSystem)
  unitsUser : o.unitsUser = unitStates src true (cfg.names .unitsUser)
  disk : (([Knob.diskRoot, .diskBoot].filterMap fun knob =>
        if cfg.knob knob = "" then none else some (cfg.knob knob).toList).mapM fun mount =>
      (usedPercent (src.statvfs mount)).map fun percent => (mount, percent)) = .ok o.disk
  tempC : o.tempC = observeTemp src
  mem : o.memAvailMb = observeMem src
  feeder : (o.feederAge, o.feederError) = if cfg.knob .feederLog = "" then (none, none) else
    fileAge src.feederStat now
  polls : o.feederErrPolls =
    if observePolls src cfg = [] then none else some ((observePolls src cfg).filter (0 < ·)).length
  endpoint : o.endpointAge = if cfg.knob .endpointHeartbeat = "" then none else
    (fileAge src.heartbeatStat now).1
  heartbeat : (o.endpointBreaker, o.endpointError) = observeHeartbeat src cfg now
  failed : o.journalFailed = journalFailed src
  errors : o.journalErrors = (journalLines src .errors).length +
    (journalLines src .userErrors).length
  sshFailures : o.sshFailures = (journalLines src .sshFailures).length
  egress : o.egressDrops = (journalLines src .egress).length
  sources : sshSources src = .ok o.sshSources
  lease : observeLease src cfg now = .ok o.dhcpLeaseLeftH
  alive : o.torAliveLines = if torRead src cfg then
    some (aliveLines src.torLogs.out).length else none
  circuits : o.torCircuits = if torRead src cfg then
    (circuitsLine src.torLogs.out).bind circuitsOf else none
  warnings : o.torNetWarn =
    if torRead src cfg ∧ src.torWarnings.code = 0 then
      some (netWarnings src.torWarnings.out) else none
  peers : o.btcPeers =
    if cfg.knob .btcP2pPort = "" ∨ src.ss.code ≠ 0 then none else
      some (Text.lines src.ss.out).length
  receipts : observeReceipts src cfg now = .ok ⟨o.anchors, o.anchorAgeH, o.receiptsError⟩

theorem observed_of_observe (h : observe src cfg now = .ok o) : Observed src cfg now o := by
  unfold observe at h
  obtain ⟨disk, hdisk, h⟩ := Except.exists_of_bind_ok h
  obtain ⟨found, hfound, h⟩ := Except.exists_of_bind_ok h
  obtain ⟨lease, hlease, h⟩ := Except.exists_of_bind_ok h
  obtain ⟨receipts, hreceipts, h⟩ := Except.exists_of_bind_ok h
  obtain rfl := Except.ok.inj h
  constructor
  all_goals first | rfl | assumption

/-! ## Verdicts of ok -/

theorem body_eq_obj_iff {answer : Fetched} {knob : Knob} {body : JsonValue} {reach : Bool}
    (h : (body, reach) = if cfg.knob knob = "" then (.null, false) else fetchJson src answer)
    {items : List (List Nat × JsonValue)} :
    body = .obj items ↔ cfg.knob knob ≠ "" ∧ objectOf src answer = some items := by
  split_ifs at h with hknob
  · obtain ⟨rfl, -⟩ := Prod.mk.inj h
    exact iff_of_false (fun heq => JsonValue.noConfusion heq) fun hobject => hobject.1 hknob
  · rw [and_iff_right hknob]
    cases answer with
    | body text =>
        obtain ⟨rfl, -⟩ := Prod.mk.inj h
        rw [objectOf]
        rcases src.loads text with _ | (_ | _ | _ | _ | _ | _ | found) <;> simp
    | _ =>
        obtain ⟨rfl, -⟩ := Prod.mk.inj h
        simp [objectOf]

theorem reach_of_body {answer : Fetched} {knob : Knob} {body : JsonValue} {reach : Bool}
    (h : (body, reach) = if cfg.knob knob = "" then (.null, false) else fetchJson src answer)
    {items : List (List Nat × JsonValue)} (hbody : body = .obj items) : reach = true := by
  split_ifs at h with hknob
  · obtain ⟨rfl, -⟩ := Prod.mk.inj h
    cases hbody
  · cases answer with
    | unreached =>
        obtain ⟨rfl, -⟩ := Prod.mk.inj h
        cases hbody
    | _ => exact (Prod.mk.inj h).2

theorem sourced_healthReach (ho : Observed src cfg now o) (h : o.healthReach = true) :
    Sourced ip src cfg now .healthReach := by
  have hhealth := (Prod.ext_iff.mp ho.health).2
  change o.healthReach = _ at hhealth
  rw [h] at hhealth
  split_ifs at hhealth with hknob
  refine ⟨hknob, fun hunreached => ?_⟩
  rw [hunreached] at hhealth
  cases hhealth

theorem sourced_health (ho : Observed src cfg now o) (h : (evaluateHealth printer o).1 = .ok) :
    Sourced ip src cfg now .health := by
  unfold evaluateHealth at h
  split_ifs at h
  split at h
  next items hitems =>
    obtain ⟨hknob, hobject⟩ := (body_eq_obj_iff ho.health).mp hitems
    exact ⟨hknob, items, hobject, Verdict.of_eq_ok.mp h⟩
  · cases h

theorem sourced_calendar (ho : Observed src cfg now o) {verdict : Verdict × String}
    (hverdict : evaluateCalendar printer o cfg = .ok verdict) (h : verdict.1 = .ok) :
    Sourced ip src cfg now .calendar := by
  unfold evaluateCalendar at hverdict
  split_ifs at hverdict
  · obtain rfl := Except.ok.inj hverdict
    cases h
  split at hverdict
  next items hitems =>
    split_ifs at hverdict with hblock hattention hreceipts
    · obtain rfl := Except.ok.inj hverdict
      cases h
    · obtain ⟨entries, -, hverdict⟩ := Except.exists_of_bind_ok hverdict
      obtain rfl := Except.ok.inj hverdict
      cases h
    · obtain rfl := Except.ok.inj hverdict
      cases h
    · obtain ⟨hknob, hobject⟩ := (body_eq_obj_iff ho.calendar).mp hitems
      split at hverdict
      · obtain rfl := Except.ok.inj hverdict
        cases h
      next sats hsats =>
        split_ifs at hverdict with hmin
        · obtain rfl := Except.ok.inj hverdict
          cases h
        · refine ⟨hknob, items, hobject, by simpa using hblock, Bool.eq_false_iff.mpr hattention,
            by simpa using hreceipts, ?_⟩
          exact ⟨sats, hsats, not_lt.mp hmin⟩
  · obtain rfl := Except.ok.inj hverdict
    cases h

theorem sourced_containers (ho : Observed src cfg now o) (h : (evaluateContainers o cfg).1 = .ok) :
    Sourced ip src cfg now .containers := by
  unfold evaluateContainers at h
  split at h
  · cases h
  next states hstates =>
    have hobserved := ho.containers
    rw [hstates] at hobserved
    split_ifs at hobserved with hread
    obtain rfl := Option.some.inj hobserved
    rw [not_or, not_not] at hread
    refine ⟨hread.1, hread.2, fun name hname => ?_⟩
    have hup := List.filter_eq_nil_iff.mp (List.isEmpty_iff.mp (Verdict.of_eq_ok.mp h)) name hname
    have hup : isUp (lastOf (containerStates src.dockerPs.out) name) = true := by simpa using hup
    cases hlast : lastOf (containerStates src.dockerPs.out) name with
    | none =>
        rw [hlast] at hup
        revert hup
        decide
    | some status =>
        rw [hlast] at hup
        exact ⟨status, rfl, hup⟩

theorem active_of_evaluateUnits {user : Bool} {knob : Knob} {kind : String}
    {states : List (Text × Text)} (hstates : states = unitStates src user (cfg.names knob))
    (h : (evaluateUnits kind states).1 = .ok) : UnitsActive src cfg user knob := by
  unfold evaluateUnits at h
  dsimp only at h
  split_ifs at h
  intro name hname
  have hmem : (name, Text.trim (src.isActive user name)) ∈ states := by
    rw [hstates]
    exact List.mem_map_of_mem (List.mem_eraseDups.mpr hname)
  have hactive := List.filter_eq_nil_iff.mp (List.isEmpty_iff.mp (Verdict.of_eq_ok.mp h)) _ hmem
  simpa using hactive

theorem hasRoom_of_evaluateDisk (ho : Observed src cfg now o) {name : String} {mount : Knob}
    (h : (evaluateDisk printer name mount o cfg).1 = .ok) : HasRoom src cfg mount := by
  unfold evaluateDisk at h
  split at h
  · cases h
  next percent hpercent =>
    have hmem := mem_of_lastOf (Option.join_eq_some_iff.mp hpercent)
    obtain ⟨text, htext, hread⟩ := (Traverse.mem_of_mapM_ok ho.disk _).mp hmem
    obtain ⟨measured, hmeasured, heq⟩ : ∃ measured, usedPercent (src.statvfs text) = .ok measured ∧
        (text, measured) = ((cfg.knob mount).toList, some percent) := by
      cases hused : usedPercent (src.statvfs text) with
      | error e =>
          rw [hused] at hread
          cases hread
      | ok measured =>
          rw [hused] at hread
          exact ⟨measured, rfl, Except.ok.inj hread⟩
    obtain ⟨rfl, rfl⟩ := Prod.mk.inj heq
    obtain ⟨knob, -, hknob⟩ := List.mem_filterMap.mp htext
    refine ⟨fun hempty => ?_, percent, hmeasured, by simpa using h⟩
    split_ifs at hknob with hset
    have hsame := String.toList_inj.mp (Option.some.inj hknob)
    exact hset (hsame.trans hempty)

theorem sourced_temp (ho : Observed src cfg now o) (h : (evaluateTemp printer o cfg).1 = .ok) :
    Sourced ip src cfg now .temp := by
  unfold evaluateTemp at h
  split at h
  · cases h
  next t ht =>
    rw [ho.tempC, observeTemp] at ht
    split at ht
    next text htext => exact ⟨text, t, htext, ht, by simpa using h⟩
    · cases ht

theorem sourced_mem (ho : Observed src cfg now o) (h : (evaluateMem o cfg).1 = .ok) :
    Sourced ip src cfg now .mem := by
  unfold evaluateMem at h
  split at h
  · cases h
  next m hm =>
    rw [ho.mem, observeMem] at hm
    split at hm
    next text htext => exact ⟨text, m, htext, hm, by simpa using h⟩
    · cases hm

theorem observePolls_of_ne_nil (h : observePolls src cfg ≠ []) :
    src.tail.code = 0 ∧ observePolls src cfg = pollCounts src.tail.out := by
  unfold observePolls at h ⊢
  split_ifs at h ⊢ with hread
  · exact absurd rfl h
  · exact ⟨not_not.mp (not_or.mp hread).2, rfl⟩

theorem sourced_feeder (ho : Observed src cfg now o) (h : (evaluateFeeder o cfg).1 = .ok) :
    Sourced ip src cfg now .feeder := by
  unfold evaluateFeeder at h
  split_ifs at h with hunreadable
  split at h
  · cases h
  next age hage =>
    split_ifs at h with hstale
    split at h
    next polls hpolls herror =>
      split_ifs at h with hmany
      have hfeeder := (Prod.ext_iff.mp ho.feeder).1
      rw [hage] at hfeeder
      split_ifs at hfeeder with hknob
      cases hstat : src.feederStat with
      | changed mtime =>
          rw [hstat] at hfeeder
          obtain rfl := Option.some.inj hfeeder
          rw [ho.polls] at herror
          split_ifs at herror with hnone
          obtain rfl := Option.some.inj herror
          obtain ⟨hcode, hpolls⟩ := observePolls_of_ne_nil hnone
          rw [hpolls] at hnone hmany
          exact ⟨hknob, mtime, hstat, not_lt.mp hstale, hcode, hnone, not_le.mp hmany⟩
      | _ =>
          rw [hstat] at hfeeder
          cases hfeeder
    · cases h

theorem sourced_endpoint (ho : Observed src cfg now o) (h : (evaluateEndpoint o cfg).1 = .ok) :
    Sourced ip src cfg now .endpoint := by
  unfold evaluateEndpoint at h
  split at h
  · cases h
  · cases h
  split at h
  · cases h
  next age hage =>
    split_ifs at h with hstale
    split at h
    · cases h
    next breaker hbreaker =>
      split_ifs at h with hok
      have hendpoint := ho.endpoint
      rw [hage] at hendpoint
      split_ifs at hendpoint with hknob
      cases hstat : src.heartbeatStat with
      | changed mtime =>
          rw [hstat] at hendpoint
          obtain rfl := Option.some.inj hendpoint
          have hheartbeat := (Prod.ext_iff.mp ho.heartbeat).1
          rw [hbreaker, observeHeartbeat, if_neg hknob, hstat] at hheartbeat
          cases hheld : src.heartbeat with
          | held text =>
              rw [hheld] at hheartbeat
              refine ⟨hknob, mtime, text, hstat, not_lt.mp hstale, hheld, ?_⟩
              rw [← not_not.mp hok]
              exact hheartbeat.symm
          | _ =>
              rw [hheld] at hheartbeat
              cases hheartbeat
      | _ =>
          rw [hstat] at hendpoint
          cases hendpoint

theorem mem_failed (ho : Observed src cfg now o) {query : Query} :
    query ∈ o.journalFailed ↔ (src.journal query).code ≠ 0 := by
  rw [ho.failed, journalFailed, List.mem_filter]
  cases query <;> simp [Query.all]

theorem sourced_journalRead (ho : Observed src cfg now o) (h : (evaluateJournalRead o).1 = .ok) :
    Sourced ip src cfg now .journalRead := by
  intro query
  have hempty := List.isEmpty_iff.mp (Verdict.of_eq_ok.mp h)
  by_contra hcode
  exact List.not_mem_nil (hempty ▸ (mem_failed ho).mpr hcode)

/-- A count that is ok has all its queries read, and is within its limit. -/
theorem of_evaluateCount (ho : Observed src cfg now o)
    {queries : List Query} {count : Nat} {limit : Int}
    {unknown what : String} (h : (evaluateCount queries count limit unknown what o).1 = .ok) :
    (∀ query ∈ queries, (src.journal query).code = 0) ∧ (count : Int) ≤ limit := by
  unfold evaluateCount at h
  split_ifs at h with hfailed
  refine ⟨fun query hquery => ?_, by simpa using h⟩
  by_contra hcode
  exact hfailed (List.any_eq_true.mpr ⟨query, hquery,
      List.contains_iff_mem.mpr ((mem_failed ho).mpr hcode)⟩)

/-- A count is unknown exactly when one of its queries failed. -/
theorem evaluateCount_unknown (ho : Observed src cfg now o) {queries : List Query}
    {count : Nat} {limit : Int} {unknown what : String} :
    (evaluateCount queries count limit unknown what o).1 = .unknown ↔
      ∃ query ∈ queries, (src.journal query).code ≠ 0 := by
  have hfailed : queries.any o.journalFailed.contains = true ↔ ∃ query ∈ queries,
      (src.journal query).code ≠ 0 := by
    simp only [List.any_eq_true, List.contains_iff_mem, mem_failed ho]
  rw [← hfailed]
  unfold evaluateCount
  split_ifs with h
  · exact iff_of_true rfl h
  · exact iff_of_false Verdict.of_ne_unknown h

theorem sourced_sshUnexpected (ho : Observed src cfg now o)
    (h : (evaluateSshUnexpected ip o cfg).1 = .ok) : Sourced ip src cfg now .sshUnexpected := by
  unfold evaluateSshUnexpected at h
  split_ifs at h with hfailed
  refine ⟨?_, o.sshSources, ho.sources, fun addr haddr => ?_⟩
  · by_contra hcode
    exact hfailed (List.contains_iff_mem.mpr ((mem_failed ho).mpr hcode))
  · have hnone := List.filter_eq_nil_iff.mp (List.isEmpty_iff.mp (Verdict.of_eq_ok.mp h)) addr haddr
    simpa using hnone

theorem sourced_anchorAge (ho : Observed src cfg now o)
    (h : (evaluateAnchorAge printer o cfg).1 = .ok) : Sourced ip src cfg now .anchorAge := by
  unfold evaluateAnchorAge at h
  split at h
  · cases h
  · cases h
  next n age herror hanchors hage =>
    have hreceipts := ho.receipts
    rw [herror, hanchors, hage] at hreceipts
    unfold observeReceipts at hreceipts
    split_ifs at hreceipts with hknob
    · cases hreceipts
    split at hreceipts
    · cases hreceipts
    · cases hreceipts
    · cases hreceipts
    next text htext =>
      split at hreceipts
      · cases hreceipts
      next times htimes =>
        split at hreceipts
        · cases hreceipts
        next newest hnewest =>
          obtain ⟨time, htime, hreceipts⟩ := Except.exists_of_bind_ok hreceipts
          obtain ⟨-, hage', -⟩ := Receipts.mk.inj (Except.ok.inj hreceipts)
          obtain rfl := Option.some.inj hage'
          exact ⟨hknob, text, times, newest, time, htext, htimes, hnewest, htime, by simpa using h⟩
  · cases h

theorem sourced_rebootWanted (ho : Observed src cfg now o) (h : (evaluateRebootWanted o).1 = .ok) :
    Sourced ip src cfg now .rebootWanted := by
  unfold evaluateRebootWanted at h
  split_ifs at h with hfile
  split at h
  · cases h
  next newest hnewest =>
    split_ifs at h with hother
    rw [ho.newest] at hnewest
    refine ⟨ho.reboot ▸ Bool.eq_false_iff.mpr hfile, ?_⟩
    rw [hnewest, ← not_not.mp hother, ho.running]

theorem sourced_dhcpLease (ho : Observed src cfg now o)
    (h : (evaluateDhcpLease printer o cfg).1 = .ok) : Sourced ip src cfg now .dhcpLease := by
  unfold evaluateDhcpLease at h
  split at h
  · cases h
  next left hleft =>
    have hlease := ho.lease
    rw [hleft, observeLease] at hlease
    split_ifs at hlease with hknob
    · cases hlease
    · exact ⟨hknob, left, hlease, by simpa using h⟩

theorem torRead_iff :
    torRead src cfg = true ↔ cfg.knob .torContainer ≠ "" ∧ src.torLogs.code = 0 := by
  simp [torRead]

theorem sourced_torCircuits (ho : Observed src cfg now o) (hcounted : CircuitsCounted src cfg)
    (h : (evaluateTorCircuits o cfg).1 = .ok) : Sourced ip src cfg now .torCircuits := by
  unfold evaluateTorCircuits at h
  split at h
  · cases h
  next alive halive =>
    split_ifs at h with hnone hzero
    split at h
    · cases h
    next warnings hwarnings =>
      split_ifs at h with hmany
      rw [ho.alive] at halive
      split_ifs at halive with hread
      obtain rfl := Option.some.inj halive
      rw [ho.circuits, if_pos hread] at hzero
      rw [ho.warnings] at hwarnings
      split_ifs at hwarnings with hwindow
      obtain rfl := Option.some.inj hwarnings
      obtain ⟨hknob, hcode⟩ := torRead_iff.mp hread
      have hquiet := Nat.eq_zero_of_not_pos hmany
      refine ⟨hknob, hcode, fun hnil => hnone (by rw [hnil, List.length_nil]),
        fun line hline => ?_, hwindow.2, hquiet⟩
      obtain ⟨n, hn⟩ := hcounted hknob hcode hwindow.2 hquiet line hline
      refine ⟨n, hn, ?_⟩
      rintro rfl
      exact hzero (by rw [hline, Option.bind_some, hn])

theorem sourced_btcPeers (ho : Observed src cfg now o) (h : (evaluateBtcPeers o cfg).1 = .ok) :
    Sourced ip src cfg now .btcPeers := by
  unfold evaluateBtcPeers at h
  split at h
  · cases h
  next peers hpeers =>
    rw [ho.peers] at hpeers
    split_ifs at hpeers with hread
    obtain rfl := Option.some.inj hpeers
    rw [not_or, not_not] at hread
    exact ⟨hread.1, hread.2, by simpa using h⟩

/-! ## All checks -/

/-- A check that is ok is sourced, when the circuits can be counted. -/
theorem sourced_of_ok (ho : Observed src cfg now o) (hcounted : CircuitsCounted src cfg)
    {checks : Checks} (hchecks : evaluate printer ip o cfg = .ok checks) {c : Check}
    (h : (checks c).1 = .ok) : Sourced ip src cfg now c := by
  obtain ⟨calendar, hcalendar, hrest⟩ := Except.exists_of_bind_ok hchecks
  obtain rfl := Except.ok.inj hrest
  cases c with
  | healthReach => exact sourced_healthReach ho (Verdict.of_eq_ok.mp h)
  | health => exact sourced_health ho h
  | calendar => exact sourced_calendar ho hcalendar h
  | containers => exact sourced_containers ho h
  | unitsSystem => exact active_of_evaluateUnits ho.unitsSystem h
  | unitsUser => exact active_of_evaluateUnits ho.unitsUser h
  | diskRoot => exact hasRoom_of_evaluateDisk ho h
  | diskBoot => exact hasRoom_of_evaluateDisk ho h
  | temp => exact sourced_temp ho h
  | mem => exact sourced_mem ho h
  | feeder => exact sourced_feeder ho h
  | endpoint => exact sourced_endpoint ho h
  | journalErrors =>
      obtain ⟨hread, hcount⟩ := of_evaluateCount ho h
      exact ⟨hread, ho.errors ▸ hcount⟩
  | sshFailures =>
      obtain ⟨hread, hcount⟩ := of_evaluateCount ho h
      exact ⟨hread _ (List.mem_singleton_self _), ho.sshFailures ▸ hcount⟩
  | journalRead => exact sourced_journalRead ho h
  | anchorAge => exact sourced_anchorAge ho h
  | rebootWanted => exact sourced_rebootWanted ho h
  | egressDrops =>
      obtain ⟨hread, hcount⟩ := of_evaluateCount ho h
      exact ⟨hread _ (List.mem_singleton_self _), ho.egress ▸ hcount⟩
  | dhcpLease => exact sourced_dhcpLease ho h
  | torCircuits => exact sourced_torCircuits ho hcounted h
  | btcPeers => exact sourced_btcPeers ho h
  | sshUnexpected => exact sourced_sshUnexpected ho h

theorem journalUnknown (ho : Observed src cfg now o) {checks : Checks}
    (hchecks : evaluate printer ip o cfg = .ok checks) : JournalUnknown src checks := by
  obtain ⟨calendar, -, hrest⟩ := Except.exists_of_bind_ok hchecks
  obtain rfl := Except.ok.inj hrest
  intro c hc
  have hunknown : (evaluateSshUnexpected ip o cfg).1 = .unknown ↔
      (src.journal .sshAccepted).code ≠ 0 := by
    rw [← mem_failed ho, ← List.contains_iff_mem]
    unfold evaluateSshUnexpected
    split_ifs with h
    · exact iff_of_true rfl h
    · exact iff_of_false Verdict.of_ne_unknown h
  have hread : (∃ query, (src.journal query).code ≠ 0) → (evaluateJournalRead o).1 = .failed := by
    rintro ⟨query, hquery⟩
    have hnonempty : o.journalFailed.isEmpty = false :=
      List.isEmpty_eq_false_iff.mpr (List.ne_nil_of_mem ((mem_failed ho).mpr hquery))
    rw [evaluateJournalRead, hnonempty]
    rfl
  have hboth {verdict : Verdict} {queries : List Query}
      (hown : verdict = .unknown ↔ ∃ query ∈ queries, (src.journal query).code ≠ 0) :
      (verdict = .unknown ↔ ∃ query ∈ queries, (src.journal query).code ≠ 0) ∧
        (verdict = .unknown → (evaluateJournalRead o).1 = .failed) := by
    refine ⟨hown, fun h => hread ?_⟩
    obtain ⟨query, -, hquery⟩ := hown.mp h
    exact ⟨query, hquery⟩
  cases c with
  | journalErrors => exact hboth (evaluateCount_unknown ho)
  | sshFailures => exact hboth (evaluateCount_unknown ho)
  | egressDrops => exact hboth (evaluateCount_unknown ho)
  | sshUnexpected => exact hboth (hunknown.trans (by simp [ownQueries]))
  | _ => exact absurd rfl hc

/-- The calendar's verdict is reached exactly when what needs attention can be gone through. -/
theorem calendar_returns_iff (ho : Observed src cfg now o) :
    (∃ verdict, evaluateCalendar printer o cfg = .ok verdict) ↔ AttentionListed src cfg := by
  constructor
  · rintro ⟨verdict, hverdict⟩ hknob items hobject hblock hattention
    have hitems := (body_eq_obj_iff ho.calendar).mpr ⟨hknob, hobject⟩
    rw [evaluateCalendar, hitems, reach_of_body ho.calendar hitems] at hverdict
    dsimp only at hverdict
    rw [hblock, hattention] at hverdict
    obtain ⟨entries, hentries, -⟩ := Except.exists_of_bind_ok hverdict
    exact ⟨entries, hentries⟩
  · intro h
    unfold evaluateCalendar
    split_ifs
    · exact ⟨_, rfl⟩
    split
    next items hitems =>
      split_ifs with hblock hattention
      · exact ⟨_, rfl⟩
      · obtain ⟨hknob, hobject⟩ := (body_eq_obj_iff ho.calendar).mp hitems
        obtain ⟨entries, hentries⟩ := h hknob items hobject (by simpa using hblock) hattention
        rw [hentries]
        exact ⟨_, rfl⟩
      · exact ⟨_, rfl⟩
      · split
        · exact ⟨_, rfl⟩
        · split_ifs <;> exact ⟨_, rfl⟩
    · exact ⟨_, rfl⟩

/-- A count of circuits that cannot be read passes for one that is there. -/
theorem torCircuits_ok (ho : Observed src cfg now o) (hknob : cfg.knob .torContainer ≠ "")
    (hcode : src.torLogs.code = 0) (hwindow : src.torWarnings.code = 0)
    (hquiet : netWarnings src.torWarnings.out = 0) {line : Text}
    (hline : circuitsLine src.torLogs.out = some line) (hnone : circuitsOf line = none) :
    (evaluateTorCircuits o cfg).1 = .ok := by
  have hread : torRead src cfg = true := torRead_iff.mpr ⟨hknob, hcode⟩
  have halive : (aliveLines src.torLogs.out).length ≠ 0 := by
    have hmem := (List.mem_filter.mp (List.mem_of_getLast? hline)).1
    exact (List.length_pos_of_mem hmem).ne'
  rw [evaluateTorCircuits, ho.alive, if_pos hread]
  dsimp only
  rw [if_neg halive, ho.circuits, if_pos hread, hline, Option.bind_some, hnone,
    if_neg (Option.some_ne_none 0).symm, ho.warnings, if_pos ⟨hread, hwindow⟩]
  dsimp only
  rw [hquiet, if_neg (lt_irrefl 0)]

/-- Of what `observe` can give, `evaluate` makes a verdict for every check, ok only for checks that
are sourced and unknown for a count of the journal exactly when its query failed, if and only if
what the calendar says needs attention can be gone through and the circuits that Tor's log tells of
can be counted. -/
theorem no_answer_reads_as_healthy_iff (printer : Printer) (ip : IpAddress)
    {src : Sources} {cfg : Settings} {now : ℚ} {o : Observation} (h : observe src cfg now = .ok o) :
    (∃ checks, evaluate printer ip o cfg = .ok checks ∧
        (∀ c ∈ Check.order, (checks c).1 = .ok → Sourced ip src cfg now c) ∧
          JournalUnknown src checks) ↔ AttentionListed src cfg ∧ CircuitsCounted src cfg := by
  have ho := observed_of_observe h
  constructor
  · rintro ⟨checks, hchecks, hsourced, -⟩
    obtain ⟨calendar, hcalendar, hrest⟩ := Except.exists_of_bind_ok hchecks
    refine ⟨(calendar_returns_iff ho).mp ⟨calendar, hcalendar⟩,
      fun hknob hcode hwindow hquiet line hline => ?_⟩
    by_contra hnone
    have hnone : circuitsOf line = none := Option.eq_none_iff_forall_ne_some.mpr fun n hn =>
      hnone ⟨n, hn⟩
    have htor : (checks .torCircuits).1 = .ok := by
      obtain rfl := Except.ok.inj hrest
      exact torCircuits_ok ho hknob hcode hwindow hquiet hline hnone
    obtain ⟨-, -, -, hcounted, -⟩ := hsourced .torCircuits (by decide) htor
    obtain ⟨n, hn, -⟩ := hcounted line hline
    exact Option.some_ne_none n (hn.symm.trans hnone)
  · rintro ⟨hlisted, hcounted⟩
    obtain ⟨calendar, hcalendar⟩ := (calendar_returns_iff ho).mpr hlisted
    have hchecks : ∃ checks, evaluate printer ip o cfg = .ok checks := by
      rw [evaluate, hcalendar]
      exact ⟨_, rfl⟩
    obtain ⟨checks, hchecks⟩ := hchecks
    exact ⟨checks, hchecks, fun c _ hok => sourced_of_ok ho hcounted hchecks hok,
      journalUnknown ho hchecks⟩

end Observed

/-! ## A calendar that is only flagged -/

namespace Flagged

def status : Text := "\x7b\"best_block\":\"00\",\"needs_attention\":true\x7d".toList

def items (attention : JsonValue) : List (List Nat × JsonValue) :=
  [("best_block".toList.map Char.toNat, .str ("00".toList.map Char.toNat)),
    ("needs_attention".toList.map Char.toNat, attention)]

/-- A box on which only the calendar is observed, and says `attention`. -/
def sources (attention : JsonValue) : Sources where
  loads text := if text = status then some (.obj (items attention)) else none
  running := "6.18.34".toList
  modules := none
  rebootRequired := false
  health := .unreached
  calendar := .body status
  dockerPs := ⟨-1, []⟩
  isActive _ _ := []
  statvfs _ := none
  thermal := .missing
  meminfo := .missing
  feederStat := .missing
  tail := ⟨-1, []⟩
  heartbeatStat := .missing
  heartbeat := .missing
  journal _ := ⟨0, []⟩
  nmcli := ⟨-1, []⟩
  torLogs := ⟨-1, []⟩
  torWarnings := ⟨-1, []⟩
  ss := ⟨-1, []⟩
  receipts := .missing

def cfg : Settings where
  name := "box"
  knob
    | .calendarUrl => "http://127.0.0.1:14788"
    | _ => ""
  confirmRuns := 2
  heartbeatHour := 8
  calMinSats := 100000
  diskPct := 85
  tempLimit := 75
  memLimit := 256
  feederStaleS := 600
  feederErrPolls := 5
  endpointStaleS := 180
  errorsLimit := 20
  sshFailuresLimit := 10
  egressLimit := 10
  anchorMaxH := 36
  dhcpMinH := 6
  btcMinPeers := 3
  torHbMaxH := "7"
  torWarnMin := "30"
  sshKnownSources := ""

/-- Texts and constants as `str` writes them; no other value is written here. -/
def printer : Printer where
  value
    | .null => "None"
    | .bool b => if b then "True" else "False"
    | .int n => toString n
    | .str s => String.ofList (s.map Char.ofNat)
    | _ => ""
  number _ := ""
  fixed _ _ := ""

/-- No text here is an address. -/
def ip : IpAddress where
  Address := Text
  same a b := a = b
  address _ := none
  inNetwork _ _ := none

end Flagged

/-- The calendar's `true` for what needs attention raises. -/
theorem flagged_calendar_raises :
    ∃ o, observe (Flagged.sources (.bool true)) Flagged.cfg 0 = .ok o ∧
    ¬∃ checks, evaluate Flagged.printer Flagged.ip o Flagged.cfg = .ok checks := by
  obtain ⟨o, ho⟩ : ∃ o, observe (Flagged.sources (.bool true)) Flagged.cfg 0 = .ok o := ⟨_, rfl⟩
  refine ⟨o, ho, ?_⟩
  rintro ⟨checks, h⟩
  obtain ⟨calendar, hcalendar, -⟩ := Except.exists_of_bind_ok h
  have hlisted := (calendar_returns_iff (observed_of_observe ho)).mp ⟨calendar, hcalendar⟩
  have hobject : objectOf (Flagged.sources (.bool true)) (Flagged.sources (.bool true)).calendar =
      some (Flagged.items (.bool true)) := rfl
  obtain ⟨entries, hentries⟩ := hlisted (by decide) _ hobject rfl rfl
  cases hentries

theorem Flagged.objectOf_eq {attention : JsonValue} {items : List (List Nat × JsonValue)}
    (h : objectOf (sources attention) (sources attention).calendar = some items) :
    items = Flagged.items attention := by
  have hobject : objectOf (sources attention) (sources attention).calendar =
      some (Flagged.items attention) := rfl
  exact Option.some.inj (h.symm.trans hobject)

theorem Flagged.calm_attentionListed : AttentionListed (sources .null) cfg := by
  intro _ items hitems _ hattention
  obtain rfl := Flagged.objectOf_eq hitems
  have hcalm : (field (Flagged.items .null) "needs_attention").truthy = false := rfl
  exact absurd (hattention.symm.trans hcalm) (by decide)

theorem Flagged.calm_circuitsCounted : CircuitsCounted (sources .null) cfg :=
  fun hknob => absurd rfl hknob

/-- Without anything that needs attention every check has a verdict. -/
theorem calm_calendar_evaluated :
    ∃ o, observe (Flagged.sources .null) Flagged.cfg 0 = .ok o ∧
      ∃ checks, evaluate Flagged.printer Flagged.ip o Flagged.cfg = .ok checks ∧
        (∀ c ∈ Check.order, (checks c).1 = .ok →
          Sourced Flagged.ip (Flagged.sources .null) Flagged.cfg 0 c) ∧
        JournalUnknown (Flagged.sources .null) checks := by
  obtain ⟨o, ho⟩ : ∃ o, observe (Flagged.sources .null) Flagged.cfg 0 = .ok o := ⟨_, rfl⟩
  have hiff := no_answer_reads_as_healthy_iff Flagged.printer Flagged.ip ho
  exact ⟨o, ho, hiff.mpr ⟨Flagged.calm_attentionListed, Flagged.calm_circuitsCounted⟩⟩

end OtsServer.Watch
