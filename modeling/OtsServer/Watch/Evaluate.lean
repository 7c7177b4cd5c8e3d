import OtsServer.Watch.Observe

/-!
# What the watcher makes of an observation

`evaluate` turns an observation into a verdict and a detail for every check. How Python writes a
float or a decoded value is a parameter, and so is the module that reads addresses.
-/

namespace OtsServer.Watch

/-- How values are written. -/
structure Printer where
  /-- `str(v)`. -/
  value : JsonValue → String
  /-- `str(x)` of a float. -/
  number : ℚ → String
  /-- `'%.nf' % x`. -/
  fixed : Nat → ℚ → String

/-- The module `ipaddress`; `none` is a `ValueError`. -/
structure IpAddress where
  Address : Type
  same : Address → Address → Bool
  address : Text → Option Address
  /-- Whether an address is in a network. -/
  inNetwork : Address → Text → Option Bool

/-- `source_known`. -/
def sourceKnown (ip : IpAddress) (addr : Text) (known : List Text) : Bool :=
  match ip.address addr with
  | none => known.contains addr
  | some a =>
      known.any fun k =>
        if '/' ∈ k then (ip.inNetwork a k).getD false else (ip.address k).any (ip.same a)

/-! ## Values of any shape -/

/-- The text of a decoded string; a lone surrogate is no character. -/
def textOf (s : List Nat) : Option Text :=
  s.mapM fun c => if Nat.isValidChar c then some (Char.ofNat c) else none

/-- `parse_sats`. What is neither an integer nor a text is written with characters that `int` does
not take. -/
def parseSats : JsonValue → Option Int
  | .int n => some n
  | .str s => (textOf s).bind fun text => Text.int (Text.trim (text.filter (· ≠ ',')))
  | _ => none

/-- `v == text`. -/
def isText (v : JsonValue) (text : String) : Bool :=
  match v with
  | .str s => s = text.toList.map Char.toNat
  | _ => false

/-- `d.get(key)`. -/
def field (items : List (List Nat × JsonValue)) (key : String) : JsonValue :=
  JsonValue.item items (key.toList.map Char.toNat)

/-- What a loop goes through; a value that has no members raises `TypeError`. -/
def membersOf : JsonValue → Except Fault (List JsonValue)
  | .arr entries => .ok entries
  | .str text => .ok (text.map fun c => .str [c])
  | .obj items => .ok (items.map fun item => .str item.1)
  | _ => .error .other

/-- The verdict of a condition. -/
def Verdict.of (p : Bool) : Verdict := if p then .ok else .failed

@[simp] theorem Verdict.of_eq_ok {p : Bool} : Verdict.of p = .ok ↔ p = true := by cases p <;> decide

@[simp] theorem Verdict.of_ne_unknown {p : Bool} : Verdict.of p ≠ .unknown := by cases p <;> decide

/-- `d.get(key)`, of entries of which a later one replaces an earlier. -/
def lastOf {α : Type} (entries : List (Text × α)) (key : Text) : Option α :=
  entries.reverse.lookup key

theorem mem_of_lastOf {α : Type} {entries : List (Text × α)} {key : Text} {a : α}
    (h : lastOf entries key = some a) : (key, a) ∈ entries := by
  obtain ⟨before, after, heq, -⟩ := List.lookup_eq_some_iff.mp h
  rw [← List.mem_reverse, heq]
  exact List.mem_append_right _ (List.mem_cons_self ..)

section Evaluate

variable (printer : Printer) (ip : IpAddress)

/-! ## The gateway and the calendar -/

/-- The fields of `/health` that a detail quotes. -/
def healthFields : List String :=
  ["payment", "otsd", "wallet", "float", "proofs", "backup", "billing"]

/-- What a field may say without being quoted. -/
def quietStates : List String := ["ok", "unknown", "absent", "inactive", "local_only", "off", "n/a"]

def isQuiet (v : JsonValue) : Bool :=
  match v with
  | .null => true
  | _ => quietStates.any (isText v)

def evaluateHealth (o : Observation) : Verdict × String :=
  if !o.healthReach then (.unknown, "health unknown: /health unreachable")
  else
    match o.health with
    | .obj items =>
        let bad := healthFields.filter fun f => !isQuiet (field items f)
        let status := field items "status"
        (.of (isText status "ok"), "health=" ++ printer.value status ++ " " ++
          " ".intercalate (bad.map fun f => f ++ "=" ++ printer.value (field items f)))
    | _ => (.unknown, "health unknown: body is not an object")

def evaluateCalendar (o : Observation) (cfg : Settings) : Except Fault (Verdict × String) :=
  if !o.calendarReach then .ok (.failed, "no answer from the calendar")
  else
    match o.calendar with
    | .obj items =>
        if !(field items "best_block").truthy then .ok (.failed, "calendar is Bitcoin-blind")
        else if (field items "needs_attention").truthy then do
          let entries ← membersOf (field items "needs_attention")
          .ok (.failed, "calendar needs attention: " ++ "; ".intercalate
              (entries.map printer.value))
        else if !isText (field items "anchor_receipts") "on" then
          .ok (.failed, "calendar anchor receipts " ++ printer.value
              (field items "anchor_receipts"))
        else
          match parseSats (field items "balance") with
          | none => .ok (.unknown, "calendar unknown: balance unreadable")
          | some sats =>
              if sats < cfg.calMinSats then
                .ok (.failed, "anchor wallet " ++ toString sats ++ " sats < " ++
                    toString cfg.calMinSats)
              else .ok (.ok, "")
    | _ => .ok (.unknown, "calendar unknown: status unreadable")

/-! ## Containers, units and the box -/

def isUp (status : Option Text) : Bool := "Up".toList.isPrefixOf (status.getD [])

def joined (names : List Text) : String := ",".intercalate (names.map String.ofList)

def evaluateContainers (o : Observation) (cfg : Settings) : Verdict × String :=
  match o.containers with
  | none => (.unknown, "containers unknown: docker ps failed")
  | some states =>
      let down := (cfg.names .containers).filter fun name => !isUp (lastOf states name)
      (.of down.isEmpty, "down: " ++ joined down)

/-- `SYSTEMD_STATES`. -/
def systemdStates : List String :=
  ["active", "inactive", "failed", "activating", "deactivating", "reloading",
    "maintenance", "refreshing", "unknown"]

/-- Both checks of units; `kind` is the key with a space. -/
def evaluateUnits (kind : String) (states : List (Text × Text)) : Verdict × String :=
  let odd := states.filter fun s => !systemdStates.contains (String.ofList s.2)
  if !odd.isEmpty then
    (.unknown, kind ++ " unknown: systemctl gave no state for " ++ joined (odd.map Prod.fst))
  else
    let bad := states.filter fun s => s.2 ≠ "active".toList
    (.of bad.isEmpty,
        ",".intercalate (bad.map fun s => String.ofList s.1 ++ "=" ++ String.ofList s.2))

/-- Both checks of mounts. -/
def evaluateDisk (name : String) (mount : Knob) (o : Observation) (cfg : Settings) :
    Verdict × String :=
  match (lastOf o.disk (cfg.knob mount).toList).join with
  | none => (.unknown, name ++ " unknown: mount unreadable")
  | some percent => (.of (percent < cfg.diskPct), name ++ " at " ++ printer.number percent ++ "%")

def evaluateTemp (o : Observation) (cfg : Settings) : Verdict × String :=
  match o.tempC with
  | none => (.unknown, "temp unknown: no thermal reading")
  | some t => (.of (cfg.knob .tempC = "" ∨ t < cfg.tempLimit), "temp " ++ printer.number t ++ "C")

def evaluateMem (o : Observation) (cfg : Settings) : Verdict × String :=
  match o.memAvailMb with
  | none => (.unknown, "mem unknown: meminfo unreadable")
  | some m =>
      (.of (cfg.knob .memMb = "" ∨ cfg.memLimit ≤ m), "mem available " ++ toString m ++ "MB")

/-! ## The feeder and the endpoint -/

def evaluateFeeder (o : Observation) (cfg : Settings) : Verdict × String :=
  if o.feederError = some .unreadable then (.unknown, "feeder unknown: log unreadable")
  else
    match o.feederAge with
    | none => (.failed, "feeder log missing")
    | some age =>
        if cfg.feederStaleS < age then (.failed, "feeder log stale " ++ toString ⌊age / 60⌋ ++ "m")
        else
          match o.feederTailError, o.feederErrPolls with
          | none, some polls =>
              if cfg.feederErrPolls ≤ polls then
                (.failed, "feeder last " ++ toString polls ++ " polls all with errors")
              else (.ok, "")
          | error, _ =>
              (.unknown, "feeder unknown: " ++ (error.map TailError.text).getD "no poll lines")

def evaluateEndpoint (o : Observation) (cfg : Settings) : Verdict × String :=
  match o.endpointError with
  | some .unreadable => (.unknown, "endpoint unknown: heartbeat unreadable")
  | some .unparseable => (.unknown, "endpoint unknown: heartbeat unparseable")
  | _ =>
      match o.endpointAge with
      | none => (.failed, "endpoint heartbeat missing")
      | some age =>
          if cfg.endpointStaleS < age then
            (.failed, "endpoint heartbeat stale " ++ toString ⌊age / 60⌋ ++ "m")
          else
            match o.endpointBreaker with
            | none => (.unknown, "endpoint unknown: heartbeat has no breaker field")
            | some breaker =>
                if breaker ≠ "ok".toList then
                  (.failed, "endpoint breaker=" ++ String.ofList breaker) else (.ok, "")

/-! ## The journal -/

def evaluateJournalRead (o : Observation) : Verdict × String :=
  (.of o.journalFailed.isEmpty, "journalctl failed: " ++ ", ".intercalate
      (o.journalFailed.map Query.label) ++ " (window kept, read again next run)")

/-- The three counts of the journal, each unknown when a query of its own failed. -/
def evaluateCount (queries : List Query) (count : Nat) (limit : Int) (unknown what : String)
    (o : Observation) : Verdict × String :=
  if queries.any o.journalFailed.contains then (.unknown, unknown ++ " unknown: journalctl failed")
  else (.of (count ≤ limit), toString count ++ " " ++ what ++ " since last check")

def evaluateJournalErrors (o : Observation) (cfg : Settings) : Verdict × String :=
  evaluateCount [.errors, .userErrors] o.journalErrors cfg.errorsLimit "journal errors"
    "journal errors" o

def evaluateSshFailures (o : Observation) (cfg : Settings) : Verdict × String :=
  evaluateCount [.sshFailures] o.sshFailures cfg.sshFailuresLimit "ssh failures"
    "ssh auth failures" o

def evaluateEgressDrops (o : Observation) (cfg : Settings) : Verdict × String :=
  evaluateCount [.egress] o.egressDrops cfg.egressLimit "refused outbound"
    "refused outbound packets" o

/-- `unexpected_sources`. -/
def unexpectedSources (o : Observation) (cfg : Settings) : List Text :=
  let known := ((cfg.sshKnownSources.toList.splitOn ',').map Text.trim).filter (· ≠ [])
  o.sshSources.filter fun addr => !sourceKnown ip addr known

def evaluateSshUnexpected (o : Observation) (cfg : Settings) : Verdict × String :=
  if o.journalFailed.contains .sshAccepted then (.unknown, "ssh sources unknown: journalctl failed")
  else
    let unexpected := unexpectedSources ip o cfg
    (.of unexpected.isEmpty, "ssh accepted from " ++ toString unexpected.length ++ " source" ++
      (if unexpected.length = 1 then "" else "s") ++ " not in SSH_KNOWN_SOURCES")

/-! ## Anchors, the kernel and the network -/

def evaluateAnchorAge (o : Observation) (cfg : Settings) : Verdict × String :=
  match o.receiptsError, o.anchors, o.anchorAgeH with
  | some error, _, _ => (.unknown, "anchor age unknown: receipts " ++ error.text)
  | none, none, _ => (.unknown, "anchor age unknown: receipts not observed")
  | none, some (_ + 1), some age =>
      (.of (age ≤ cfg.anchorMaxH), "last anchor " ++ printer.fixed 0 age ++ "h ago")
  | none, some _, _ => (.unknown, "anchor age unknown: no receipt yet")

def evaluateRebootWanted (o : Observation) : Verdict × String :=
  if o.rebootRequiredFile then (.failed, "reboot wanted: /run/reboot-required is set")
  else
    match o.kernelNewest with
    | none => (.unknown, "reboot unknown: kernel list unreadable")
    | some newest =>
        if o.kernelRunning ≠ newest then
          (.failed, "reboot wanted: kernel " ++ String.ofList (Text.before ['+'] newest) ++
              " installed, running " ++ String.ofList (Text.before ['+'] o.kernelRunning))
        else (.ok, "")

def evaluateDhcpLease (o : Observation) (cfg : Settings) : Verdict × String :=
  match o.dhcpLeaseLeftH with
  | none => (.unknown, "dhcp unknown: no lease expiry from nmcli")
  | some left =>
      (.of (cfg.dhcpMinH ≤ left),
          "dhcp lease expires in " ++ printer.fixed 1 left ++ "h, renewal missed")

def evaluateTorCircuits (o : Observation) (cfg : Settings) : Verdict × String :=
  match o.torAliveLines with
  | none => (.unknown, "tor unknown: log unreadable")
  | some alive =>
      if alive = 0 then (.failed, "no tor heartbeat in " ++ cfg.torHbMaxH ++ "h")
      else if o.torCircuits = some 0 then (.failed, "tor reports 0 circuits open")
      else
        match o.torNetWarn with
        | none => (.unknown, "tor unknown: the warning window could not be read")
        | some warnings =>
            if 0 < warnings then
              (.failed, "tor: " ++ toString warnings ++ " no-network-activity warnings in " ++
                  cfg.torWarnMin ++ "m")
            else (.ok, "")

def evaluateBtcPeers (o : Observation) (cfg : Settings) : Verdict × String :=
  match o.btcPeers with
  | none => (.unknown, "bitcoind peers unknown: ss failed")
  | some peers => (.of (cfg.btcMinPeers ≤ peers), toString peers ++ " bitcoind peers established")

/-! ## All checks -/

/-- `evaluate`. -/
def evaluate (o : Observation) (cfg : Settings) : Except Fault Checks := do
  let calendar ← evaluateCalendar printer o cfg
  .ok fun
    | .healthReach => (.of o.healthReach, "no answer from /health")
    | .health => evaluateHealth printer o
    | .calendar => calendar
    | .containers => evaluateContainers o cfg
    | .unitsSystem => evaluateUnits "units system" o.unitsSystem
    | .unitsUser => evaluateUnits "units user" o.unitsUser
    | .diskRoot => evaluateDisk printer "disk_root" .diskRoot o cfg
    | .diskBoot => evaluateDisk printer "disk_boot" .diskBoot o cfg
    | .temp => evaluateTemp printer o cfg
    | .mem => evaluateMem o cfg
    | .feeder => evaluateFeeder o cfg
    | .endpoint => evaluateEndpoint o cfg
    | .journalErrors => evaluateJournalErrors o cfg
    | .sshFailures => evaluateSshFailures o cfg
    | .journalRead => evaluateJournalRead o
    | .anchorAge => evaluateAnchorAge printer o cfg
    | .rebootWanted => evaluateRebootWanted o
    | .egressDrops => evaluateEgressDrops o cfg
    | .dhcpLease => evaluateDhcpLease printer o cfg
    | .torCircuits => evaluateTorCircuits o cfg
    | .btcPeers => evaluateBtcPeers o cfg
    | .sshUnexpected => evaluateSshUnexpected ip o cfg

end Evaluate

end OtsServer.Watch
