import OtsServer.Library.JsonValue
import OtsServer.Library.Lines
import OtsServer.Watch.Decide
import Mathlib.Data.Char
import Mathlib.Data.List.Lex
import Mathlib.Data.List.Sort

/-!
# What the watcher observes

`observe` asks every source of a run and keeps what it gave, or that it gave nothing; it judges
nothing. A source is what its call gives. Times and shares are rational numbers, and a text that a
command or a file gives is decoded. What only a heartbeat carries is left out.
-/

namespace OtsServer.Watch

/-! ## Sources -/

/-- What `fetch_json` is given: no answer, one that is not UTF-8, or a text. -/
inductive Fetched
  | unreached
  | undecodable
  | body (text : Text)

/-- What a command gives: its code and its output. A command that cannot be run gives a code that is
not zero. -/
structure Answer where
  code : Int
  out : Text

/-- What `os.stat` gives of a file: the time it last changed. -/
inductive Stat
  | missing
  | unreadable
  | changed (mtime : ℚ)

/-- What opening and reading a file gives. -/
inductive Contents
  | missing
  | unreadable
  | undecodable
  | held (text : Text)

/-- The queries of the journal. -/
inductive Query
  | errors
  | userErrors
  | sshFailures
  | sshAccepted
  | egress
deriving DecidableEq

def Query.label : Query → String
  | errors => "errors"
  | userErrors => "errors(user)"
  | sshFailures => "ssh-failures"
  | sshAccepted => "ssh-accepted"
  | egress => "egress"

/-- The patterns a query's lines are searched for; a query without any keeps every line. -/
def Query.patterns : Query → List Text
  | sshFailures =>
      ["Failed password".toList, "Invalid user".toList, "authentication failure".toList,
        "maximum authentication attempts".toList]
  | sshAccepted => ["Accepted publickey".toList]
  | egress => ["egress-drop".toList]
  | _ => []

/-- The sources of a run. -/
structure Sources where
  /-- `json.loads`; `none` is a `ValueError`. -/
  loads : Text → Option JsonValue
  running : Text
  modules : Option (List Text)
  rebootRequired : Bool
  health : Fetched
  calendar : Fetched
  dockerPs : Answer
  isActive : (user : Bool) → Text → Text
  /-- The free and the whole blocks of a mount. -/
  statvfs : Text → Option (Nat × Nat)
  thermal : Contents
  meminfo : Contents
  feederStat : Stat
  tail : Answer
  heartbeatStat : Stat
  heartbeat : Contents
  journal : Query → Answer
  nmcli : Answer
  torLogs : Answer
  torWarnings : Answer
  ss : Answer
  receipts : Contents

/-- A configuration as `observe` and `evaluate` read it: the numbers are converted, those of
`TEMP_C` and `MEM_MB` only when the knob is not empty. -/
structure Settings extends Config where
  calMinSats : Int
  diskPct : ℚ
  tempLimit : ℚ
  memLimit : Int
  feederStaleS : ℚ
  feederErrPolls : Int
  endpointStaleS : ℚ
  errorsLimit : Int
  sshFailuresLimit : Int
  egressLimit : Int
  anchorMaxH : ℚ
  dhcpMinH : ℚ
  btcMinPeers : Int
  torHbMaxH : String
  torWarnMin : String
  sshKnownSources : String

/-- The parts of a knob that lists names, without the empty ones. -/
def Settings.names (cfg : Settings) (knob : Knob) : List Text :=
  ((cfg.knob knob).toList.splitOn ',').filter (· ≠ [])

/-! ## Observations -/

/-- Why a tail gave no count. -/
inductive TailError
  | tailFailed
  | noPollLines
deriving DecidableEq

def TailError.text : TailError → String
  | tailFailed => "tail failed"
  | noPollLines => "no poll lines"

/-- Why a file gave nothing. -/
inductive FileError
  | missing
  | unreadable
  | unparseable
deriving DecidableEq

def FileError.text : FileError → String
  | missing => "missing"
  | unreadable => "unreadable"
  | unparseable => "unparseable"

/-- What `evaluate` reads of an observation. -/
structure Observation where
  kernelRunning : Text
  kernelNewest : Option Text
  rebootRequiredFile : Bool
  health : JsonValue
  healthReach : Bool
  calendar : JsonValue
  calendarReach : Bool
  containers : Option (List (Text × Text))
  unitsSystem : List (Text × Text)
  unitsUser : List (Text × Text)
  disk : List (Text × Option ℚ)
  tempC : Option ℚ
  memAvailMb : Option Int
  feederAge : Option ℚ
  feederErrPolls : Option Nat
  feederError : Option FileError
  feederTailError : Option TailError
  endpointAge : Option ℚ
  endpointBreaker : Option Text
  endpointError : Option FileError
  journalFailed : List Query
  journalErrors : Nat
  sshFailures : Nat
  sshSources : List Text
  egressDrops : Nat
  dhcpLeaseLeftH : Option ℚ
  torAliveLines : Option Nat
  torCircuits : Option Int
  torNetWarn : Option Nat
  btcPeers : Option Nat
  anchors : Option Nat
  anchorAgeH : Option ℚ
  receiptsError : Option FileError

/-! ## The kernel -/

/-- `kernel_versions.key`. -/
def kernelKey (version : Text) : List Nat :=
  let numbers := (Text.before ['+'] version).map fun c => if c = '-' then '.' else c
  (numbers.splitOn '.').map fun part =>
    if part ≠ [] ∧ part.all fun c => (Text.decimalDigit c).isSome then
      (Text.natural part).getD 0 else 0

/-- The first of the greatest, by `kernelKey`. -/
def newestKernel : List Text → Option Text
  | [] => none
  | version :: versions =>
      match newestKernel versions with
      | none => some version
      | some newest => if kernelKey version < kernelKey newest then some newest else some version

/-- What a version ends in: its flavour, from the first `+` on. -/
def flavour (version : Text) : Text := version.dropWhile (· ≠ '+')

/-- The newest kernel that `kernel_versions` finds, the running one when the list holds none of its
flavour. -/
def kernelNewest (src : Sources) : Option Text :=
  src.modules.map fun names =>
    (newestKernel (names.filter (flavour src.running).isSuffixOf)).getD src.running

/-! ## Answers and files -/

/-- `fetch_json`. -/
def fetchJson (src : Sources) : Fetched → JsonValue × Bool
  | .unreached => (.null, false)
  | .undecodable => (.null, true)
  | .body text => ((src.loads text).getD .null, true)

/-- `file_age`. -/
def fileAge (stat : Stat) (now : ℚ) : Option ℚ × Option FileError :=
  match stat with
  | .changed mtime => (some (now - mtime), none)
  | .missing => (none, some .missing)
  | .unreadable => (none, some .unreadable)

/-- The names and the states of the containers, a line each. -/
def containerStates (out : Text) : List (Text × Text) :=
  (Text.lines out).filterMap fun line => (Text.after [' '] line).map fun status =>
    (Text.before [' '] line, status)

/-- The states of units. -/
def unitStates (src : Sources) (user : Bool) (names : List Text) : List (Text × Text) :=
  names.eraseDups.map fun name => (name, Text.trim (src.isActive user name))

/-- `round(x)`, to the even one of two integers that are as near. -/
def roundEven (x : ℚ) : Int :=
  if x - ⌊x⌋ < 1 / 2 then ⌊x⌋
  else if 1 / 2 < x - ⌊x⌋ then ⌊x⌋ + 1
  else if ⌊x⌋ % 2 = 0 then ⌊x⌋ else ⌊x⌋ + 1

/-- The share of a mount that is used, in percent to one place. A mount of no blocks raises
`ZeroDivisionError`. -/
def usedPercent : Option (Nat × Nat) → Except Fault (Option ℚ)
  | none => .ok none
  | some (_, 0) => .error .other
  | some (free, whole) => .ok (some (roundEven (1000 * (1 - free / whole)) / 10))

/-- `int(x) / 1000.0`. -/
def thermalC (text : Text) : Option ℚ :=
  (Text.int (Text.trim text)).bind fun n => ((Number.int n).toFloat.toOption).map (· / 1000)

/-- The memory that is available, in MB. -/
def memAvailMb (text : Text) : Option Int :=
  let rows := ((Text.lines text).filter (':' ∈ ·)).map (·.splitOn ':')
  if rows.any (·.length ≠ 2) then none
  else
    (rows.reverse.find? (·.head? = some "MemAvailable".toList)).bind fun row =>
      (Text.words (row.getD 1 [])).head?.bind fun word => (Text.int word).map (· / 1024)

def observeTemp (src : Sources) : Option ℚ :=
  match src.thermal with
  | .held text => thermalC text
  | _ => none

def observeMem (src : Sources) : Option Int :=
  match src.meminfo with
  | .held text => memAvailMb text
  | _ => none

/-- The number of errors that a poll line gives. -/
def pollErrors (line : Text) : Option Int :=
  (Text.after "errors=".toList line).bind fun rest =>
    (Text.words (Text.before "errors=".toList rest)).head?.bind Text.int

/-- The poll lines' errors; none when one line gives no number. -/
def pollCounts (out : Text) : List Int :=
  (((Text.lines out).filter (Text.holds "errors=".toList)).mapM pollErrors).getD []

/-- The poll lines of the tail; of a tail that fails there are none. -/
def observePolls (src : Sources) (cfg : Settings) : List Int :=
  if cfg.knob .feederLog = "" ∨ src.tail.code ≠ 0 then [] else pollCounts src.tail.out

def feederTailError (src : Sources) (cfg : Settings) : Option TailError :=
  if cfg.knob .feederLog = "" then none
  else if src.tail.code ≠ 0 then some .tailFailed
  else if observePolls src cfg = [] then some .noPollLines else none

/-- The breaker fields of a heartbeat. -/
def breakers (text : Text) : List Text :=
  ((Text.words text).filter "breaker=".toList.isPrefixOf).map (·.drop "breaker=".length)

/-- The first breaker field of the heartbeat, and why there is none. -/
def observeHeartbeat (src : Sources) (cfg : Settings) (now : ℚ) : Option Text × Option FileError :=
  if cfg.knob .endpointHeartbeat = "" then (none, none)
  else
    match (fileAge src.heartbeatStat now).2, src.heartbeat with
    | none, .held text => ((breakers text).head?, none)
    | none, .undecodable => (none, some .unparseable)
    | none, _ => (none, some .unreadable)
    | some error, _ => (none, some error)

/-! ## The journal -/

/-- The lines of a query; a query that fails has none. -/
def journalLines (src : Sources) (query : Query) : List Text :=
  if (src.journal query).code ≠ 0 then []
  else
    match query.patterns with
    | [] => Text.lines (src.journal query).out
    | patterns =>
        (Text.lines (src.journal query).out).filter fun line => patterns.any (Text.holds · line)

/-- The queries in the order they are made. -/
def Query.all : List Query := [.errors, .userErrors, .sshFailures, .sshAccepted, .egress]

/-- `journal_failed`. -/
def journalFailed (src : Sources) : List Query :=
  Query.all.filter fun query => (src.journal query).code ≠ 0

/-- The source address that a line of an accepted login names. A line that ends after `from` raises
`IndexError`. -/
def sourceOf (line : Text) : Except Fault (Option Text) :=
  match Text.after " from ".toList line with
  | none => .ok none
  | some rest =>
      match Text.words rest with
      | [] => .error .other
      | word :: _ => .ok (some (Text.before ['%'] word))

/-- `ssh_sources`, sorted and without repetition. -/
def sshSources (src : Sources) : Except Fault (List Text) := do
  let found ← (journalLines src .sshAccepted).mapM sourceOf
  .ok ((found.filterMap id).eraseDups.mergeSort fun a b => Decidable.decide (a ≤ b))

/-! ## Leases, circuits and receipts -/

/-- The hours that are left of a lease, by the last line that gives a time. A time that no float
holds raises `OverflowError`. -/
def leaseLeftH (now : ℚ) : List Text → Except Fault (Option ℚ)
  | [] => .ok none
  | line :: lines => do
      let here ← match (Text.afterLast "= ".toList line).bind Text.int with
        | some expiry => (Number.int expiry).toFloat.map fun expiry => some ((expiry - now) / 3600)
        | none => .ok none
      let later ← leaseLeftH now lines
      .ok (later.or here)

/-- The lines of `nmcli` that tell of the lease. -/
def leaseLines (src : Sources) : List Text :=
  (Text.lines src.nmcli.out).filter (Text.holds "expiry = ".toList)

def observeLease (src : Sources) (cfg : Settings) (now : ℚ) : Except Fault (Option ℚ) :=
  if cfg.knob .dhcpIface = "" then .ok none else leaseLeftH now (leaseLines src)

/-- The lines of Tor's log that show it is alive. -/
def aliveLines (out : Text) : List Text :=
  (Text.lines out).filter fun line =>
    Text.holds "Bootstrapped 100%".toList line || Text.holds "Heartbeat: Tor's uptime".toList line

/-- The last of these that tells of circuits. -/
def circuitsLine (out : Text) : Option Text :=
  ((aliveLines out).filter (Text.holds "circuits open".toList)).getLast?

/-- The number of circuits that a line gives. -/
def circuitsOf (line : Text) : Option Int :=
  (Text.after "with ".toList line).bind fun rest => Text.int (Text.before " circuits".toList rest)

/-- Tor is observed, and its log can be read. -/
def torRead (src : Sources) (cfg : Settings) : Bool :=
  cfg.knob .torContainer ≠ "" ∧ src.torLogs.code = 0

def netWarnings (out : Text) : Nat :=
  ((Text.lines out).filter (Text.holds "network activity".toList)).length

def Number.value : Number → ℚ
  | int i => i
  | float q => q

def keyConfirmedAt : List Nat := "confirmed_at".toList.map Char.toNat

/-- `l["confirmed_at"]`, when it is a finite number. -/
def confirmedAt : JsonValue → Option Number
  | .obj items =>
      match JsonValue.item items keyConfirmedAt with
      | .int n => some (.int n)
      | .float (.finite q) => some (.float q)
      | _ => none
  | _ => none

/-- The times of the receipts; `none` when the file cannot be parsed. -/
def receiptTimes (src : Sources) (text : Text) : Option (List Number) :=
  ((Text.lines text).filter fun line => Text.trim line ≠ []).mapM fun line =>
    (src.loads line).bind confirmedAt

/-- `max(times)`. -/
def newestTime : List Number → Option Number
  | [] => none
  | time :: times =>
      match newestTime times with
      | none => some time
      | some newest => if time.value < newest.value then some newest else some time

/-- What is observed of the receipts. -/
structure Receipts where
  anchors : Option Nat
  ageH : Option ℚ
  error : Option FileError

/-- The newest confirmation. A time that no float holds raises `OverflowError`. -/
def observeReceipts (src : Sources) (cfg : Settings) (now : ℚ) : Except Fault Receipts :=
  if cfg.knob .receipts = "" then .ok ⟨none, none, none⟩
  else
    match src.receipts with
    | .missing => .ok ⟨none, none, some .missing⟩
    | .unreadable => .ok ⟨none, none, some .unreadable⟩
    | .undecodable => .ok ⟨none, none, some .unparseable⟩
    | .held text =>
        match receiptTimes src text with
        | none => .ok ⟨none, none, some .unparseable⟩
        | some times =>
            match newestTime times with
            | none => .ok ⟨some 0, none, none⟩
            | some newest => do
                let newest ← newest.toFloat
                .ok ⟨some times.length, some ((now - newest) / 3600), none⟩

/-! ## The observation -/

/-- `observe`: a knob left empty is not observed. -/
def observe (src : Sources) (cfg : Settings) (now : ℚ) : Except Fault Observation := do
  let health := if cfg.knob .healthUrl = "" then (.null, false) else fetchJson src src.health
  let calendar := if cfg.knob .calendarUrl = "" then (.null, false) else fetchJson src src.calendar
  let containers :=
    if cfg.knob .containers = "" ∨ src.dockerPs.code ≠ 0 then none else
      some (containerStates src.dockerPs.out)
  let mounts := [Knob.diskRoot, .diskBoot].filterMap fun knob => if cfg.knob knob = "" then
    none else some (cfg.knob knob).toList
  let disk ← mounts.mapM fun mount => (usedPercent (src.statvfs mount)).map fun percent =>
    (mount, percent)
  let feeder := if cfg.knob .feederLog = "" then (none, none) else fileAge src.feederStat now
  let endpoint := if cfg.knob .endpointHeartbeat = "" then none else
    (fileAge src.heartbeatStat now).1
  let sshSources ← Watch.sshSources src
  let lease ← observeLease src cfg now
  let receipts ← observeReceipts src cfg now
  .ok {
    kernelRunning := src.running
    kernelNewest := Watch.kernelNewest src
    rebootRequiredFile := src.rebootRequired
    health := health.1
    healthReach := health.2
    calendar := calendar.1
    calendarReach := calendar.2
    containers := containers
    unitsSystem := unitStates src false (cfg.names .unitsSystem)
    unitsUser := unitStates src true (cfg.names .unitsUser)
    disk := disk
    tempC := observeTemp src
    memAvailMb := observeMem src
    feederAge := feeder.1
    feederErrPolls :=
      if observePolls src cfg = [] then none else
        some ((observePolls src cfg).filter (0 < ·)).length
    feederError := feeder.2
    feederTailError := Watch.feederTailError src cfg
    endpointAge := endpoint
    endpointBreaker := (observeHeartbeat src cfg now).1
    endpointError := (observeHeartbeat src cfg now).2
    journalFailed := Watch.journalFailed src
    journalErrors := (journalLines src .errors).length + (journalLines src .userErrors).length
    sshFailures := (journalLines src .sshFailures).length
    sshSources := sshSources
    egressDrops := (journalLines src .egress).length
    dhcpLeaseLeftH := lease
    torAliveLines := if torRead src cfg then some (aliveLines src.torLogs.out).length else none
    torCircuits := if torRead src cfg then (circuitsLine src.torLogs.out).bind circuitsOf else none
    torNetWarn := if torRead src cfg ∧ src.torWarnings.code = 0 then
      some (netWarnings src.torWarnings.out) else none
    btcPeers := if cfg.knob .btcP2pPort = "" ∨ src.ss.code ≠ 0 then none else
      some (Text.lines src.ss.out).length
    anchors := receipts.anchors
    anchorAgeH := receipts.ageH
    receiptsError := receipts.error }

end OtsServer.Watch
