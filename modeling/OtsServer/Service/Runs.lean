import OtsServer.Service.Pass
import OtsServer.Library.Transition

/-!
# Runs of the service

A process starts on the directory, takes submissions, fills, makes passes and settles
in any order, and ends: because it leaves, because it is killed between two calls, or
in one. The next process starts with what is on disk and nothing else.
-/

namespace OtsServer.Service

/-- The stamper as its constructor leaves it, its clock apart. -/
def Stamper.fresh (config : Config) : Stamper :=
  { config := config
    knownBlocks := []
    unprocessedBlocks := []
    unconfirmedTxs := []
    pendingCommitments := []
    txsWaitingForConfirmation := ∅
    commitmentRecords := ∅
    commitmentIdxs := ∅
    scanIdx := 0
    journalCursor := none
    nextTimestampTx := 0
    refusedAnchor := none }

/-- A process that has only just come up. -/
def State.boot (config : Config) (s : State) : State :=
  { s with
    running := true
    db := s.disk.db
    stamper := Stamper.fresh config
    journalBuffer := []
    aggregating := true
    countOwed := none }

section Start

variable (env : Env)

/-- A settling whose failures, a contradiction apart, are logged. -/
def settleAtStart : M Unit :=
  guarded (settlePendingReceipt env) fun
    | .receiptsAheadOfDatabase => Prog.raise .receiptsAheadOfDatabase
    | _ => pure ()

/-- `Stamper.__open`: the scan starts at the checkpoint. -/
def openStamper : M Unit := do
  fileCall env
  settleAtStart env
  let checkpoint ← readCheckpoint env
  modifyStamper fun s => { s with scanIdx := (checkpoint.map (·.1)).getD 0 }

/-- The start of a process. -/
def start (config : Config) : M Unit := do
  Prog.modify fun w => { w with toState := w.toState.boot config }
  let _ ← openCalendar env
  schedule env
  openStamper env

/-- The exit of a process: what the journal writer has buffered is flushed. -/
def leave : M Unit := do
  guarded (flushJournal env) fun _ => pure ()
  Prog.raise .stop

end Start

/-! ## Steps -/

inductive Event
  | start (config : Config)
  | append (commitment : Bytes) (records : Option Nat)
  | count
  | fill
  | pass
  | settle
  | leave
  | kill

/-- When an event can happen: one process at a time, one round of the aggregator at a time. -/
def Event.Enabled (s : State) : Event → Prop
  | start _ => s.running = false
  | append _ _ => s.running = true ∧ s.aggregating = true ∧ s.countOwed = none
  | _ => s.running = true

def Event.program (env : Env) : Event → M Unit
  | start config => Prog.handle (Service.start env config) fun _ => some (Prog.raise .stop)
  | append commitment records => appendEntry env commitment records
  | count => writeCount env
  | fill => Service.fill env
  | pass => Service.pass env
  | settle => settlePendingReceipt env
  | leave => Service.leave env
  | kill => Prog.raise .stop

/-- A program run as a step: a process that stopped is down, and no other exception leaves
the thread it was raised in. -/
def runProgram (m : M Unit) (w : World) : World :=
  match m w with
  | (.error .stop, t) => { t with running := false }
  | (_, t) => t

/-- The service with processes that are started with an allowed configuration, from an empty
directory. -/
def service (env : Env) (allowed : Config → Prop) : Transition.System World where
  init w := w.running = false ∧ w.disk = Disk.empty ∧ w.history = History.empty ∧ w.tick = 0
  step w w' := ∃ e : Event, e.Enabled w.toState ∧ (∀ config, e = .start config → allowed config) ∧
    w' = runProgram (e.program env) w

/-! ## Runs of events -/

section Runs

variable {env : Env} {allowed : Config → Prop} {w : World} {es : List Event}

instance (s : State) : (e : Event) → Decidable (e.Enabled s)
  | .start _ => inferInstanceAs (Decidable (s.running = false))
  | .append _ _ =>
      inferInstanceAs (Decidable (s.running = true ∧ s.aggregating = true ∧ s.countOwed = none))
  | .count | .fill | .pass | .settle | .leave | .kill =>
      inferInstanceAs (Decidable (s.running = true))

def World.empty (config : Config) : World :=
  { running := false
    disk := Disk.empty
    db := ⟨none, 0, []⟩
    stamper := Stamper.fresh config
    journalBuffer := []
    aggregating := false
    countOwed := none
    history := History.empty
    tick := 0 }

def runEvents (env : Env) : List Event → World → World
  | [], w => w
  | e :: es, w => runEvents env es (runProgram (e.program env) w)

/-- Every event can happen when its turn comes. -/
def Possible (env : Env) : List Event → World → Prop
  | [], _ => True
  | e :: es, w => e.Enabled w.toState ∧ Possible env es (runProgram (e.program env) w)

instance decidablePossible (env : Env) :
    (es : List Event) → (w : World) → Decidable (Possible env es w)
  | [], _ => isTrue trivial
  | e :: es, w =>
      @instDecidableAnd (e.Enabled w.toState) (Possible env es (runProgram (e.program env) w)) _
        (decidablePossible env es _)

theorem reachable_events (h : (service env allowed).Reachable w) (hpossible : Possible env es w)
    (hallowed : ∀ config, .start config ∈ es → allowed config) :
    (service env allowed).Reachable (runEvents env es w) := by
  induction es generalizing w with
  | nil => exact h
  | cons e es ih =>
      refine ih (.step h ⟨e, hpossible.1, fun config hconfig => ?_, rfl⟩) hpossible.2
        fun config hconfig => hallowed config (List.mem_cons_of_mem _ hconfig)
      exact hallowed config (hconfig ▸ List.mem_cons_self ..)

/-- What events make of an empty directory is reachable. -/
theorem reachable_runEvents {config : Config} (hpossible : Possible env es (.empty config))
    (hallowed : ∀ config, .start config ∈ es → allowed config) :
    (service env allowed).Reachable (runEvents env es (.empty config)) :=
  reachable_events (.init ⟨rfl, rfl, rfl, rfl⟩) hpossible hallowed

end Runs

end OtsServer.Service
