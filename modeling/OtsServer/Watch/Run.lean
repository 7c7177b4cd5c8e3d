import OtsServer.Library.Prog
import OtsServer.Library.Sha256
import OtsServer.Watch.Queue

/-!
# A run of the watcher

A run loads the state and the outbox, observes, decides what to say, writes the record and
the outbox, and delivers. What is observed and decided is given; `state.json` is kept as the
fields `decide` works on and the queue owed.

The answers of the file system and of the server are given for every call. A file is replaced
whole or not at all, and a write may raise on either side of the rename. A process may stop at
any call. What happened is noted as it happens, the newest first; no function reads the notes.
-/

namespace OtsServer.Watch

inductive Fault
  | osError
  | outboxUnreadable
  | stateUnreadable
  | other
  | stop
deriving DecidableEq

/-- How a call that reads ends. -/
inductive ReadAnswer
  | done
  | raises
  | stops

/-- How `write_bytes_atomic` ends, and whether the new bytes are in place when it does not
return. -/
inductive WriteAnswer
  | done
  | raises (renamed : Bool)
  | stops (renamed : Bool)

/-- How `send` ends. The server may have taken a message whose delivery is not seen to succeed. -/
inductive SendAnswer
  | accepted
  | refused (taken : Bool)
  | stops (taken : Bool)

/-- Contents of `outbox.json`: a list of messages, or bytes that are not one. -/
inductive Outbox
  | missing
  | corrupt (raw : Bytes)
  | queue (messages : List Message)

/-- The fields of a state that `decide` works on, and the queue owed. -/
structure Record (S : Type) where
  fields : S
  owed : Option (List Message)

inductive StateFile (S : Type)
  | missing
  | corrupt (raw : Bytes)
  | record (r : Record S)

/-- What happens in a run. Messages are named by their identities. -/
inductive Event
  /-- A record with a prepared queue is in place: the messages it adds and those it drops, and the
  total of the notice at its head with the messages this counts. -/
  | recorded (new lost : List Nat) (notice : Option (Nat × List Nat))
  /-- A record without a queue is in place; the outbox holds these messages. -/
  | cleared (outbox : List Nat)
  /-- Messages of the outbox are put behind the recorded queue. -/
  | carried (messages : List Nat)
  | sent (id : Nat) (taken : Bool)
  /-- The rewrite that follows a delivery is in place. -/
  | rewritten
  /-- The outbox is no list of messages any more; these stood in it as the queue. -/
  | spoiled (queue : List Nat)
deriving DecidableEq

structure Env (S : Type) where
  read : Nat → ReadAnswer
  write : Nat → WriteAnswer
  send : Nat → SendAnswer
  /-- `box_name` and the time of a notice. -/
  name : String
  clock : Nat → String
  /-- The text of what `json.loads` or the check of the messages raised. -/
  problem : Bytes → String
  /-- What the run observes and decides: the new fields and the texts to send. -/
  decide : Option S → Except Fault (S × List String)

/-- The files, and what is noted of the runs. -/
structure Desk (S : Type) where
  outbox : Outbox
  state : StateFile S
  /-- Identities from here on have not been given. -/
  fresh : Nat
  events : List Event

structure World (S : Type) extends Desk S where
  calls : Nat

inductive Mode
  | deliver
  | statusOnly
  | dry
deriving DecidableEq

abbrev M (S : Type) := Prog (World S) Fault

def Outbox.messages : Outbox → List Message
  | queue ms => ms
  | _ => []

namespace Desk

variable {S : Type}

/-- The queue owed by the record. -/
def owed (d : Desk S) : Option (List Message) :=
  match d.state with
  | .record r => r.owed
  | _ => none

/-- Where the messages stand: owed by the record, or else in the outbox. -/
def queue (d : Desk S) : List Message := d.owed.getD d.outbox.messages

def note (d : Desk S) (e : Event) : Desk S := { d with events := e :: d.events }

/-- The outbox in place. -/
def putOutbox (d : Desk S) (messages : List Message) (news : List Event) : Desk S :=
  { d with outbox := .queue messages, events := news ++ d.events }

/-- The record in place; without a queue, what the outbox holds is noted. -/
def putRecord (d : Desk S) (fields : S) (owed : Option (List Message)) (news : List Event) :
    Desk S :=
  { d with
    state := .record ⟨fields, owed⟩
    events := (if owed = none then [.cleared (ids d.outbox.messages)] else []) ++ news ++ d.events }

/-- Something outside spoils the bytes of the outbox. -/
def spoil (d : Desk S) (raw : Bytes) : Desk S :=
  { d with
    outbox := .corrupt raw
    events := .spoiled (if d.owed = none then ids d.outbox.messages else []) :: d.events }

end Desk

section Calls

variable {S : Type} (env : Env S)

def note (e : Event) : M S Unit := Prog.modify fun w => { w with toDesk := w.toDesk.note e }

/-- A call that reads; `unreadable` is what an OSError is raised on as. -/
def readCall (unreadable : Fault) : M S Unit := fun w =>
  match env.read w.calls with
  | .done => (.ok (), { w with calls := w.calls + 1 })
  | .raises => (.error unreadable, { w with calls := w.calls + 1 })
  | .stops => (.error .stop, { w with calls := w.calls + 1 })

/-- `write_bytes_atomic`; `rename` is what the new bytes in place make of the files. -/
def writeAtomic (rename : Desk S → Desk S) : M S Unit := fun w =>
  let w' (renamed : Bool) : World S := ⟨if renamed then rename w.toDesk else w.toDesk, w.calls + 1⟩
  match env.write w.calls with
  | .done => (.ok (), w' true)
  | .raises renamed => (.error .osError, w' renamed)
  | .stops renamed => (.error .stop, w' renamed)

/-- A file that nothing reads back is written: the status line, or bytes set aside. -/
def writeOther : M S Unit := writeAtomic env id

/-- `write_json_atomic` of the outbox. -/
def writeOutbox (messages : List Message) (news : List Event) : M S Unit :=
  writeAtomic env fun d => d.putOutbox messages news

def commit (fields : S) (owed : Option (List Message)) (news : List Event) : M S Unit :=
  writeAtomic env fun d => d.putRecord fields owed news

/-- `except OSError` around a write: whether it returned. -/
def tried (m : M S Unit) : M S Bool :=
  Prog.handle (m >>= fun _ => pure true) fun e => if e = .osError then some (pure false) else none

/-- New messages of these texts. -/
def makeMessages (stamp : String) (notice : Bool) (texts : List String) : M S (List Message) :=
  fun w =>
  (.ok (newMessages w.fresh stamp notice texts), { w with fresh := w.fresh + texts.length })

/-- The name of the file that bytes are set aside in. -/
def asideName (base : String) (raw : Bytes) : String :=
  base ++ ".corrupt-" ++ String.ofList ((Bytes.hexText (Sha256.digest raw)).take 12)

def loadOutbox : M S (List Message) := do
  readCall env .outboxUnreadable
  match ← Prog.gets fun w => w.outbox with
  | .missing => pure []
  | .queue messages => pure messages
  | .corrupt raw =>
      writeOther env
      let stamp ← Prog.gets fun w => env.clock w.calls
      let notice ← makeMessages stamp true
        [env.name ++ " WATCHER: outbox.json could not be read (" ++ env.problem raw ++ "); " ++
          toString raw.length ++ " bytes set aside as " ++ asideName "outbox.json" raw ++
          "; alerts queued before this run may not have been delivered"]
      writeOutbox env notice []
      pure notice

/-- `load_state`: the fields and the queue owed, and the texts of notices. -/
def loadState (aside : Bool) : M S (Option (Record S) × List String) := do
  readCall env .stateUnreadable
  match ← Prog.gets fun w => w.state with
  | .missing => pure (none, [])
  | .record r => pure (some r, [])
  | .corrupt raw =>
      if aside then
        writeOther env
        pure (none, [env.name ++ " WATCHER: state.json could not be read (" ++
          env.problem raw ++ "); " ++
          toString raw.length ++ " bytes set aside as " ++ asideName "state.json" raw ++
          "; starting afresh: checks failing now will alarm again once, the journal since " ++
          "the last good run was not read, and any alert the old state still owed is in the " ++
          "aside file only"])
      else pure (none, [])

/-- `send`: whether it is seen to succeed. -/
def send (m : Message) : M S Bool := fun w =>
  let w' (taken : Bool) : World S :=
    { w with calls := w.calls + 1, events := .sent m.id taken :: w.events }
  match env.send w.calls with
  | .accepted => (.ok true, w' true)
  | .refused taken => (.ok false, w' taken)
  | .stops taken => (.error .stop, w' taken)

end Calls

section Run

variable {S : Type} (env : Env S)

/-- The queue a run goes on with: the one owed, behind it the recovery notices that the outbox
holds and the record does not; else the outbox. -/
def loadQueue (owed : Option (List Message)) : M S (List Message) := do
  let loaded ← loadOutbox env
  match owed with
  | none => pure loaded
  | some owed =>
      let carried := loaded.filter fun m => m.content.notice && !m.isIn owed
      note (.carried (ids carried))
      pure (owed ++ carried)

/-- Delivery, oldest first, up to the first failure. -/
def deliver (fields : S) (persisted : Bool) : List Message → M S (List Message)
  | [] => pure []
  | m :: queue => do
      if ← send env m then
        if persisted then
          let _ ← tried (writeOutbox env queue [.rewritten])
          deliver fields persisted queue
        else if ← tried
            (commit env fields (if queue = [] then none else some queue) [.rewritten]) then
          deliver fields persisted queue
        else pure queue
      else pure (m :: queue)

/-- What follows the record: the queue is copied to the outbox and the record is rewritten without
it; then it is delivered. -/
def settle (fields : S) (prepared : List Message) : M S Nat := do
  let persisted ← tried (writeOutbox env prepared [])
  let cleared ← if persisted then tried (commit env fields none []) else pure true
  if cleared then
    let queue ← deliver env fields persisted prepared
    if queue.length ≠ prepared.length then
      writeOther env
      pure (if queue = [] then 0 else 1)
    else pure (if queue = [] then 0 else 1)
  else pure 1

/-- A run with `NTFY_URL` set, from where the queue is loaded. -/
def record (fields : S) (queue : List Message) (texts : List String) : M S Nat := do
  let stamp ← Prog.gets fun w => env.clock w.calls
  let new ← makeMessages stamp false texts
  let id ← Prog.gets fun w => w.fresh
  Prog.modify fun w => { w with fresh := w.fresh + 1 }
  let (prepared, lost) := enqueue env.name stamp id queue new
  writeOther env
  commit env fields (some prepared) [.recorded (ids new) (ids lost) (headTotal prepared)]
  settle env fields prepared

/-- `_run_locked`, with its exceptions. -/
def runBody (mode : Mode) : M S Nat := do
  let (state, notices) ← loadState env (mode ≠ .dry)
  if mode = .deliver then
    let queue ← loadQueue env (state.bind Record.owed)
    let (fields, texts) ← Prog.ofExcept (env.decide (state.map Record.fields))
    record env fields queue (notices ++ texts)
  else
    let (fields, _) ← Prog.ofExcept (env.decide (state.map Record.fields))
    writeOther env
    if mode = .statusOnly then
      commit env fields none []
      pure 0
    else pure 0

/-- `_run_locked`: a file that cannot be read ends the run with nothing done. -/
def runLocked (mode : Mode) : M S Nat :=
  Prog.handle (runBody env mode) fun e =>
    if e = .outboxUnreadable ∨ e = .stateUnreadable then some (pure 1) else none

end Run

/-- A directory that holds nothing. -/
def Desk.IsEmpty {S : Type} (d : Desk S) : Prop :=
  d.outbox = .missing ∧ d.state = .missing ∧ d.events = []

end OtsServer.Watch
