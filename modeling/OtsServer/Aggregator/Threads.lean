import OtsServer.Library.Transition
import Mathlib.Data.Rat.Defs
import Mathlib.Data.Rat.Lemmas
import Mathlib.Logic.Function.Basic

/-!
# The aggregator and its submitters

`Aggregator.submit` runs in any number of threads beside `Aggregator.__loop`. The model
is a step relation at the grain at which the threads can see each other: every read of
a flag, every operation on the queue, on a done event and on the lock is a step of its
own, in any order the program counters allow. `_recent` is only touched by the thread
that holds the lock, so what is done to it there is one step.

The timestamp and the done event made for a queued leaf are named by one number, which
the dedupe map hands to later callers. Every thread makes one call, which may begin at
any time; a caller that calls twice is two threads. Clock readings are arbitrary, a wait
may time out whenever its event is not set, and `exit_event` may be set at any moment.
`Calendar.submit` writes the journal entry, syncs it and returns; it may raise at any
point before that.
-/

namespace OtsServer.Aggregator

abbrev Tid := Nat

/-- The arguments of one `submit`. -/
structure Call (M : Type*) where
  msg : M
  counted : Bool

/-- What stands in `digest_queue`: the leaf and the done event made for it, both named
`id`, and whether it counts as a record. -/
structure Leaf (M : Type*) where
  id : Nat
  msg : M
  counted : Bool

/-- An entry of `_recent`. -/
structure Entry where
  expiresAt : ℚ
  id : Nat

/-- `_recent`, in insertion order. -/
abbrev Recent (M : Type*) := List (M × Entry)

structure Config where
  dedupeHorizon : ℚ
  dedupeMaxEntries : Nat

section Recent

variable {M : Type*} [DecidableEq M]

/-- Entries are deleted from the front up to the first that expires after `now`. -/
def Recent.purge (now : ℚ) (recent : Recent M) : Recent M :=
  recent.dropWhile fun e => e.2.expiresAt ≤ now

def Recent.find (msg : M) (recent : Recent M) : Option Entry :=
  (recent.find? fun e => e.1 = msg).map Prod.snd

/-- A popped entry goes to the back with a fresh expiry. -/
def Recent.refresh (config : Config) (now : ℚ) (msg : M) (id : Nat) (recent : Recent M) :
    Recent M :=
  recent.filter (fun e => e.1 ≠ msg) ++ [(msg, ⟨now + config.dedupeHorizon, id⟩)]

/-- A new entry; the oldest is deleted when there are too many. -/
def Recent.add (config : Config) (now : ℚ) (msg : M) (id : Nat) (recent : Recent M) : Recent M :=
  let recent := recent ++ [(msg, ⟨now + config.dedupeHorizon, id⟩)]
  if recent.length > config.dedupeMaxEntries then recent.tail else recent

end Recent

/-- Where a submitter stands, before the step named in the comment. -/
inductive Submitter (M : Type*)
  | idle
  | called (c : Call M)                 -- `self.failure is not None`
  | unfailed (c : Call M)               -- `self.exit_event.is_set()`
  | admitted (c : Call M)               -- `time.time()`
  | timed (c : Call M) (now : ℚ)        -- `with self._recent_lock`
  | locked (c : Call M) (now : ℚ)       -- the dedupe map
  | putting (c : Call M) (id : Nat)     -- `self.digest_queue.put`
  | leaving (c : Call M) (id : Nat)     -- the end of the `with`
  | waiting (c : Call M) (id : Nat)     -- `done_event.wait`
  | woken (c : Call M) (id : Nat)       -- `self.failure is not None`
  | passed (c : Call M) (id : Nat)      -- `return timestamp`
  | returned (c : Call M) (id : Nat)
  | refused (c : Call M)                -- raised `AggregatorUnavailable`

namespace Submitter

variable {M : Type*}

/-- Inside the `with`. -/
def Holding : Submitter M → Prop
  | locked .. | putting .. | leaving .. => True
  | _ => False

/-- The call and the leaf it is attached to. -/
def ticket : Submitter M → Option (Call M × Nat)
  | putting c id | leaving c id | waiting c id | woken c id | passed c id | returned c id =>
      some (c, id)
  | _ => none

/-- Past the last check of `failure`: `return timestamp` is all that is left, or done. -/
def Through : Submitter M → Prop
  | passed .. | returned .. => True
  | _ => False

end Submitter

/-- What the loop gathers for a round, and passes on. -/
structure Round (M : Type*) where
  digests : List (Leaf M)
  doneEvents : List Nat
  records : Nat

def Round.empty {M : Type*} : Round M := ⟨[], [], 0⟩

/-- One item taken off the queue. -/
def Round.take {M : Type*} (r : Round M) (leaf : Leaf M) : Round M :=
  ⟨r.digests ++ [leaf], r.doneEvents ++ [leaf.id], if leaf.counted then
    r.records + 1 else r.records⟩

/-- Where the loop stands. -/
inductive Loop (M : Type*)
  | waiting                             -- `self.exit_event.wait`
  | draining (r : Round M)              -- `self.digest_queue.empty()`
  | submitting (r : Round M)            -- `make_merkle_tree`, `self.calendar.submit`
  | syncing (r : Round M)               -- the journal entry is written, not yet synced
  | synced (r : Round M)                -- the entry is durable, the count follows
  | failed (r : Round M)                -- the exception is caught
  | recorded (r : Round M)              -- `self.failure` is set
  | notifying (events : List Nat) (last : Bool)
  | stopped

/-- A pass through the locked part of `submit`, for the history: `fresh` when it made the
entry, and so the leaf. -/
structure Registration (M : Type*) where
  call : Call M
  id : Nat
  fresh : Bool

/-- The shared objects, the threads, and the history that the properties speak about. -/
structure State (M : Type*) where
  queue : List (Leaf M)
  recent : Recent M
  lock : Option Tid
  exitEvent : Bool
  failure : Option String
  done : Nat → Bool
  nextId : Nat
  submitter : Tid → Submitter M
  loop : Loop M
  /-- Passes through the locked part, oldest first. -/
  registered : List (Registration M)
  /-- Leaves put on the queue, oldest first. -/
  puts : List (Leaf M)
  /-- Rounds given to `Calendar.submit`, oldest first. -/
  rounds : List (Round M)
  /-- Rounds whose journal entry is synced. -/
  journal : List (Round M)
  /-- Rounds for which `Calendar.submit` returned. -/
  committed : List (Round M)

def State.start (M : Type*) : State M where
  queue := []
  recent := []
  lock := none
  exitEvent := false
  failure := none
  done := fun _ => false
  nextId := 0
  submitter := fun _ => .idle
  loop := .waiting
  registered := []
  puts := []
  rounds := []
  journal := []
  committed := []

section Steps

variable {M : Type*}

/-- The steps of a submitter that change nothing but where it stands. -/
inductive Submitter.Advance (s : State M) : Submitter M → Submitter M → Prop
  | call (c : Call M) : Advance s .idle (.called c)
  | stopped {c : Call M} : s.failure ≠ none → Advance s (.called c) (.refused c)
  | unfailed {c : Call M} : s.failure = none → Advance s (.called c) (.unfailed c)
  | exiting {c : Call M} : s.exitEvent → Advance s (.unfailed c) (.refused c)
  | admitted {c : Call M} : ¬s.exitEvent → Advance s (.unfailed c) (.admitted c)
  | clock {c : Call M} (now : ℚ) : Advance s (.admitted c) (.timed c now)
  | wake {c : Call M} {id : Nat} : s.done id → Advance s (.waiting c id) (.woken c id)
  | timeout {c : Call M} {id : Nat} : ¬s.done id → Advance s (.waiting c id) (.refused c)
  | failed {c : Call M} {id : Nat} : s.failure ≠ none → Advance s (.woken c id) (.refused c)
  | pass {c : Call M} {id : Nat} : s.failure = none → Advance s (.woken c id) (.passed c id)
  | ret {c : Call M} {id : Nat} : Advance s (.passed c id) (.returned c id)

/-- The steps of the loop that change nothing but where it stands. -/
inductive Loop.Advance (s : State M) : Loop M → Loop M → Prop
  | exit : s.exitEvent → Advance s .waiting .stopped
  | wake : ¬s.exitEvent → Advance s .waiting (.draining .empty)
  | nothing {r : Round M} : s.queue = [] → r.digests = [] → Advance s (.draining r) .waiting
  | write {r : Round M} : Advance s (.submitting r) (.syncing r)
  | raise {r : Round M} : Advance s (.submitting r) (.failed r)
  | raiseSyncing {r : Round M} : Advance s (.syncing r) (.failed r)
  | round : Advance s (.notifying [] false) .waiting
  | stop : Advance s (.notifying [] true) .stopped

def State.setSubmitter (s : State M) (t : Tid) (pc : Submitter M) : State M :=
  { s with submitter := Function.update s.submitter t pc }

variable [DecidableEq M]

/-- One step of one thread, or of whoever sets `exit_event`. -/
inductive Step (config : Config) (s : State M) : State M → Prop
  | submitter (t : Tid) {pc : Submitter M} :
      Submitter.Advance s (s.submitter t) pc → Step config s (s.setSubmitter t pc)
  | acquire (t : Tid) {c : Call M} {now : ℚ} : s.submitter t = .timed c now → s.lock = none →
      Step config s { s.setSubmitter t (.locked c now) with lock := some t }
  | attach (t : Tid) {c : Call M} {now : ℚ} {entry : Entry} : s.submitter t = .locked c now →
      (s.recent.purge now).find c.msg = some entry →
      Step config s { s.setSubmitter t (.leaving c entry.id) with
        recent := (s.recent.purge now).refresh config now c.msg entry.id
        registered := s.registered ++ [⟨c, entry.id, false⟩] }
  | create (t : Tid) {c : Call M} {now : ℚ} : s.submitter t = .locked c now →
      (s.recent.purge now).find c.msg = none →
      Step config s { s.setSubmitter t (.putting c s.nextId) with
        recent := (s.recent.purge now).add config now c.msg s.nextId
        nextId := s.nextId + 1
        registered := s.registered ++ [⟨c, s.nextId, true⟩] }
  | put (t : Tid) {c : Call M} {id : Nat} : s.submitter t = .putting c id →
      Step config s { s.setSubmitter t (.leaving c id) with
        queue := s.queue ++ [⟨id, c.msg, c.counted⟩]
        puts := s.puts ++ [⟨id, c.msg, c.counted⟩] }
  | release (t : Tid) {c : Call M} {id : Nat} : s.submitter t = .leaving c id →
      Step config s { s.setSubmitter t (.waiting c id) with lock := none }
  | loop {pc : Loop M} : Loop.Advance s s.loop pc → Step config s { s with loop := pc }
  | take {r : Round M} {leaf : Leaf M} {rest : List (Leaf M)} : s.loop = .draining r →
      s.queue = leaf :: rest →
      Step config s { s with queue := rest, loop := .draining (r.take leaf) }
  | submit {r : Round M} : s.loop = .draining r → s.queue = [] → r.digests ≠ [] →
      Step config s { s with loop := .submitting r, rounds := s.rounds ++ [r] }
  | sync {r : Round M} : s.loop = .syncing r →
      Step config s { s with loop := .synced r, journal := s.journal ++ [r] }
  | commit {r : Round M} : s.loop = .synced r →
      Step config s { s with
        loop := .notifying r.doneEvents false, committed := s.committed ++ [r] }
  | record {r : Round M} (exp : String) : s.loop = .failed r →
      Step config s { s with loop := .recorded r, failure := some exp }
  | exit {r : Round M} : s.loop = .recorded r →
      Step config s { s with loop := .notifying r.doneEvents true, exitEvent := true }
  | notify {id : Nat} {events : List Nat} {last : Bool} : s.loop = .notifying (id :: events) last →
      Step config s { s with
        loop := .notifying events last, done := Function.update s.done id true }
  | setExit : Step config s { s with exitEvent := true }

/-- The aggregator with its submitters, from a fresh start. -/
def system (config : Config) : Transition.System (State M) where
  init s := s = .start M
  step := Step config

end Steps

end OtsServer.Aggregator
