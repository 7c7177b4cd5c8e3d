import Mathlib.Data.List.Basic

/-!
# The queue of the watcher

What the watcher has to deliver is a list of messages, kept in `outbox.json` and, while the
outbox has not been brought into line, in the record. `enqueue` appends a run's messages and
keeps the queue to its bound; what it drops it counts in a notice at the head.

A message carries an identity that the files do not: two runs may well write the same text in
the same second, and what happens to the one is not said of the other. A notice of dropped
messages also carries which messages it counts.
-/

namespace OtsServer.Watch

/-- The fields of a message that says how many were dropped. -/
structure Cap where
  dropped : Nat
  first : String
  last : String
deriving DecidableEq

/-- A message as it stands in a file. -/
structure Content where
  text : String
  queued : String
  /-- `notice`: the outbox's loader made it. -/
  notice : Bool
  cap : Option Cap
deriving DecidableEq

structure Message where
  content : Content
  id : Nat
  /-- The messages that a notice of dropped messages counts. -/
  counted : List Nat
deriving DecidableEq

/-- Messages of these texts, with identities from `fresh` on. -/
def newMessages (fresh : Nat) (stamp : String) (notice : Bool) (texts : List String) :
    List Message :=
  texts.zipIdx.map fun t => ⟨⟨t.1, stamp, notice, none⟩, fresh + t.2, []⟩

/-- `m not in owed`, where messages are compared as they stand in the files. -/
def Message.isIn (m : Message) (owed : List Message) : Bool :=
  owed.any fun o => o.content == m.content

/-- `OUTBOX_MAX`. -/
def outboxMax : Nat := 200

/-- The notice of dropped messages at the head of a queue, if there is one. -/
def capAtHead : List Message → Option (Message × Cap)
  | [] => none
  | m :: _ => m.content.cap.map fun cap => (m, cap)

/-- What that notice says: how many were dropped, and which ones it counts. -/
def headTotal (queue : List Message) : Option (Nat × List Nat) :=
  (capAtHead queue).map fun n => (n.2.dropped, n.1.counted)

/-- `enqueue`: the queue with new messages, and those it dropped for it. -/
def enqueue (name stamp : String) (id : Nat) (queue new : List Message) :
    List Message × List Message :=
  let queue := queue ++ new
  if queue.length > outboxMax then
    let notice := capAtHead queue
    let rest := if notice.isSome then queue.drop 1 else queue
    let keep := outboxMax - 1
    let lost := rest.take (rest.length - keep)
    let rest := rest.drop (rest.length - keep)
    let total := (notice.map fun n => n.2.dropped).getD 0 + lost.length
    let first :=
      match notice.map fun n => n.2.first with
      | none => (lost.head?.map fun m => m.content.queued).getD ""
      | some first =>
          if first = "" then (lost.head?.map fun m => m.content.queued).getD "" else first
    let last := (lost.getLast?.map fun m => m.content.queued).getD ""
    let text := name ++ " WATCHER: outbox over " ++ toString outboxMax ++ ": " ++ toString total ++
      " oldest alerts dropped (queued " ++ first ++ " to " ++ last ++ "); their text is lost"
    let counted := (notice.map fun n => n.1.counted).getD [] ++ lost.map Message.id
    (⟨⟨text, stamp, false, some ⟨total, first, last⟩⟩, id, counted⟩ :: rest, lost)
  else (queue, [])

/-- The identities of a queue. -/
def ids (queue : List Message) : List Nat := queue.map Message.id

end OtsServer.Watch
