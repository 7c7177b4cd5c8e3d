import OtsServer.Library.Transition
import OtsServer.Watch.Orderly

/-!
# The bound of the queue

The queue under any sequence of `enqueue` calls and deliveries, kept beside everything that was
appended and delivered. What it holds and what the notice at its head counts add up.
-/

namespace OtsServer.Watch

/-! ## Queues and their notice -/

/-- The messages of a queue that are no notice of dropped ones. -/
def alerts (queue : List Message) : List Message := queue.filter fun m => m.content.cap.isNone

@[simp] theorem alerts_append (a b : List Message) : alerts (a ++ b) = alerts a ++ alerts b :=
  List.filter_append ..

theorem alerts_eq_self {queue : List Message} (h : ∀ m ∈ queue, m.content.cap = none) :
    alerts queue = queue :=
  List.filter_eq_self.mpr fun m hm => by rw [h m hm]; rfl

/-- The dropped total of the notice at the head of a queue, and the messages after it. -/
def accounted (queue : List Message) : Nat :=
  ((headTotal queue).map Prod.fst).getD 0 + (alerts queue).length

/-- No notice stands behind another message. -/
def NoticeFirst (queue : List Message) : Prop := ∀ m ∈ queue.tail, m.content.cap = none

theorem NoticeFirst.append {queue new : List Message} (h : NoticeFirst queue)
    (hnew : ∀ m ∈ new, m.content.cap = none) : NoticeFirst (queue ++ new) := by
  intro m hm
  cases queue with
  | nil => exact hnew m (List.mem_of_mem_tail hm)
  | cons head rest =>
      obtain hm | hm := List.mem_append.mp hm
      · exact h m hm
      · exact hnew m hm

theorem headTotal_append {queue new : List Message} (hnew : ∀ m ∈ new, m.content.cap = none) :
    headTotal (queue ++ new) = headTotal queue := by
  cases queue with
  | cons head rest => rfl
  | nil =>
      cases new with
      | nil => rfl
      | cons m new => simp [headTotal, capAtHead, hnew m]

/-- New messages count in full. -/
theorem accounted_append {queue new : List Message} (hnew : ∀ m ∈ new, m.content.cap = none) :
    accounted (queue ++ new) = accounted queue + new.length := by
  rw [accounted, accounted, headTotal_append hnew, alerts_append, alerts_eq_self hnew,
    List.length_append, Nat.add_assoc]

theorem accounted_notice {notice : Message} {cap : Cap} {kept : List Message}
    (hcap : notice.content.cap = some cap) (hkept : ∀ m ∈ kept, m.content.cap = none) :
    accounted (notice :: kept) = cap.dropped + kept.length := by
  have halerts : alerts (notice :: kept) = alerts kept := by simp [alerts, hcap]
  rw [accounted, halerts, alerts_eq_self hkept]
  simp [headTotal, capAtHead, hcap]

/-- Without a notice at the head there is none. -/
theorem NoticeFirst.none {queue : List Message} (h : NoticeFirst queue)
    (hhead : capAtHead queue = .none) : ∀ m ∈ queue, m.content.cap = .none := by
  intro m hm
  cases queue with
  | nil => exact nomatch hm
  | cons head rest =>
      obtain rfl | hm := List.mem_cons.mp hm
      · exact Option.map_eq_none_iff.mp hhead
      · exact h m hm

/-- `enqueue`, for a queue whose notice stands first: all of it, or a new notice before its last
messages, which says how many are missing. -/
theorem enqueue_folds (name stamp : String) (id : Nat) {queue new : List Message}
    (h : NoticeFirst (queue ++ new)) :
    ((enqueue name stamp id queue new).1 = queue ++ new ∧ (queue ++ new).length ≤ outboxMax) ∨
    ∃ notice cap kept, (enqueue name stamp id queue new).1 = notice :: kept ∧ notice.id = id ∧
      notice.content.cap = some cap ∧ kept.length = outboxMax - 1 ∧ kept <:+ queue ++ new ∧
      (∀ m ∈ kept, m.content.cap = none) ∧ accounted (queue ++ new) =
        cap.dropped + kept.length := by
  obtain ⟨heq, hlength⟩ | ⟨notice, folded, lost, kept, cap, heq, hqueue, hid,
      -, hcap, hkept, hcases⟩ :=
    enqueue_cases name stamp id queue new
  · exact .inl ⟨congrArg Prod.fst heq, hlength⟩
  right
  refine ⟨notice, cap, kept, congrArg Prod.fst heq, hid, hcap, hkept,
    ⟨folded ++ lost, hqueue.symm⟩, ?_⟩
  obtain ⟨rfl, hnone, -, hdropped⟩ | ⟨old, oldCap, rfl, hold, -, hdropped⟩ := hcases
  · have hplain := h.none hnone
    rw [hqueue] at hplain hnone ⊢
    have hkeptPlain : ∀ m ∈ kept, m.content.cap = none :=
      fun m hm => hplain m (List.mem_append_right _ hm)
    refine ⟨hkeptPlain, ?_⟩
    rw [accounted, headTotal, hnone, alerts_eq_self hplain, hdropped]
    simp
  · rw [hqueue] at h ⊢
    have hplain : ∀ m ∈ lost ++ kept, m.content.cap = none := h
    refine ⟨fun m hm => hplain m (List.mem_append_right _ hm), ?_⟩
    rw [List.append_assoc, List.singleton_append, accounted_notice hold hplain,
      hdropped, List.length_append, Nat.add_assoc]

/-! ## Runs -/

/-- The queue, with every message that was appended to it and every one that was popped from its
head. -/
structure Line where
  queue : List Message
  appended : List Message
  popped : List Message
  fresh : Nat

namespace Line

def empty : Line := ⟨[], [], [], 0⟩

/-- New messages, each with an identity of its own. -/
def arrivals (s : Line) (contents : List Content) : List Message :=
  contents.zipIdx.map fun c => ⟨c.1, s.fresh + c.2, []⟩

/-- `enqueue`, as a run calls it. -/
def add (name stamp : String) (contents : List Content) (s : Line) : Line where
  queue := (enqueue name stamp (s.fresh + contents.length) s.queue (s.arrivals contents)).1
  appended := s.appended ++ s.arrivals contents
  popped := s.popped
  fresh := s.fresh + contents.length + 1

/-- A delivery: `queue.pop(0)`. -/
def deliver (s : Line) : Line :=
  { s with queue := s.queue.drop 1, popped := s.popped ++ s.queue.take 1 }

/-- The messages that were appended and not popped since. -/
def waiting (s : Line) : List Message := s.appended.filter fun m => m.id ∉ ids s.popped

/-- Any sequence of calls with messages that are no notices, and of deliveries, from the empty
queue. -/
def system : Transition.System Line where
  init s := s = empty
  step s t := (∃ name stamp contents, (∀ c ∈ contents, c.cap = none) ∧
      t = s.add name stamp contents) ∨ s.queue ≠ [] ∧ t = s.deliver

section Arrivals

variable {s : Line} {contents : List Content}

@[simp] theorem length_arrivals : (s.arrivals contents).length = contents.length := by
  simp [arrivals]

theorem mem_arrivals {m : Message} (h : m ∈ s.arrivals contents) :
    m.content ∈ contents ∧ s.fresh ≤ m.id ∧ m.id < s.fresh + contents.length := by
  obtain ⟨⟨content, i⟩, hmem, rfl⟩ := List.mem_map.mp h
  have hi := List.snd_lt_of_mem_zipIdx hmem
  exact ⟨List.fst_mem_of_mem_zipIdx hmem, Nat.le_add_right .., by simpa using hi⟩

theorem ids_arrivals : ids (s.arrivals contents) = List.range' s.fresh contents.length := by
  rw [ids, arrivals, List.map_map]
  refine List.ext_getElem (by simp) fun i h₁ h₂ => ?_
  simp

end Arrivals

/-- The bound, the place of the notice and what is left of the appended messages. -/
structure Lined (s : Line) : Prop where
  length : s.queue.length ≤ outboxMax
  noticeFirst : NoticeFirst s.queue
  left : alerts s.queue <:+ s.waiting
  /-- Identities are given once, and a notice has none of an appended message. -/
  known : ∀ m ∈ s.queue ++ s.appended ++ s.popped, m.id < s.fresh
  once : (ids s.appended).Nodup
  apart : ∀ m ∈ s.queue, m.content.cap ≠ none → m.id ∉ ids s.appended

/-- What is appended waits. -/
theorem Lined.waiting_add {s : Line} (h : Lined s) (name stamp : String) (contents : List Content) :
    (s.add name stamp contents).waiting = s.waiting ++ s.arrivals contents := by
  have hnew : (s.arrivals contents).filter (fun m => m.id ∉ ids s.popped) =
      s.arrivals contents := by
    refine List.filter_eq_self.mpr fun m hm => decide_eq_true fun hpopped => ?_
    obtain ⟨p, hp, hid⟩ := List.mem_map.mp hpopped
    have hlt := h.known p (List.mem_append_right _ hp)
    have hge := (mem_arrivals hm).2.1
    omega
  rw [waiting, waiting, add, List.filter_append, hnew]

theorem Lined.add {s : Line} (h : Lined s) (name stamp : String) {contents : List Content}
    (hplain : ∀ c ∈ contents, c.cap = none) : Lined (s.add name stamp contents) := by
  have hnew : ∀ m ∈ s.arrivals contents, m.content.cap = none :=
    fun m hm => hplain _ (mem_arrivals hm).1
  have hall := h.noticeFirst.append hnew
  have hwaiting :
      alerts (s.queue ++ s.arrivals contents) <:+ (s.add name stamp contents).waiting := by
    obtain ⟨gone, hgone⟩ := h.left
    rw [h.waiting_add, alerts_append, alerts_eq_self hnew, ← hgone]
    exact ⟨gone, (List.append_assoc ..).symm⟩
  have hknown : ∀ m ∈ s.queue ++ s.arrivals contents, m.id < s.fresh + contents.length := by
    intro m hm
    obtain hm | hm := List.mem_append.mp hm
    · have := h.known m (by simp [hm])
      omega
    · exact (mem_arrivals hm).2.2
  have hids : ∀ id ∈ ids (s.appended ++ s.arrivals contents), id < s.fresh + contents.length := by
    intro id hid
    obtain ⟨m, hm, rfl⟩ := List.mem_map.mp hid
    obtain hm | hm := List.mem_append.mp hm
    · have := h.known m (by simp [hm])
      omega
    · exact (mem_arrivals hm).2.2
  have hrest : ∀ m ∈ s.appended ++ s.arrivals contents ++ s.popped,
      m.id < s.fresh + contents.length + 1 := by
    intro m hm
    obtain hm | hm := List.mem_append.mp hm
    · exact (hids _ (List.mem_map_of_mem hm)).trans (Nat.lt_succ_self _)
    · have := h.known m (by simp [hm])
      omega
  have honce : (ids (s.appended ++ s.arrivals contents)).Nodup := by
    rw [ids_append, ids_arrivals]
    refine List.nodup_append.mpr ⟨h.once, List.nodup_range', ?_⟩
    rintro id hid id' hid' rfl
    obtain ⟨m, hm, rfl⟩ := List.mem_map.mp hid
    have hlt := h.known m (by simp [hm])
    have hge := (List.mem_range'_1.mp hid').1
    omega
  -- an old notice is apart from what is appended now, as it was given its identity before
  have hapart : ∀ m ∈ s.queue ++ s.arrivals contents, m.content.cap ≠ none →
      m.id ∉ ids (s.appended ++ s.arrivals contents) := by
    intro m hm hcap hid
    obtain hm | hm := List.mem_append.mp hm
    · rw [ids_append, ids_arrivals] at hid
      obtain hid | hid := List.mem_append.mp hid
      · exact h.apart m hm hcap hid
      · have hlt := h.known m (by simp [hm])
        have hge := (List.mem_range'_1.mp hid).1
        omega
    · exact hcap (hnew m hm)
  obtain ⟨heq, hlength⟩ | ⟨notice, cap, kept, heq, hid, hcap, hlength, hkept, hkeptPlain, -⟩ :=
    enqueue_folds name stamp (s.fresh + contents.length) hall
  · have hqueue : (s.add name stamp contents).queue = s.queue ++ s.arrivals contents := heq
    constructor
    · rwa [hqueue]
    · rwa [hqueue]
    · rwa [hqueue]
    · intro m hm
      rw [hqueue, List.append_assoc] at hm
      obtain hm | hm := List.mem_append.mp hm
      · exact (hknown m hm).trans (Nat.lt_succ_self _)
      · exact hrest m hm
    · exact honce
    · rwa [hqueue]
  · have hqueue : (s.add name stamp contents).queue = notice :: kept := heq
    have halerts : alerts (notice :: kept) = kept := by
      rw [alerts, List.filter_cons_of_neg (by simp [hcap])]
      exact alerts_eq_self hkeptPlain
    constructor
    · rw [hqueue, List.length_cons, hlength, outboxMax]
    · rw [hqueue]
      exact hkeptPlain
    · rw [hqueue, halerts, ← alerts_eq_self hkeptPlain]
      exact (hkept.filter _).trans hwaiting
    · intro m hm
      rw [hqueue, List.append_assoc, List.cons_append] at hm
      obtain rfl | hm := List.mem_cons.mp hm
      · exact hid ▸ Nat.lt_succ_self _
      obtain hm | hm := List.mem_append.mp hm
      · exact (hknown m (hkept.subset hm)).trans (Nat.lt_succ_self _)
      · exact hrest m hm
    · exact honce
    · rw [hqueue]
      intro m hm hm'
      obtain rfl | hm := List.mem_cons.mp hm
      · exact fun hmem => absurd (hids _ hmem) (by omega)
      · exact absurd (hkeptPlain m hm) hm'

/-- What is popped waits no longer. -/
theorem waiting_deliver {s : Line} {head : Message} {rest : List Message}
    (hqueue : s.queue = head :: rest) :
    s.deliver.waiting = s.waiting.filter fun m => m.id ≠ head.id := by
  rw [waiting, waiting, List.filter_filter, deliver, hqueue]
  refine List.filter_congr fun m _ => ?_
  rw [Bool.eq_iff_iff]
  simp [ids]
  tauto

theorem Lined.deliver {s : Line} (h : Lined s) (hne : s.queue ≠ []) : Lined s.deliver := by
  obtain ⟨head, rest, hqueue⟩ := List.exists_cons_of_ne_nil hne
  have hrest : s.deliver.queue = rest := by simp [Line.deliver, hqueue]
  have hplain : ∀ m ∈ rest, m.content.cap = none := by
    have := h.noticeFirst
    rwa [hqueue] at this
  constructor
  · have := h.length
    rw [hqueue, List.length_cons] at this
    rw [hrest]
    omega
  · rw [hrest]
    exact fun m hm => hplain m (List.mem_of_mem_tail hm)
  · obtain ⟨gone, hgone⟩ := h.left
    rw [hrest, waiting_deliver hqueue]
    cases hcap : head.content.cap with
    | some cap =>
        have hleft : alerts s.queue = alerts rest := by
          rw [hqueue, alerts, List.filter_cons_of_neg (by simp [hcap])]
          rfl
        have hsame : s.waiting.filter (fun m => m.id ≠ head.id) = s.waiting := by
          refine List.filter_eq_self.mpr fun m hm => decide_eq_true fun hid => ?_
          have hfree := h.apart head (by simp [hqueue]) (by simp [hcap])
          exact hfree (hid ▸ List.mem_map_of_mem (List.mem_filter.mp hm).1)
        rw [hsame, ← hleft]
        exact h.left
    | none =>
        have hleft : alerts s.queue = head :: alerts rest := by
          rw [hqueue, alerts, List.filter_cons_of_pos (by simp [hcap])]
          rfl
        have honce : (ids s.waiting).Nodup := (List.filter_sublist.map _).nodup h.once
        rw [← hgone, hleft, ids_append] at honce
        have hfree : head.id ∉ ids (alerts rest) :=
          (List.nodup_cons.mp (List.nodup_append.mp honce).2.1).1
        have hsame : (alerts rest).filter (fun m => m.id ≠ head.id) = alerts rest := by
          refine List.filter_eq_self.mpr fun m hm => decide_eq_true fun hid => ?_
          exact hfree (hid ▸ List.mem_map_of_mem hm)
        rw [← hgone, hleft, List.filter_append, List.filter_cons_of_neg (by simp), hsame]
        exact List.suffix_append ..
  · intro m hm
    refine h.known m ?_
    simp only [Line.deliver, hqueue, List.drop_succ_cons, List.drop_zero, List.take_succ_cons,
      List.take_zero, List.mem_append, List.mem_cons] at hm ⊢
    tauto
  · exact h.once
  · rw [hrest]
    exact fun m hm hcap => absurd (hplain m hm) hcap

theorem lined : system.Inductive Lined where
  init s hs := by
    obtain rfl : s = empty := hs
    exact ⟨Nat.zero_le _, fun _ hm => (nomatch hm), List.suffix_rfl, fun _ hm => (nomatch hm),
      List.nodup_nil, fun _ hm => (nomatch hm)⟩
  step s t _ h hstep := by
    obtain ⟨name, stamp, contents, hplain, rfl⟩ | ⟨hne, rfl⟩ := hstep
    · exact h.add name stamp hplain
    · exact h.deliver hne

/-- Every message is accounted for: the queue keeps its bound, a notice stands only at its head, its
other messages are the last of those that wait, and each call adds its messages to what the notice
and they come to. -/
theorem every_message_accounted {s : Line} (h : system.Reachable s) :
    s.queue.length ≤ outboxMax ∧ (∀ m ∈ s.queue.tail, m.content.cap = none) ∧
      alerts s.queue <:+ s.waiting ∧ ∀ name stamp contents, (∀ c ∈ contents, c.cap = none) →
        accounted (s.add name stamp contents).queue = accounted s.queue + contents.length := by
  have hlined := lined.reachable h
  refine ⟨hlined.length, hlined.noticeFirst, hlined.left, fun name stamp contents hplain => ?_⟩
  have hnew : ∀ m ∈ s.arrivals contents, m.content.cap = none :=
    fun m hm => hplain _ (mem_arrivals hm).1
  have hall := hlined.noticeFirst.append hnew
  rw [← length_arrivals (s := s), ← accounted_append hnew]
  obtain ⟨heq, -⟩ | ⟨notice, cap, kept, heq, -, hcap, -, -, hkeptPlain, hsum⟩ :=
    enqueue_folds name stamp (s.fresh + contents.length) hall
  · exact congrArg accounted heq
  · rw [hsum, ← accounted_notice hcap hkeptPlain]
    exact congrArg accounted heq

/-- A queue that overflowed while nothing was delivered, then one delivery and one more message. -/
theorem overflow_accounted :
    let content : Content := ⟨"alert", "then", false, none⟩
    let s := (empty.add "box" "now" (List.replicate 203 content)).deliver
    s.queue.length ≤ outboxMax ∧ alerts s.queue <:+ s.waiting ∧
      accounted (s.add "box" "later" [content]).queue = accounted s.queue + 1 := by
  intro content s
  have hadd : system.Reachable (empty.add "box" "now" (List.replicate 203 content)) :=
    .step (.init rfl) (.inl ⟨_, _, _, fun c hc => by rw [List.eq_of_mem_replicate hc], rfl⟩)
  have hs : system.Reachable s := .step hadd (.inr ⟨by decide +kernel, rfl⟩)
  obtain ⟨hlength, -, hleft, hsum⟩ := every_message_accounted hs
  exact ⟨hlength, hleft, hsum "box" "later" [content] fun c hc => by rw [List.mem_singleton.mp hc]⟩

end Line

end OtsServer.Watch
