import OtsServer.LevelDb.Unfolding
import OtsServer.LevelDb.Plain

/-!
# Batches of timestamps

Every batch adds the facts of its timestamps to what the database holds, so after any batches
the record of a message is the union of everything attached to it, the results of stored
operations are stored, and a stored message is read back whole.

Messages that begin with the prefix of the database's own keys are outside this: they are
written like any other, and never found again.
-/

namespace OtsServer.LevelDb

section

variable {Op Att : Type} [DecidableEq Op] [DecidableEq Att] {lib : Lib Op Att} {db db' : Db}
  {facts more : Fact Op Att → Prop}

/-- What is said by some timestamp of a list. -/
def Said (ts : List (Timestamp Op Att)) (f : Fact Op Att) : Prop := ∃ t ∈ ts, t.Has f

/-- The timestamps of all batches. -/
def added (batches : List (List (Timestamp Op Att) × Option Nat)) : List (Timestamp Op Att) :=
  batches.flatMap Prod.fst

theorem getTimestamp_meta {msg : Bytes} (h : isMeta msg = true) :
    getTimestamp lib db msg = .error (.keyError msg) := by
  rw [getTimestamp, if_pos h]

theorem not_has_meta {f : Fact Op Att} (h : isMeta f.msg = true) : ¬ (shelf lib db).Has f := by
  rintro ⟨r, hr, _⟩
  rw [shelf_eq_some, getTimestamp_meta h] at hr
  exact nomatch hr

/-- The records do not depend on the database's own keys. -/
theorem getTimestamp_congr {msg : Bytes} (h : isMeta msg = false → db' msg = db msg) :
    getTimestamp lib db' msg = getTimestamp lib db msg := by
  cases hmeta : isMeta msg with
  | true => rw [getTimestamp_meta hmeta, getTimestamp_meta hmeta]
  | false => rw [getTimestamp, getTimestamp, h hmeta]

theorem Holds.congr (h : Holds lib db facts) (hdb : ∀ msg, isMeta msg = false → db' msg = db msg) :
    Holds lib db' facts := by
  have hshelf : shelf lib db' = shelf lib db := by
    funext msg
    exact congrArg Except.toOption (getTimestamp_congr (hdb msg))
  refine ⟨fun msg data hmeta hdata => h.sound msg data hmeta (hdb msg hmeta ▸ hdata), ?_, ?_⟩
  · rw [hshelf]
    exact h.closed
  · rw [hshelf]
    exact h.has

theorem Holds.contains_iff (h : Holds lib db facts) (msg : Bytes) :
    contains db msg = true ↔ facts (.node msg) := by
  rw [← h.has, View.has_node]
  cases hmeta : isMeta msg with
  | true => simp [contains, hmeta, shelf_eq_some, getTimestamp_meta hmeta]
  | false =>
      obtain ⟨r, hdata, hget⟩ | ⟨hdata, hget⟩ := h.sound.cases hmeta
      · simp [contains, hmeta, hdata, shelf_eq_some, hget]
      · simp [contains, hmeta, hdata, shelf_eq_some, hget]

/-! ## One batch -/

theorem addEach_ok (hacyclic : Acyclic lib facts) (hsound : Sound lib db)
    (hmeta : ∀ m, facts (.node m) → isMeta m = false) (ts : List (Timestamp Op Att))
    {P : Bytes → Prop} {b : Batch lib} (hmade : ∀ t ∈ ts, t.Made lib)
    (hfacts : ∀ f, Said ts f → facts f) (hP : ∀ m, Said ts (.node m) → P m) (hfine : b.Fine db P) :
    ∃ b', addEach db ts b = .ok b' ∧ b'.Fine db P ∧
      ∀ f, (b'.view db).Has f ↔ (b.view db).Has f ∨ Said ts f := by
  induction ts generalizing b with
  | nil => exact ⟨b, rfl, hfine, fun f => ⟨.inl, fun h => h.elim id fun ⟨_, h, _⟩ => nomatch h⟩⟩
  | cons t ts ih =>
      have hhead : ∀ f, t.Has f → Said (t :: ts) f := fun f hf => ⟨t, List.mem_cons_self .., hf⟩
      have htail : ∀ f, Said ts f → Said (t :: ts) f := fun f ⟨u, hu, hf⟩ =>
        ⟨u, List.mem_cons_of_mem _ hu, hf⟩
      obtain ⟨b₁, hadd, hmerged, hfine₁⟩ := addTimestamp_ok hacyclic hsound hmeta t
        (hmade t (List.mem_cons_self ..)) (fun f hf => hfacts f (hhead f hf))
          (fun m hm => hP m (hhead _ hm)) hfine
      obtain ⟨b', heach, hfine', hhas⟩ := ih (fun u hu => hmade u (List.mem_cons_of_mem _ hu))
        (fun f hf => hfacts f (htail f hf)) (fun m hm => hP m (htail _ hm)) hfine₁
      refine ⟨b', ?_, hfine', fun f => ?_⟩
      · rw [addEach, hadd]
        exact heach
      · rw [hhas, hmerged.has, or_assoc]
        simp only [Said, List.mem_cons, exists_eq_or_imp]

/-- A written batch leaves the records it said. -/
theorem Batch.Tracked.shelf_write {b : Batch lib} (h : b.Tracked db fun m => isMeta m = false)
    {msg : Bytes} (hmeta : isMeta msg = false) :
    shelf lib (db.write b.puts) msg = b.view db msg := by
  have hput := h msg hmeta
  rw [view]
  cases hcache : b.cache msg with
  | some r =>
      rw [hcache] at hput
      exact shelf_eq_some.mpr (getTimestamp_serialize hmeta hput)
  | none =>
      rw [hcache] at hput
      exact congrArg Except.toOption (getTimestamp_congr fun _ => hput)

/-- A written batch adds to what the database holds. -/
theorem Holds.write (h : Holds lib db facts) {b : Batch lib}
    (hfine : b.Fine db fun m => isMeta m = false) (hhas : ∀ f, (b.view db).Has f ↔ facts f ∨ more f)
    (hmeta : ∀ f, more f → isMeta f.msg = false) :
    Holds lib (db.write b.puts) fun f => facts f ∨ more f := by
  have hfacts : ∀ f, (shelf lib (db.write b.puts)).Has f ↔ facts f ∨ more f := by
    intro f
    cases hf : isMeta f.msg with
    | true =>
        refine ⟨fun hhas => absurd hhas (not_has_meta hf), fun hor => ?_⟩
        obtain hfact | hfact := hor
        · exact absurd ((h.has f).mpr hfact) (not_has_meta hf)
        · exact absurd ((hmeta f hfact).symm.trans hf) Bool.false_ne_true
    | false =>
        rw [← hhas, View.Has, View.Has, hfine.tracked.shelf_write hf]
  refine ⟨fun msg data hmsg hdata => ?_, fun m op _ hop => ?_, hfacts⟩
  · rw [hfine.tracked msg hmsg] at hdata
    cases hcache : b.cache msg with
    | some r =>
        rw [hcache] at hdata
        exact ⟨r, (Option.some.inj hdata).symm⟩
    | none =>
        rw [hcache] at hdata
        exact h.sound msg data hmsg hdata
  · have hm : isMeta m = false := by
      cases hm : isMeta m with
      | false => rfl
      | true => exact absurd hop (not_has_meta hm)
    obtain ⟨m', hcall, hnode⟩ := hfine.closed m op hm ((hhas _).mpr ((hfacts _).mp hop))
    exact ⟨m', hcall, (hfacts _).mpr ((hhas _).mp hnode)⟩

/-- `add_timestamps` adds the facts of the batch's timestamps. -/
theorem addTimestamps_ok {all : Fact Op Att → Prop} (hacyclic : Acyclic lib all)
    (hmeta : ∀ m, all (.node m) → isMeta m = false) {cal : Calendar} (h : Holds lib cal.db facts)
    {new : List (Timestamp Op Att)} (hmade : ∀ t ∈ new, t.Made lib) (hnew : ∀ f, Said new f → all f)
    (watermark : Option Nat) :
    ∃ cal', addTimestamps lib cal new watermark = .ok cal' ∧
      Holds lib cal'.db fun f => facts f ∨ Said new f := by
  have hnode : ∀ f, Said new f → isMeta f.msg = false := fun f ⟨t, ht, hf⟩ =>
    hmeta _ (hnew _ ⟨t, ht, hf.node⟩)
  have hempty : (Batch.empty : Batch lib).Fine cal.db fun m => isMeta m = false :=
    ⟨fun m op _ hop => h.closed m op trivial hop, fun _ _ => rfl⟩
  obtain ⟨b, heach, hfine, hhas⟩ := addEach_ok hacyclic h.sound hmeta new hmade hnew
    (fun m hm => hnode _ hm) hempty
  have hwritten := h.write hfine (fun f => (hhas f).trans (or_congr_left (h.has f))) hnode
  cases watermark with
  | none => exact ⟨_, by rw [addTimestamps, heach], hwritten⟩
  | some n =>
      refine ⟨_, by rw [addTimestamps, heach], hwritten.congr fun msg hmsg => ?_⟩
      rw [Db.write_append]
      exact Function.update_of_ne (fun heq => absurd (heq ▸ hmsg) (by decide)) ..

/-! ## All batches -/

theorem addBatches_ok {all : Fact Op Att → Prop} (hacyclic : Acyclic lib all)
    (hmeta : ∀ m, all (.node m) → isMeta m = false)
    (batches : List (List (Timestamp Op Att) × Option Nat)) {facts : Fact Op Att → Prop}
    {cal : Calendar} (h : Holds lib cal.db facts) (hmade : ∀ t ∈ added batches, t.Made lib)
    (hadded : ∀ f, Said (added batches) f → all f) :
    ∃ cal', addBatches lib cal batches = .ok cal' ∧
      Holds lib cal'.db fun f => facts f ∨ Said (added batches) f := by
  induction batches generalizing facts cal with
  | nil =>
      refine ⟨cal, rfl, ?_⟩
      have heq : (fun f => facts f ∨ Said (added []) f) = facts := by
        funext f
        exact propext ⟨fun hor => hor.elim id fun ⟨_, hmem, _⟩ => (nomatch hmem), .inl⟩
      rw [heq]
      exact h
  | cons batch batches ih =>
      obtain ⟨new, watermark⟩ := batch
      have hmem : ∀ t, t ∈ added ((new, watermark) :: batches) ↔ t ∈ new ∨ t ∈ added batches :=
        fun t => by rw [added, List.flatMap_cons, List.mem_append]; rfl
      obtain ⟨cal₁, hnew, hholds⟩ := addTimestamps_ok hacyclic hmeta h
        (fun t ht => hmade t ((hmem t).mpr (.inl ht)))
        (fun f ⟨t, ht, hf⟩ => hadded f ⟨t, (hmem t).mpr (.inl ht), hf⟩) watermark
      obtain ⟨cal', hrest, hholds'⟩ := ih hholds (fun t ht => hmade t ((hmem t).mpr (.inr ht)))
        (fun f ⟨t, ht, hf⟩ => hadded f ⟨t, (hmem t).mpr (.inr ht), hf⟩)
      refine ⟨cal', ?_, ?_⟩
      · rw [addBatches, hnew]
        exact hrest
      · have heq : (fun f => facts f ∨ Said (added ((new, watermark) :: batches)) f) =
            fun f => (facts f ∨ Said new f) ∨ Said (added batches) f := by
          funext f
          simp only [Said, hmem, or_and_right, exists_or, or_assoc]
        rw [heq]
        exact hholds'

theorem holds_create (generation : Bytes) : Holds lib (create generation).db fun _ => False := by
  have hnone : ∀ msg, isMeta msg = false → (create generation).db msg = none := by
    intro msg hmsg
    have hne : ∀ key, isMeta key = true → msg ≠ key := fun key hkey heq =>
      Bool.false_ne_true (hmsg.symm.trans (heq ▸ hkey))
    change Function.update (Function.update (fun _ => none : Db) metaGeneration _)
      metaWatermark _ msg = none
    rw [Function.update_of_ne (hne _ (by decide)), Function.update_of_ne (hne _ (by decide))]
  have hget : ∀ msg, getTimestamp lib (create generation).db msg = .error (.keyError msg) := by
    intro msg
    cases hmsg : isMeta msg with
    | true => exact getTimestamp_meta hmsg
    | false => exact getTimestamp_none (hnone msg hmsg)
  have hshelf : ∀ f, ¬ (shelf lib (create generation).db).Has f := by
    rintro f ⟨r, hr, _⟩
    rw [shelf_eq_some, hget] at hr
    exact nomatch hr
  refine ⟨fun msg data hmsg hdata => ?_, fun m op _ hop => absurd hop (hshelf _),
    fun f => iff_of_false (hshelf f) id⟩
  exact nomatch (hnone msg hmsg).symm.trans hdata

/-- The record of a message is the union of what these timestamps attach to it. -/
def UnionAt (lib : Lib Op Att) (db : Db) (ts : List (Timestamp Op Att)) (msg : Bytes) : Prop :=
  (contains db msg = true ↔ Said ts (.node msg)) ∧
    (contains db msg = true → ∃ r, getTimestamp lib db msg = .ok r ∧
      (∀ a, a ∈ r.attestations ↔ Said ts (.attestation msg a)) ∧ ∀ op, op ∈ r.ops ↔
        Said ts (.op msg op))

theorem Holds.unionAt {ts : List (Timestamp Op Att)} (h : Holds lib db (Said ts)) (msg : Bytes) :
    UnionAt lib db ts msg := by
  refine ⟨h.contains_iff msg, fun hcontains => ?_⟩
  obtain ⟨r, hr⟩ := View.has_node.mp ((h.has _).mpr ((h.contains_iff msg).mp hcontains))
  have hhas : ∀ f : Fact Op Att, f.msg = msg → (Said ts f ↔ (shelf lib db).Has f) :=
    fun f _ => (h.has f).symm
  refine ⟨r, shelf_eq_some.mp hr, fun a => ?_, fun op => ?_⟩
  · rw [hhas (.attestation msg a) rfl]
    exact ⟨fun ha => ⟨r, hr, ha⟩, fun ⟨r', hr', ha⟩ => Option.some.inj (hr'.symm.trans hr) ▸ ha⟩
  · rw [hhas (.op msg op) rfl]
    exact ⟨fun hop => ⟨r, hr, hop⟩, fun ⟨r', hr', hop⟩ => Option.some.inj (hr'.symm.trans hr) ▸ hop⟩

/-- Nothing is lost: every record is the union of what these timestamps attach to its message; the
results of stored operations are stored; and a stored message is read back as the tree of its
records, with every path and attestation of every timestamp of the message. -/
def KeepsAll (lib : Lib Op Att) (db : Db) (ts : List (Timestamp Op Att)) : Prop :=
  (∀ msg, UnionAt lib db ts msg) ∧
    (∀ msg r, getTimestamp lib db msg = .ok r →
      ∀ op ∈ r.ops, ∃ result, lib.call op msg = some result ∧ contains db result = true) ∧
    ∀ msg, contains db msg = true →
      ∃ t depth, (∀ d ≥ depth, getItem lib db d msg = .ok t) ∧ t.msg = msg ∧ t.Unfolds lib db ∧
        ∀ u ∈ ts, u.msg = msg → u.Within t

/-- After any batches, from a database created just now, the store has lost nothing of what was
added, when no message begins like the database's own keys and none leads back to itself. -/
theorem store_loses_nothing (lib : Lib Op Att) (generation : Bytes)
    (batches : List (List (Timestamp Op Att) × Option Nat))
    (hmade : ∀ t ∈ added batches, t.Made lib)
    (hmeta : ∀ m, Said (added batches) (.node m) → isMeta m = false)
    (hacyclic : Acyclic lib (Said (added batches))) :
    ∃ cal, addBatches lib (create generation) batches = .ok cal ∧
      KeepsAll lib cal.db (added batches) := by
  have hcreate : Holds lib (create generation).db fun _ => False := holds_create generation
  obtain ⟨cal, hadd, hholds⟩ := addBatches_ok hacyclic hmeta batches hcreate hmade fun _ hf => hf
  have heq : (fun f => False ∨ Said (added batches) f) = Said (added batches) := by
    funext f
    exact false_or _
  rw [heq] at hholds
  have hfinite : Set.Finite {m | Said (added batches) (.node m)} := by
    have hunion := (List.finite_toSet (added batches)).biUnion fun t _ => t.finite_nodes
    exact hunion.subset fun m ⟨t, ht, hm⟩ => Set.mem_biUnion ht hm
  have hends : WellFounded (flip (Leads lib (Said (added batches)))) := by
    refine wellFounded_of_acyclic hfinite (fun m m' ⟨op, ⟨t, ht, hop⟩, hcall⟩ => ?_) hacyclic
    obtain ⟨m'', hcall', hnode⟩ := (hmade t ht).closed hop
    obtain rfl := Option.some.inj (hcall.symm.trans hcall')
    exact ⟨⟨t, ht, hop.node⟩, t, ht, hnode⟩
  refine ⟨cal, hadd, hholds.unionAt, fun msg r hget op hop => ?_, fun msg hmsg => ?_⟩
  · obtain ⟨result, hcall, hnode⟩ := hholds.closed msg op trivial ⟨r, shelf_eq_some.mpr hget, hop⟩
    exact ⟨result, hcall, (hholds.contains_iff result).mpr ((hholds.has _).mp hnode)⟩
  · obtain ⟨t, depth, hread, hroot, hunfolds⟩ :=
      getItem_ok hholds hends msg ((hholds.contains_iff msg).mp hmsg)
    refine ⟨t, depth, hread, hroot, hunfolds, fun u hu humsg => ?_⟩
    exact within_of_unfolds hholds (hmade u hu) (fun f hf => ⟨u, hu, hf⟩)
      (hroot.trans humsg.symm) hunfolds

end

/-- Operations that make messages longer lead no message back to itself. -/
theorem acyclic_of_longer {Op Att : Type} {lib : Lib Op Att} {facts : Fact Op Att → Prop}
    (h : ∀ m op m', facts (.op m op) → lib.call op m = some m' → m.length < m'.length) :
    Acyclic lib facts := by
  intro m hcycle
  have hlength : ∀ m', Relation.TransGen (Leads lib facts) m m' → m.length < m'.length := by
    intro m' hleads
    induction hleads with
    | single hstep =>
        obtain ⟨op, hop, hcall⟩ := hstep
        exact h _ op _ hop hcall
    | tail _ hstep ih =>
        obtain ⟨op, hop, hcall⟩ := hstep
        exact ih.trans (h _ op _ hop hcall)
  exact (hlength m hcycle).false

namespace Shared

open Plain

/-- Three timestamps that meet in the messages `ab` and `abc`, the last one in a batch of its
own. -/
def batches : List (List (Timestamp Plain.Op Nat) × Option Nat) :=
  [([.mk [0x61] [] (.cons (.append [0x62]) (.mk [0x61, 0x62] [1]
          (.cons (.append [0x63]) (.mk [0x61, 0x62, 0x63] [] .nil) .nil)) .nil),
        .mk [0x62] [] (.cons (.prepend [0x61]) (.mk [0x61, 0x62] [2] .nil) .nil)], some 1),
    ([.mk [0x61, 0x62] [2] (.cons (.append [0x63]) (.mk [0x61, 0x62, 0x63] [3] .nil) .nil)], none)]

theorem has_iff (f : Fact Plain.Op Nat) :
    Said (added batches) f ↔ f ∈ ([.node [0x61], .op [0x61] (.append [0x62]), .node [0x61, 0x62],
      .attestation [0x61, 0x62] 1, .op [0x61, 0x62] (.append [0x63]), .node [0x61, 0x62, 0x63],
        .node [0x62], .op [0x62] (.prepend [0x61]), .attestation [0x61, 0x62] 2,
        .attestation [0x61, 0x62, 0x63] 3] : List (Fact Plain.Op Nat)) := by
  simp only [Said, added, batches, List.flatMap_cons, List.flatMap_nil, List.append_nil,
    List.cons_append, List.nil_append, List.mem_cons, List.not_mem_nil, or_false,
    exists_eq_or_imp, exists_eq_left, Timestamp.Has, Ops.Has, false_and, exists_false, false_or]
  grind

theorem kept :
    ∃ cal, addBatches lib (create []) batches = .ok cal ∧ KeepsAll lib cal.db (added batches) := by
  refine store_loses_nothing lib [] batches ?_ (fun m hm => ?_)
    (acyclic_of_longer fun m op m' hop hcall => ?_)
  · simp [added, batches, Timestamp.Made, Ops.Made, lib, call, Timestamp.msg]
  · have hm := (has_iff _).mp hm
    simp only [List.mem_cons, Fact.node.injEq, List.not_mem_nil, or_false, reduceCtorEq,
      false_or] at hm
    obtain rfl | rfl | rfl | rfl := hm <;> rfl
  · have hop := (has_iff _).mp hop
    simp only [List.mem_cons, Fact.op.injEq, List.not_mem_nil, or_false, reduceCtorEq,
      false_or] at hop
    obtain ⟨rfl, rfl⟩ | ⟨rfl, rfl⟩ | ⟨rfl, rfl⟩ := hop
    all_goals
      obtain rfl := Option.some.inj hcall
      decide

end Shared

namespace Lost

open Plain

/-- An operation whose result begins like the database's own keys. -/
def underMeta : Timestamp Plain.Op Nat :=
  .mk [0x78] [] (.cons (.prepend metaPrefix) (.mk (metaPrefix ++ [0x78]) [] .nil) .nil)

/-- Two timestamps, neither of which leads back to its message. -/
def forth : Timestamp Plain.Op Nat :=
  .mk [0x61, 0x62] [] (.cons .reverse (.mk [0x62, 0x61] [] .nil) .nil)
def back : Timestamp Plain.Op Nat :=
  .mk [0x62, 0x61] [] (.cons .reverse (.mk [0x61, 0x62] [] .nil) .nil)

/-- What the database holds of a message: whether it is there, and the operations of its record. -/
def seen (msg : Bytes) (cal : Calendar) : Bool × Option (List Plain.Op) :=
  (contains cal.db msg, (getTimestamp lib cal.db msg).toOption.map Shallow.ops)

theorem getItem_error {db : Db} {msg result : Bytes} {op : Plain.Op} {depth : Nat} {e : Exc}
    (hops : (getTimestamp lib db msg).toOption.map Shallow.ops = some [op])
    (hcall : lib.call op msg = some result) (h : getItem lib db depth result = .error e) :
    getItem lib db (depth + 1) msg = .error e := by
  rw [getItem]
  cases hget : getTimestamp lib db msg with
  | error e => rw [hget] at hops; cases hops
  | ok r =>
      rw [hget] at hops
      have hops : r.ops = [op] := Option.some.inj hops
      simp only [hops, getResults, hcall, h]

/-- A stored message that is not read back, at any depth, is lost. -/
theorem not_keepsAll {db : Db} {msg : Bytes}
    {ts : List (Timestamp Plain.Op Nat)} (hmsg : contains db msg = true)
    (h : ∀ depth, ∃ d ≥ depth, ∃ e, getItem lib db d msg = .error e) : ¬ KeepsAll lib db ts := by
  rintro ⟨_, _, hread⟩
  obtain ⟨t, depth, hread, _⟩ := hread msg hmsg
  obtain ⟨d, hd, e, herror⟩ := h depth
  exact nomatch (hread d hd).symm.trans herror

theorem acyclic_single {msg result : Bytes} {op : Plain.Op} (hcall : lib.call op msg = some result)
    (hne : msg ≠ result) :
    Acyclic lib (Timestamp.mk msg [] (.cons op (.mk result [] .nil) .nil)).Has := by
  have hleads : ∀ m m',
      Leads lib (Timestamp.mk msg [] (.cons op (.mk result [] .nil) .nil)).Has m m' →
      m = msg ∧ m' = result := by
    rintro m m' ⟨op', hop, hcall'⟩
    simp only [Timestamp.Has, Ops.Has, List.not_mem_nil, false_and, exists_false,
      reduceCtorEq, or_false, false_or] at hop
    obtain ⟨rfl, rfl⟩ := Fact.op.inj hop
    exact ⟨rfl, Option.some.inj (hcall'.symm.trans hcall)⟩
  intro m hcycle
  obtain ⟨m', hstep, hrest⟩ := Relation.TransGen.head'_iff.mp hcycle
  obtain ⟨rfl, rfl⟩ := hleads m m' hstep
  obtain heq | ⟨_, hnext, _⟩ := Relation.ReflTransGen.cases_head hrest
  · exact hne heq.symm
  · exact hne (hleads _ _ hnext).1.symm

theorem exists_of_map {α β : Type} {f : α → β} {e : Except Exc α} {y : β}
    (h : e.toOption.map f = some y) : ∃ x, e = .ok x ∧ f x = y := by
  cases e with
  | error => exact nomatch h
  | ok x => exact ⟨x, rfl, Option.some.inj h⟩

/-- A timestamp without a cycle is lost when a result begins like the database's own keys: its
record is written, and never found again. Two timestamps without cycles are lost together when
one leads back to the other: reading either does not end. -/
theorem timestamps_may_be_lost :
    (underMeta.Made lib ∧ Acyclic lib underMeta.Has ∧ ∃ cal, addBatches lib
        (create []) [([underMeta], none)] = .ok cal ∧ ¬ KeepsAll lib cal.db [underMeta]) ∧
    forth.Made lib ∧ back.Made lib ∧ Acyclic lib forth.Has ∧ Acyclic lib back.Has ∧
      ∃ cal, addBatches lib (create []) [([forth], none), ([back], none)] = .ok cal ∧
        ¬ KeepsAll lib cal.db [forth, back] := by
  refine ⟨⟨⟨by decide, trivial, trivial⟩, acyclic_single rfl (by decide), ?_⟩,
    ⟨by decide, trivial, trivial⟩, ⟨by decide, trivial, trivial⟩, acyclic_single rfl (by decide),
    acyclic_single rfl (by decide), ?_⟩
  · obtain ⟨cal, hadd, hseen⟩ :=
      exists_of_map (f := fun cal => (seen [0x78] cal, seen (metaPrefix ++ [0x78]) cal))
      (e := addBatches lib (create []) [([underMeta], none)])
      (y := ((true, some [.prepend metaPrefix]), false, none)) (by decide +kernel)
    obtain ⟨hx, hmeta⟩ := Prod.mk.inj hseen
    obtain ⟨hcontains, hops⟩ := Prod.mk.inj hx
    refine ⟨cal, hadd, not_keepsAll hcontains fun depth => ⟨depth + 2, Nat.le_add_right ..,
      .keyError (metaPrefix ++ [0x78]), getItem_error hops rfl ?_⟩⟩
    rw [getItem, getTimestamp_meta (by decide)]
  · obtain ⟨cal, hadd, hseen⟩ :=
      exists_of_map (f := fun cal => (seen [0x61, 0x62] cal, seen [0x62, 0x61] cal))
      (e := addBatches lib (create []) [([forth], none), ([back], none)])
      (y := ((true, some [.reverse]), true, some [.reverse])) (by decide +kernel)
    obtain ⟨hforth, hback⟩ := Prod.mk.inj hseen
    obtain ⟨hcontains, hforth⟩ := Prod.mk.inj hforth
    obtain ⟨_, hback⟩ := Prod.mk.inj hback
    have hendless : ∀ depth, getItem lib cal.db depth [0x61, 0x62] = .error .recursionError ∧
        getItem lib cal.db depth [0x62, 0x61] = .error .recursionError := by
      intro depth
      induction depth with
      | zero => exact ⟨rfl, rfl⟩
      | succ depth ih => exact ⟨getItem_error hforth rfl ih.2, getItem_error hback rfl ih.1⟩
    exact ⟨cal, hadd, not_keepsAll hcontains fun depth => ⟨depth, le_refl _, _, (hendless depth).1⟩⟩

end Lost

end OtsServer.LevelDb
