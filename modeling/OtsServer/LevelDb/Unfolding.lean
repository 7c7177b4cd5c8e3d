import OtsServer.LevelDb.Merge
import Mathlib.Order.WellFoundedSet

/-!
# Reading the store back

A database that holds the facts of some timestamps is read back by following the operations
from record to record. When no message leads back to itself this ends, because the messages
are finitely many, and the result has every path and attestation of every timestamp added.
-/

namespace OtsServer.LevelDb

variable {Op Att : Type}

/-- Following a relation with a finite field and without cycles ends. -/
theorem wellFounded_of_acyclic {α : Type*} {r : α → α → Prop} {s : Set α} (hfinite : s.Finite)
    (hfield : ∀ a b, r a b → a ∈ s ∧ b ∈ s) (hacyclic : ∀ a, ¬ Relation.TransGen r a a) :
    WellFounded (flip r) := by
  have horder : IsStrictOrder α (flip (Relation.TransGen r)) :=
    { irrefl := hacyclic
      trans := fun _ _ _ hab hbc => hbc.trans hab }
  refine Subrelation.wf (fun {a b} h => ?_)
    (Set.wellFoundedOn_iff.mp (hfinite.wellFoundedOn (r := flip (Relation.TransGen r))))
  exact ⟨.single h, (hfield b a h).2, (hfield b a h).1⟩

mutual

theorem Timestamp.finite_nodes :
    ∀ t : Timestamp Op Att, Set.Finite {m | t.Has (.node m)}
  | .mk msg attestations ops => by
      refine ((Set.finite_singleton msg).union (Ops.finite_nodes msg ops)).subset fun m hm => ?_
      obtain h | ⟨a, _, h⟩ | h := hm
      · exact .inl (Fact.node.inj h)
      · exact nomatch h
      · exact .inr h

theorem Ops.finite_nodes (msg : Bytes) :
    ∀ ops : Ops Op Att, Set.Finite {m | ops.Has msg (.node m)}
  | .nil => Set.finite_empty
  | .cons op result rest => by
      refine ((Timestamp.finite_nodes result).union (Ops.finite_nodes msg rest)).subset
        fun m hm => ?_
      obtain h | h | h := hm
      · exact nomatch h
      · exact .inl h
      · exact .inr h

end

/-! ## Paths -/

/-- The result of an operation. -/
def Ops.get [DecidableEq Op] (op : Op) : Ops Op Att → Option (Timestamp Op Att)
  | .nil => none
  | .cons op' result rest => if op' = op then some result else rest.get op

/-- The node of a timestamp at the end of a path. -/
def Timestamp.at [DecidableEq Op] : Timestamp Op Att → List Op → Option (Timestamp Op Att)
  | t, [] => some t
  | t, op :: path => (t.ops.get op).bind fun result => result.at path

/-- Every path of the one timestamp is a path of the other, to a node of the same message with
the same attestations or more. -/
def Timestamp.Within [DecidableEq Op] (u t : Timestamp Op Att) : Prop :=
  ∀ path n, u.at path = some n →
    ∃ n', t.at path = some n' ∧ n'.msg = n.msg ∧ ∀ a ∈ n.attestations, a ∈ n'.attestations

theorem Ops.get_has [DecidableEq Op] {lib : Lib Op Att} {msg : Bytes} {op : Op}
    {result : Timestamp Op Att} :
    ∀ {ops : Ops Op Att}, ops.Made lib msg → ops.get op = some result →
      lib.call op msg = some result.msg ∧ result.Made lib ∧ ops.Has msg (.op msg op) ∧
        ∀ f, result.Has f → ops.Has msg f
  | .cons op' result' rest, hmade, h => by
      obtain ⟨hcall, hresult, hrest⟩ := hmade
      rw [get] at h
      split_ifs at h with heq
      · subst heq
        obtain rfl := Option.some.inj h
        exact ⟨hcall, hresult, .inl rfl, fun f hf => .inr (.inl hf)⟩
      · obtain ⟨hcall, hresult, hop, hhas⟩ := get_has hrest h
        exact ⟨hcall, hresult, .inr (.inr hop), fun f hf => .inr (.inr (hhas f hf))⟩

theorem Timestamp.has_attestation {t : Timestamp Op Att} {a : Att} (h : a ∈ t.attestations) :
    t.Has (.attestation t.msg a) := by
  cases t
  exact .inr (.inl ⟨a, h, rfl⟩)

theorem Timestamp.has_ops {t : Timestamp Op Att} {f : Fact Op Att} (h : t.ops.Has t.msg f) :
    t.Has f := by
  cases t
  exact .inr (.inr h)

theorem Timestamp.made_ops {lib : Lib Op Att} {t : Timestamp Op Att} (h : t.Made lib) :
    t.ops.Made lib t.msg := by
  cases t
  exact h

/-! ## The tree of a message -/

variable [DecidableEq Op] [DecidableEq Att]

mutual

/-- A tree that has the record of its message at each of its nodes. -/
def Timestamp.Unfolds (lib : Lib Op Att) (db : Db) : Timestamp Op Att → Prop
  | .mk msg attestations ops =>
      (∃ r, getTimestamp lib db msg = .ok r ∧ attestations = r.attestations ∧ ops.keys = r.ops) ∧
        ops.Unfold lib db msg

def Ops.Unfold (lib : Lib Op Att) (db : Db) (msg : Bytes) : Ops Op Att → Prop
  | .nil => True
  | .cons op result rest =>
      lib.call op msg = some result.msg ∧ result.Unfolds lib db ∧ rest.Unfold lib db msg

end

/-- The database holds the records of exactly these facts. -/
structure Holds (lib : Lib Op Att) (db : Db) (facts : Fact Op Att → Prop) : Prop where
  sound : Sound lib db
  closed : ClosedOn (fun _ => True) (shelf lib db)
  has : ∀ f, (shelf lib db).Has f ↔ facts f

variable {lib : Lib Op Att} {db : Db} {facts : Fact Op Att → Prop}

theorem shelf_eq_some {msg : Bytes} {r : Shallow lib msg} :
    shelf lib db msg = some r ↔ getTimestamp lib db msg = .ok r := by
  rw [shelf]
  cases getTimestamp lib db msg with
  | error e => exact ⟨(fun h => nomatch h), (fun h => nomatch h)⟩
  | ok r' => simp [Except.toOption]

theorem Ops.get_unfold {msg : Bytes} {op : Op} :
    ∀ {ops : Ops Op Att}, ops.Unfold lib db msg → op ∈ ops.keys →
      ∃ result, ops.get op = some result ∧ lib.call op msg = some result.msg ∧ result.Unfolds lib db
  | .cons op' result rest, hunfold, hmem => by
      obtain ⟨hcall, hresult, hrest⟩ := hunfold
      by_cases heq : op' = op
      · subst heq
        exact ⟨result, if_pos rfl, hcall, hresult⟩
      · obtain ⟨result', hget, h⟩ := get_unfold hrest
          ((List.mem_cons.mp hmem).resolve_left (Ne.symm heq))
        exact ⟨result', (if_neg heq).trans hget, h⟩

/-- The loop over the operations of a record, once every result can be read. -/
theorem getResults_ok {msg : Bytes} (ops : List Op)
    (h : ∀ op ∈ ops, ∃ result, lib.call op msg = some result ∧ ∃ t depth,
      (∀ d ≥ depth, getItem lib db d result = .ok t) ∧ t.msg = result ∧ t.Unfolds lib db) :
    ∃ results depth, (∀ d ≥ depth, getResults lib (getItem lib db d) msg ops = .ok results) ∧
      results.keys = ops ∧ results.Unfold lib db msg := by
  induction ops with
  | nil => exact ⟨.nil, 0, fun _ _ => rfl, rfl, trivial⟩
  | cons op ops ih =>
      obtain ⟨results, depth, hread, hkeys, hunfold⟩ := ih fun o ho =>
        h o (List.mem_cons_of_mem _ ho)
      obtain ⟨result, hcall, t, depth', hread', rfl, ht⟩ := h op (List.mem_cons_self ..)
      refine ⟨.cons op t results, max depth depth', fun d hd => ?_, ?_, hcall, ht, hunfold⟩
      · rw [getResults, hcall]
        dsimp only
        rw [hread' d (le_trans (le_max_right ..) hd)]
        dsimp only
        rw [hread d (le_trans (le_max_left ..) hd)]
      · rw [Ops.keys, hkeys]

/-- Every stored message is read back whole. -/
theorem getItem_ok (h : Holds lib db facts) (hends : WellFounded (flip (Leads lib facts)))
    (msg : Bytes) (hmsg : facts (.node msg)) :
    ∃ t depth, (∀ d ≥ depth, getItem lib db d msg = .ok t) ∧ t.msg = msg ∧ t.Unfolds lib db := by
  induction msg using hends.induction with
  | _ msg ih =>
      obtain ⟨r, hr⟩ := View.has_node.mp ((h.has _).mpr hmsg)
      have hget := shelf_eq_some.mp hr
      have hresults : ∃ results depth,
          (∀ d ≥ depth, getResults lib (getItem lib db d) msg r.ops = .ok results) ∧
          results.keys = r.ops ∧ results.Unfold lib db msg :=
        getResults_ok r.ops fun op hop => by
          obtain ⟨result, hcall, hnode⟩ := h.closed msg op trivial ⟨r, hr, hop⟩
          have hleads : Leads lib facts msg result := ⟨op, (h.has _).mp ⟨r, hr, hop⟩, hcall⟩
          exact ⟨result, hcall, ih result hleads ((h.has _).mp hnode)⟩
      obtain ⟨results, depth, hread, hkeys, hunfold⟩ := hresults
      refine ⟨.mk msg r.attestations results, depth + 1, fun d hd => ?_, rfl,
        ⟨r, hget, rfl, hkeys⟩, hunfold⟩
      obtain ⟨d, rfl⟩ := Nat.exists_eq_add_of_le' hd
      rw [← Nat.add_assoc, getItem, hget]
      dsimp only
      rw [hread (d + depth) (Nat.le_add_left ..)]

/-- A tree of records has in it every timestamp of its message that was added. -/
theorem within_of_unfolds (h : Holds lib db facts) {u t : Timestamp Op Att} (hmade : u.Made lib)
    (hfacts : ∀ f, u.Has f → facts f) (hmsg : t.msg = u.msg) (hunfolds : t.Unfolds lib db) :
    u.Within t := by
  intro path
  induction path generalizing u t with
  | nil =>
      intro n hn
      obtain rfl := Option.some.inj hn
      refine ⟨t, rfl, hmsg, fun a ha => ?_⟩
      obtain ⟨r, hr, hmem⟩ := (h.has _).mpr (hfacts _ (Timestamp.has_attestation ha))
      obtain ⟨msg, attestations, ops⟩ := t
      obtain ⟨⟨r', hget, rfl, _⟩, _⟩ := hunfolds
      obtain rfl : msg = u.msg := hmsg
      obtain rfl := Except.ok.inj (hget.symm.trans (shelf_eq_some.mp hr))
      exact hmem
  | cons op path ih =>
      intro n hn
      obtain ⟨result, hget, hn⟩ := Option.bind_eq_some_iff.mp hn
      obtain ⟨hcall, hresult, hop, hhas⟩ := Ops.get_has (Timestamp.made_ops hmade) hget
      obtain ⟨r, hr, hmem⟩ := (h.has _).mpr (hfacts _ (Timestamp.has_ops hop))
      obtain ⟨msg, attestations, ops⟩ := t
      obtain ⟨⟨r', hget', _, hkeys⟩, hunfold⟩ := hunfolds
      obtain rfl : msg = u.msg := hmsg
      obtain rfl := Except.ok.inj (hget'.symm.trans (shelf_eq_some.mp hr))
      obtain ⟨result', hgot, hcall', hunfolds'⟩ :=
        Ops.get_unfold hunfold (by rw [hkeys]; exact hmem)
      have heq : result'.msg = result.msg := Option.some.inj (hcall'.symm.trans hcall)
      obtain ⟨n', hn', h'⟩ :=
        ih hresult (fun f hf => hfacts f (Timestamp.has_ops (hhas f hf))) heq hunfolds' n hn
      refine ⟨n', ?_, h'⟩
      change (ops.get op).bind _ = _
      rw [hgot]
      exact hn'

end OtsServer.LevelDb
