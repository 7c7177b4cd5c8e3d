import OtsServer.LevelDb.Store
import Mathlib.Logic.Relation

/-!
# What timestamps and records say

What timestamps say is a set of facts: that a message has a node, and which attestations and
operations it has. A record says what stands in it, and it is read back from its bytes. Both
sides of the store are compared by what they say.
-/

namespace OtsServer.LevelDb

variable {Op Att : Type}

/-! ## Facts -/

/-- One thing that timestamps say. -/
inductive Fact (Op Att : Type)
  | node (msg : Bytes)
  | attestation (msg : Bytes) (a : Att)
  | op (msg : Bytes) (op : Op)

/-- The message a fact is about. -/
def Fact.msg : Fact Op Att → Bytes
  | node msg => msg
  | attestation msg _ => msg
  | op msg _ => msg

mutual

/-- What a timestamp says. -/
def Timestamp.Has : Timestamp Op Att → Fact Op Att → Prop
  | .mk msg attestations ops, f =>
      f = .node msg ∨ (∃ a ∈ attestations, f = .attestation msg a) ∨ ops.Has msg f

/-- What operations on `msg` and their results say. -/
def Ops.Has (msg : Bytes) : Ops Op Att → Fact Op Att → Prop
  | .nil, _ => False
  | .cons op result rest, f => f = .op msg op ∨ result.Has f ∨ rest.Has msg f

end

mutual

/-- Every result is the timestamp of what its operation computes. -/
def Timestamp.Made (lib : Lib Op Att) : Timestamp Op Att → Prop
  | .mk msg _ ops => ops.Made lib msg

def Ops.Made (lib : Lib Op Att) (msg : Bytes) : Ops Op Att → Prop
  | .nil => True
  | .cons op result rest =>
      lib.call op msg = some result.msg ∧ result.Made lib ∧ rest.Made lib msg

end

/-- One message leads to another through an operation among the facts. -/
def Leads (lib : Lib Op Att) (facts : Fact Op Att → Prop) (m m' : Bytes) : Prop :=
  ∃ op, facts (.op m op) ∧ lib.call op m = some m'

/-- No message leads back to itself. -/
def Acyclic (lib : Lib Op Att) (facts : Fact Op Att → Prop) : Prop :=
  ∀ m, ¬ Relation.TransGen (Leads lib facts) m m

theorem Timestamp.has_node (t : Timestamp Op Att) : t.Has (.node t.msg) := by
  cases t
  exact .inl rfl

mutual

/-- A timestamp that says something about a message has a node for it. -/
theorem Timestamp.Has.node {f : Fact Op Att} :
    ∀ {t : Timestamp Op Att}, t.Has f → t.Has (.node f.msg)
  | .mk msg attestations ops, h => by
      obtain rfl | ⟨a, _, rfl⟩ | h := h
      · exact .inl rfl
      · exact .inl rfl
      · obtain hmsg | hnode := h.node
        · exact .inl (congrArg Fact.node hmsg)
        · exact .inr (.inr hnode)

theorem Ops.Has.node {msg : Bytes} {f : Fact Op Att} :
    ∀ {ops : Ops Op Att}, ops.Has msg f → f.msg = msg ∨ ops.Has msg (.node f.msg)
  | .cons op result rest, h => by
      obtain rfl | h | h := h
      · exact .inl rfl
      · exact .inr (.inr (.inl h.node))
      · exact h.node.imp_right fun h => .inr (.inr h)

end

mutual

/-- The result of every operation of a timestamp has a node in it. -/
theorem Timestamp.Made.closed {lib : Lib Op Att} {m : Bytes} {op : Op} :
    ∀ {t : Timestamp Op Att}, t.Made lib → t.Has (.op m op) →
      ∃ m', lib.call op m = some m' ∧ t.Has (.node m')
  | .mk msg attestations ops, hmade, h => by
      obtain h | ⟨a, _, h⟩ | h := h
      · exact nomatch h
      · exact nomatch h
      · obtain ⟨m', hcall, hnode⟩ := Ops.Made.closed hmade h
        exact ⟨m', hcall, .inr (.inr hnode)⟩

theorem Ops.Made.closed {lib : Lib Op Att} {msg m : Bytes} {op : Op} :
    ∀ {ops : Ops Op Att}, ops.Made lib msg → ops.Has msg (.op m op) →
      ∃ m', lib.call op m = some m' ∧ ops.Has msg (.node m')
  | .cons op result rest, hmade, h => by
      obtain h | h | h := h
      · obtain ⟨rfl, rfl⟩ := Fact.op.inj h
        exact ⟨result.msg, hmade.1, .inr (.inl result.has_node)⟩
      · obtain ⟨m', hcall, hnode⟩ := hmade.2.1.closed h
        exact ⟨m', hcall, .inr (.inl hnode)⟩
      · obtain ⟨m', hcall, hnode⟩ := hmade.2.2.closed h
        exact ⟨m', hcall, .inr (.inr hnode)⟩

end

mutual

/-- A timestamp's own message leads to every message of its nodes. -/
theorem Timestamp.Made.leads {lib : Lib Op Att} {facts : Fact Op Att → Prop} {m : Bytes} :
    ∀ {t : Timestamp Op Att}, t.Made lib → (∀ f, t.Has f → facts f) → t.Has (.node m) →
      Relation.ReflTransGen (Leads lib facts) t.msg m
  | .mk msg attestations ops, hmade, hsub, h => by
      obtain h | ⟨a, _, h⟩ | h := h
      · exact Fact.node.inj h ▸ .refl
      · exact nomatch h
      · exact (Ops.Made.leads hmade (fun f hf => hsub f (.inr (.inr hf))) h).to_reflTransGen

theorem Ops.Made.leads {lib : Lib Op Att} {facts : Fact Op Att → Prop} {msg m : Bytes} :
    ∀ {ops : Ops Op Att}, ops.Made lib msg → (∀ f, ops.Has msg f → facts f) →
      ops.Has msg (.node m) → Relation.TransGen (Leads lib facts) msg m
  | .cons op result rest, hmade, hsub, h => by
      obtain h | h | h := h
      · exact nomatch h
      · have hfirst : Leads lib facts msg result.msg := ⟨op, hsub _ (.inl rfl), hmade.1⟩
        exact .head' hfirst (hmade.2.1.leads (fun f hf => hsub f (.inr (.inl hf))) h)
      · exact hmade.2.2.leads (fun f hf => hsub f (.inr (.inr hf))) h

end

/-! ## Records -/

namespace Shallow

variable {lib : Lib Op Att} {msg : Bytes}

/-- What a record says. -/
def Has (r : Shallow lib msg) : Fact Op Att → Prop
  | .node _ => True
  | .attestation _ a => a ∈ r.attestations
  | .op _ op => op ∈ r.ops

section

variable [DecidableEq Att]

theorem mem_addAttestation (r : Shallow lib msg) (a b : Att) :
    b ∈ (r.addAttestation a).attestations ↔ b ∈ r.attestations ∨ b = a := by
  rw [addAttestation]
  split_ifs with h
  · exact ⟨.inl, fun hb => hb.elim id fun hb => hb ▸ h⟩
  · rw [List.mem_append, List.mem_singleton]

@[simp] theorem addAttestation_ops (r : Shallow lib msg) (a : Att) :
    (r.addAttestation a).ops = r.ops := by
  rw [addAttestation]
  split_ifs <;> rfl

theorem addAttestation_of_notMem {r : Shallow lib msg} {a : Att} (h : a ∉ r.attestations) :
    (r.addAttestation a).attestations = r.attestations ++ [a] := by
  rw [addAttestation, dif_neg h]

theorem mem_update (attestations : List Att) (r : Shallow lib msg) (a : Att) :
    a ∈ (r.update attestations).attestations ↔ a ∈ r.attestations ∨ a ∈ attestations := by
  induction attestations generalizing r with
  | nil => simp [update]
  | cons b bs ih =>
      change a ∈ ((r.addAttestation b).update bs).attestations ↔ _
      rw [ih, mem_addAttestation, List.mem_cons, or_assoc]

@[simp] theorem update_ops (attestations : List Att) (r : Shallow lib msg) :
    (r.update attestations).ops = r.ops := by
  induction attestations generalizing r with
  | nil => rfl
  | cons b bs ih => exact (ih _).trans (r.addAttestation_ops b)

end

section

variable [DecidableEq Op]

/-- Adding an operation that can be applied adds it at the end, if it is new. -/
theorem addOp_ok {op : Op} {result : Bytes} (r : Shallow lib msg)
    (hcall : lib.call op msg = some result) :
    ∃ r', r.addOp op = .ok r' ∧ r'.attestations = r.attestations ∧
      r'.ops = if op ∈ r.ops then r.ops else r.ops ++ [op] := by
  by_cases hmem : op ∈ r.ops
  · exact ⟨r, dif_pos hmem, rfl, (if_pos hmem).symm⟩
  · rw [addOp, dif_neg hmem, if_neg hmem]
    split
    next h => rw [hcall] at h; exact nomatch h
    next => exact ⟨_, rfl, rfl, rfl⟩

theorem addOp_has {op : Op} {result : Bytes} (r : Shallow lib msg)
    (hcall : lib.call op msg = some result) :
    ∃ r', r.addOp op = .ok r' ∧ ∀ f, f.msg = msg → (r'.Has f ↔ r.Has f ∨ f = .op msg op) := by
  obtain ⟨r', hadd, hattestations, hops⟩ := r.addOp_ok hcall
  refine ⟨r', hadd, fun f hf => ?_⟩
  cases f with
  | node m => simp [Has]
  | attestation m a => simp [Has, hattestations]
  | op m o =>
      obtain rfl : m = msg := hf
      simp only [Has, hops, Fact.op.injEq, true_and]
      split_ifs with hmem
      · exact ⟨.inl, fun h => h.elim id fun h => h ▸ hmem⟩
      · simp

end

/-! ## The bytes of a record -/

theorem readAttestations_write [DecidableEq Att] (rest : Bytes) (attestations : List Att)
    (r : Shallow lib msg) (h : (r.attestations ++ attestations).Nodup) :
    ∃ r', readAttestations lib attestations.length r
        (attestations.flatMap lib.writeAttestation ++ rest) = .ok (r', rest) ∧
      r'.attestations = r.attestations ++ attestations ∧ r'.ops = r.ops := by
  induction attestations generalizing r with
  | nil => exact ⟨r, rfl, (List.append_nil _).symm, rfl⟩
  | cons a as ih =>
      have hnew : a ∉ r.attestations := fun hmem =>
        (List.nodup_append.mp h).2.2 a hmem a (List.mem_cons_self ..) rfl
      have hadd := addAttestation_of_notMem hnew
      obtain ⟨r', hread, hattestations, hops⟩ := ih (r.addAttestation a)
        (by rwa [hadd, List.append_assoc])
      refine ⟨r', ?_, ?_, hops.trans (r.addAttestation_ops a)⟩
      · rw [List.length_cons, readAttestations, List.flatMap_cons, List.append_assoc,
          lib.readAttestation_write]
        exact (if_neg hnew).trans hread
      · rw [hattestations, hadd, List.append_assoc]
        rfl

theorem readOps_write [DecidableEq Op] (ops : List Op) (r : Shallow lib msg)
    (h : (r.ops ++ ops).Nodup) (hcalled : ∀ op ∈ ops, ∃ result, lib.call op msg = some result) :
    ∃ r', readOps lib ops.length r (ops.flatMap lib.writeOp) = .ok r' ∧
      r'.attestations = r.attestations ∧ r'.ops = r.ops ++ ops := by
  induction ops generalizing r with
  | nil => exact ⟨r, rfl, rfl, (List.append_nil _).symm⟩
  | cons op ops ih =>
      have hnew : op ∉ r.ops := fun hmem =>
        (List.nodup_append.mp h).2.2 op hmem op (List.mem_cons_self ..) rfl
      obtain ⟨result, hcall⟩ := hcalled op (List.mem_cons_self ..)
      obtain ⟨r₁, hadd, hattestations₁, hops₁⟩ := r.addOp_ok hcall
      rw [if_neg hnew] at hops₁
      obtain ⟨r', hread, hattestations, hops⟩ := ih r₁ (by rwa [hops₁, List.append_assoc])
        fun o ho => hcalled o (List.mem_cons_of_mem _ ho)
      refine ⟨r', ?_, hattestations.trans hattestations₁, ?_⟩
      · rw [List.length_cons, readOps, List.flatMap_cons, lib.readOp_write]
        change (if op ∈ r.ops then _ else _) = _
        rw [if_neg hnew, hadd]
        exact hread
      · rw [hops, hops₁, List.append_assoc]
        rfl

/-- A record is read back from its bytes. -/
theorem deserialize_serialize [DecidableEq Op] [DecidableEq Att] (r : Shallow lib msg) :
    deserialize lib msg r.serialize = .ok r := by
  obtain ⟨r₁, hread₁, hattestations₁, hops₁⟩ := readAttestations_write
    (lib.writeVaruint r.ops.length ++ r.ops.flatMap lib.writeOp) r.attestations (empty lib msg)
    r.attestations_nodup
  have hops₁ : r₁.ops = [] := hops₁
  obtain ⟨r₂, hread₂, hattestations₂, hops₂⟩ := readOps_write r.ops r₁
    (by rw [hops₁]; exact r.ops_nodup) r.ops_called
  simp only [deserialize, serialize, lib.readVaruint_write, hread₁, hread₂]
  refine congrArg _ (Shallow.ext ?_ ?_)
  · exact hattestations₂.trans hattestations₁
  · rw [hops₂, hops₁]
    rfl

end Shallow

/-! ## Views -/

/-- The record of every message that has one. -/
abbrev View (lib : Lib Op Att) := (msg : Bytes) → Option (Shallow lib msg)

section

variable {lib : Lib Op Att} {v v' : View lib} {msg : Bytes}

def View.Has (v : View lib) (f : Fact Op Att) : Prop := ∃ r, v f.msg = some r ∧ r.Has f

/-- The results of all operations of these messages have records. -/
def ClosedOn (P : Bytes → Prop) (v : View lib) : Prop :=
  ∀ m op, P m → v.Has (.op m op) → ∃ m', lib.call op m = some m' ∧ v.Has (.node m')

theorem View.has_node {m : Bytes} : v.Has (.node m) ↔ ∃ r, v m = some r := by
  simp [View.Has, Shallow.Has, Fact.msg]

theorem View.has_set (r : Shallow lib msg) (f : Fact Op Att) :
    View.Has (Function.update v msg (some r)) f ↔
      if f.msg = msg then r.Has f else v.Has f := by
  split_ifs with h
  · subst h
    simp [View.Has]
  · simp [View.Has, Function.update_of_ne h]

/-- A view that says what another one says, and the facts of a closed timestamp, is closed where
the other one is. -/
theorem ClosedOn.add {P : Bytes → Prop} {F : Fact Op Att → Prop} (h : ClosedOn P v)
    (hF : ∀ m op, F (.op m op) → ∃ m', lib.call op m = some m' ∧ F (.node m'))
    (hhas : ∀ f, v'.Has f ↔ v.Has f ∨ F f) : ClosedOn P v' := by
  intro m op hm hop
  obtain hop | hop := (hhas _).mp hop
  · obtain ⟨m', hcall, hnode⟩ := h m op hm hop
    exact ⟨m', hcall, (hhas _).mpr (.inl hnode)⟩
  · obtain ⟨m', hcall, hnode⟩ := hF m op hop
    exact ⟨m', hcall, (hhas _).mpr (.inr hnode)⟩

theorem ClosedOn.set {P : Bytes → Prop} (h : ClosedOn P v) (hmsg : ¬ P msg) (r : Shallow lib msg) :
    ClosedOn P (Function.update v msg (some r)) := by
  intro m op hm hop
  rw [View.has_set, if_neg (fun heq : (Fact.op m op).msg = msg => hmsg (heq ▸ hm))] at hop
  obtain ⟨m', hcall, hnode⟩ := h m op hm hop
  refine ⟨m', hcall, ?_⟩
  rw [View.has_set]
  split_ifs
  · trivial
  · exact hnode

/-- The attestations of the new timestamp in the record of its message, which is made when there
is none. -/
theorem View.has_update [DecidableEq Att] {r : Shallow lib msg}
    (hr : v msg = some r ∨ v msg = none ∧ r = Shallow.empty lib msg) (attestations : List Att)
    (f : Fact Op Att) :
    View.Has (Function.update v msg (some (r.update attestations))) f ↔
      v.Has f ∨ f = .node msg ∨ ∃ a ∈ attestations, f = .attestation msg a := by
  rw [View.has_set]
  split_ifs with hmsg
  · have hv : v.Has f ↔ v msg = some r ∧ r.Has f := by
      subst hmsg
      obtain hr | ⟨hr, rfl⟩ := hr
      · simp [View.Has, hr]
      · simp [View.Has, hr]
    rw [hv]
    cases f with
    | node m =>
        obtain rfl : m = msg := hmsg
        simp [Shallow.Has]
    | attestation m a =>
        obtain rfl : m = msg := hmsg
        obtain hr | ⟨hr, rfl⟩ := hr
        · simp [Shallow.Has, Shallow.mem_update, hr]
        · simp [Shallow.Has, Shallow.mem_update, hr, Shallow.empty]
    | op m op =>
        obtain rfl : m = msg := hmsg
        obtain hr | ⟨hr, rfl⟩ := hr
        · simp [Shallow.Has, hr]
        · simp [Shallow.Has, hr, Shallow.empty]
  · refine ⟨.inl, fun h => h.elim id ?_⟩
    rintro (rfl | ⟨a, _, rfl⟩)
    · exact absurd rfl hmsg
    · exact absurd rfl hmsg

end

end OtsServer.LevelDb
