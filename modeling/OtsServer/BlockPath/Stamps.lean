import OtsServer.Library.Prog
import OtsServer.VerifyClaim.Grammar
import OtsServer.VerifyClaim.Headers

/-!
# Timestamps as objects

A `Timestamp` of the library is an object that others refer to: a message, the operations that were
added to it with the timestamps they lead to, and its attestations. What `stamper.py` calls of the
library changes such objects; it is a parameter, of which `Lib.Documented` says what the library
documents for timestamps that nothing was added to.
-/

namespace OtsServer.BlockPath

open VerifyClaim (Op sha256d)

abbrev Ref := Nat

structure Stamp where
  msg : Bytes
  ops : List (Op × Ref)
  /-- The heights of its `BitcoinBlockHeaderAttestation`s. -/
  attestations : List Int

abbrev Heap := List Stamp

inductive Exc
  | assertionError
  | indexError
  | attributeError
  | other
deriving DecidableEq

abbrev M := Prog Heap Exc

/-- An argument of `cat_sha256d`: a timestamp, or bytes that it makes one of. -/
inductive Operand
  | stamp (ref : Ref)
  | raw (bytes : Bytes)

def Operand.refs : Operand → List Ref
  | stamp ref => [ref]
  | raw _ => []

/-- The calls of the library. -/
structure Lib where
  /-- `Timestamp(msg)`. -/
  timestamp : Bytes → M Ref
  /-- `timestamp.ops.add(op)`. -/
  add : Ref → Op → M Ref
  catSha256d : Operand → Operand → M Ref
  /-- `timestamp.attestations.add(BitcoinBlockHeaderAttestation(height))`. -/
  attest : Ref → Int → M Unit

/-! ## What changes -/

/-- A timestamp that nothing was added to. -/
def Unused (h : Heap) (ref : Ref) (msg : Bytes) : Prop := h[ref]? = some ⟨msg, [], []⟩

/-- Timestamps keep their message and what was added to them. -/
def Grows (h h' : Heap) : Prop :=
  ∀ (ref : Ref) (stamp : Stamp), h[ref]? = some stamp → ∃ stamp' : Stamp, h'[ref]? = some stamp' ∧
    stamp'.msg = stamp.msg ∧ stamp.ops ⊆ stamp'.ops ∧ stamp.attestations ⊆ stamp'.attestations

/-- All timestamps but some are as they were. -/
def SameBut (refs : List Ref) (h h' : Heap) : Prop :=
  ∀ (ref : Ref) (stamp : Stamp), h[ref]? = some stamp → ref ∉ refs → h'[ref]? = some stamp

/-- From one timestamp to another along operations, each of which gives the message of the next. -/
inductive Path (h : Heap) : Ref → List Op → Ref → Prop
  | nil {ref : Ref} {stamp : Stamp} : h[ref]? = some stamp → Path h ref [] ref
  | cons {ref next last : Ref} {stamp stamp' : Stamp} {op : Op} {ops : List Op} :
      h[ref]? = some stamp → (op, next) ∈ stamp.ops → h[next]? = some stamp' →
      stamp'.msg = op.apply stamp.msg → Path h next ops last → Path h ref (op :: ops) last

section Facts

variable {h h' h'' : Heap} {ref next last : Ref} {msg : Bytes} {ops ops' : List Op}
  {refs refs' : List Ref}

theorem Grows.refl (h : Heap) : Grows h h := fun _ stamp hstamp =>
  ⟨stamp, hstamp, rfl, List.Subset.refl _, List.Subset.refl _⟩

theorem Grows.trans (h₁ : Grows h h') (h₂ : Grows h' h'') : Grows h h'' := by
  intro ref stamp hstamp
  obtain ⟨stamp', hstamp', hmsg, hops, hatt⟩ := h₁ ref stamp hstamp
  obtain ⟨stamp'', hstamp'', hmsg', hops', hatt'⟩ := h₂ ref stamp' hstamp'
  exact ⟨stamp'', hstamp'', hmsg'.trans hmsg, List.Subset.trans hops hops',
    List.Subset.trans hatt hatt'⟩

theorem Grows.none_of_none (hgrows : Grows h h') (hnone : h'[ref]? = none) : h[ref]? = none := by
  cases hstamp : h[ref]? with
  | none => rfl
  | some stamp =>
      obtain ⟨stamp', hstamp', -⟩ := hgrows ref stamp hstamp
      exact nomatch hnone.symm.trans hstamp'

theorem Grows.same_msg {stamp : Stamp} (hgrows : Grows h h') (hstamp : h[ref]? = some stamp) :
    ∃ stamp', h'[ref]? = some stamp' ∧ stamp'.msg = stamp.msg := by
  obtain ⟨stamp', hstamp', hmsg, -⟩ := hgrows ref stamp hstamp
  exact ⟨stamp', hstamp', hmsg⟩

theorem SameBut.grows (hsame : SameBut [] h h') : Grows h h' := fun ref stamp hstamp =>
  ⟨stamp, hsame ref stamp hstamp List.not_mem_nil, rfl, List.Subset.refl _, List.Subset.refl _⟩

theorem SameBut.trans (h₁ : SameBut refs h h') (h₂ : SameBut refs' h' h'') :
    SameBut (refs ++ refs') h h'' := by
  intro ref stamp hstamp hmem
  rw [List.mem_append, not_or] at hmem
  exact h₂ ref stamp (h₁ ref stamp hstamp hmem.1) hmem.2

theorem SameBut.mono (hsame : SameBut refs h h')
    (hnew : ∀ ref ∈ refs, ref ∈ refs' ∨ h[ref]? = none) : SameBut refs' h h' := by
  intro ref stamp hstamp hmem
  refine hsame ref stamp hstamp fun hin => ?_
  obtain hin | hnone := hnew ref hin
  · exact hmem hin
  · exact nomatch hnone.symm.trans hstamp

theorem SameBut.unused (hsame : SameBut refs h h') (hunused : Unused h ref msg)
    (hmem : ref ∉ refs) : Unused h' ref msg :=
  hsame ref _ hunused hmem

theorem Path.append (h₁ : Path h ref ops next) (h₂ : Path h next ops' last) :
    Path h ref (ops ++ ops') last := by
  induction h₁ with
  | nil _ => exact h₂
  | cons hstamp hop hnext hmsg _ ih => exact .cons hstamp hop hnext hmsg (ih h₂)

theorem Path.mono (hgrows : Grows h h') (hpath : Path h ref ops last) : Path h' ref ops last := by
  induction hpath with
  | nil hstamp =>
      obtain ⟨stamp', hstamp', -⟩ := hgrows _ _ hstamp
      exact .nil hstamp'
  | cons hstamp hop hnext hmsg _ ih =>
      obtain ⟨stamp', hstamp', hsame, hops, -⟩ := hgrows _ _ hstamp
      obtain ⟨next', hnext', hsame', -⟩ := hgrows _ _ hnext
      exact .cons hstamp' (hops hop) hnext' (by rw [hsame', hmsg, hsame]) ih

/-- The messages at the ends of a path. -/
theorem Path.msg_eq (hpath : Path h ref ops last) {stamp stamp' : Stamp}
    (hstamp : h[ref]? = some stamp) (hlast : h[last]? = some stamp') :
    stamp'.msg = ops.foldl (fun msg op => op.apply msg) stamp.msg := by
  induction hpath generalizing stamp with
  | nil _ => exact congrArg Stamp.msg (Option.some.inj (hlast.symm.trans hstamp))
  | cons hfirst _ hnext hmsg _ ih =>
      obtain rfl := Option.some.inj (hfirst.symm.trans hstamp)
      rw [ih hnext hlast, hmsg, List.foldl_cons]

end Facts

/-! ## What the library documents -/

/-- An operand that nothing was added to, and its message. -/
def Ready (h : Heap) (msg : Bytes) : Operand → Prop
  | .stamp ref => Unused h ref msg
  | .raw bytes => bytes = msg

/-- The library, on timestamps that nothing was added to: a new timestamp is no other; a prepend
leads to a new one, if the library `takes` its argument with the message (it refuses an empty one,
and messages of more than 4096 bytes); `cat_sha256d` adds an append to its left operand, a prepend
to its right one and two hashes to both. -/
structure Lib.Documented (lib : Lib) (takes : Bytes → Bytes → Prop) : Prop where
  timestamp : ∀ (msg : Bytes) (h : Heap), ∃ (ref : Ref) (h' : Heap),
    lib.timestamp msg h = (.ok ref, h') ∧ h[ref]? = none ∧ Unused h' ref msg ∧ SameBut [] h h'
  add : ∀ (ref : Ref) (arg msg : Bytes) (h : Heap), takes arg msg → Unused h ref msg →
    ∃ (next : Ref) (h' : Heap), lib.add ref (.prepend arg) h = (.ok next, h') ∧ h[next]? = none ∧
      Unused h' next (Op.apply (.prepend arg) msg) ∧ Path h' ref [.prepend arg] next ∧ Grows h h' ∧
      SameBut [ref] h h'
  catSha256d : ∀ (left right : Operand) (msg msg' : Bytes) (h : Heap),
    Ready h msg left → Ready h msg' right → (left.refs ++ right.refs).Nodup →
    ∃ (out : Ref) (h' : Heap), lib.catSha256d left right h = (.ok out, h') ∧ h[out]? = none ∧
      Unused h' out (sha256d (msg ++ msg')) ∧
      (∀ ref ∈ left.refs, Path h' ref [.append msg', .sha256, .sha256] out) ∧
      (∀ ref ∈ right.refs, Path h' ref [.prepend msg, .sha256, .sha256] out) ∧ Grows h h' ∧
      SameBut (left.refs ++ right.refs) h h'
  attest : ∀ (ref : Ref) (height : Int) (stamp : Stamp) (h : Heap), h[ref]? = some stamp →
    ∃ h' : Heap, lib.attest ref height h = (.ok (), h') ∧
      h'[ref]? = some { stamp with attestations := stamp.attestations ++ [height] } ∧ Grows h h'

end OtsServer.BlockPath
