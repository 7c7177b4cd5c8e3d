import OtsServer.Selfstamp.Improves
import Mathlib.Order.Lattice
import Mathlib.Tactic.IntervalCases

/-!
# Foreign proofs

A proof that was delivered for a copy is kept beside it, under the copy's name with a suffix of
its own, when it is a proof of exactly the copy's bytes and says more than the one held. A held
file that is not a proof of the copy is set aside.
-/

namespace OtsServer.Selfstamp

open Prog (Sees)

/-! ## Moves -/

section Moves

variable (env : Env)

/-- `os.replace` and `os.rename`. -/
def rename (p : Place) (name : Str) (p' : Place) (name' : Str) : M Unit := do
  fileCall env
  match ← Prog.gets fun w => w.get p name with
  | none => Prog.raise .fileNotFound
  | some data => Prog.modify fun w => (w.erase p name).put p' name' data

/-- `_move_durable`. -/
def moveDurable (p : Place) (name : Str) (p' : Place) (name' : Str) : M Unit := do
  fsyncFile env p name
  rename env p name p' name'
  fsyncDir env
  if p ≠ p' then fsyncDir env else pure ()

end Moves

/-! ## Keeping the stronger proof -/

def foreignName (copy : Str) : Str :=
  copy ++ Str.ofChars ['.', 'f', 'o', 'r', 'e', 'i', 'g', 'n'] ++ Str.ots

/-- 12 hex digits of a file's sha256. -/
def hexPrefix (data : Bytes) : Str := Str.ofChars ((Bytes.hexText (Sha256.digest data)).take 12)

theorem hexPrefix_length (data : Bytes) : (hexPrefix data).length = 12 := by
  rw [hexPrefix, Str.ofChars, List.length_map, List.length_take, Bytes.hexText_length,
    Sha256.digest_length]
  rfl

/-- A hex prefix holds digits and the letters from `a` to `f`. -/
theorem hexPrefix_hex (data : Bytes) :
    ∀ c ∈ hexPrefix data, (0x30 ≤ c ∧ c ≤ 0x39) ∨ (0x61 ≤ c ∧ c ≤ 0x66) := by
  intro c hc
  obtain ⟨digit, hdigit, rfl⟩ := List.mem_map.mp hc
  obtain ⟨n, hn, rfl⟩ := Bytes.exists_of_mem_hexText (List.mem_of_mem_take hdigit)
  interval_cases n <;> decide

def asideName (target : Str) (held : Bytes) : Str :=
  target ++ Str.ofChars ['.', 'r', 'e', 'j', 'e', 'c', 't', 'e', 'd', '-'] ++ hexPrefix held

/-- `_check_foreign_proof`. -/
def checkForeignProof (raw digest : Bytes) : Except Exc Proof :=
  match parseOts raw with
  | .error e => .error e
  | .ok proof =>
      if proof.digest ≠ digest then .error (.otsError "foreign proof is not of this manifest")
        else .ok proof

def Attestation.isBitcoin : Attestation → Bool
  | bitcoin _ => true
  | _ => false

/-- `proof_state` of a proof. -/
def Attestation.state : Attestation → String
  | bitcoin height => "bitcoin height=" ++ toString height
  | pending _ => "pending"
  | unknown _ => "unknown"

section Keep

variable (env : Env)

/-- The delivered proof takes the place of what is held. -/
def storeForeign (copy : Str) (data : Bytes) (proof : Proof) : M String := do
  writeAtomic env .witnessed (foreignName copy) data
  pure proof.attestation.state

/-- The delivered proof against the file held: set aside when it is not a proof of the copy, and
kept when the delivered one says no more. -/
def keepOver (copy : Str) (data digest : Bytes) (proof : Proof) (heldData : Bytes) : M String := do
  match checkForeignProof heldData digest with
  | .error (.otsError _) => do
      moveDurable env .witnessed (foreignName copy) .witnessed
        (asideName (foreignName copy) heldData)
      storeForeign env copy data proof
  | .error e => Prog.raise (.ots e)
  | .ok held =>
      if held.attestation.isBitcoin || !proof.attestation.isBitcoin then do
        fsyncFile env .witnessed (foreignName copy)
        fsyncDir env
        pure ("held " ++ held.attestation.state)
      else storeForeign env copy data proof

/-- `_keep_foreign_proof`. -/
def keepForeignProof (copy : Str) (data digest : Bytes) : M String := do
  let proof ← ofOts (checkForeignProof data digest)
  if ← pathExists env .witnessed (foreignName copy) then do
    let heldData ← readBytes env .witnessed (foreignName copy)
    keepOver env copy data digest proof heldData
  else storeForeign env copy data proof

end Keep

/-! ## Strength -/

/-- What a held file is worth as a proof of a copy. -/
inductive Strength
  | nothing
  | proof
  | bitcoin
deriving DecidableEq

/-- A proof of the copy that carries a Bitcoin attestation. -/
def IsBitcoinProofOf (raw data : Bytes) : Prop :=
  ∃ parsed height, parseOts data = .ok parsed ∧ parsed.digest = Sha256.digest raw ∧
    parsed.attestation = .bitcoin height

namespace Strength

def rank : Strength → Nat
  | nothing => 0
  | proof => 1
  | bitcoin => 2

theorem rank_injective : Function.Injective rank := by
  intro a b h
  cases a <;> cases b <;> first | rfl | exact nomatch h

instance : LinearOrder Strength := LinearOrder.lift' rank rank_injective

theorem nothing_le (a : Strength) : nothing ≤ a := Nat.zero_le a.rank

theorem le_bitcoin (a : Strength) : a ≤ bitcoin := by
  change a.rank ≤ 2
  cases a <;> decide

/-- What a file's bytes are worth. -/
def of (raw data : Bytes) : Strength :=
  match checkForeignProof data (Sha256.digest raw) with
  | .error _ => nothing
  | .ok parsed => if parsed.attestation.isBitcoin then bitcoin else proof

/-- What is held, if anything is. -/
def held (raw : Bytes) : Option Bytes → Strength
  | none => nothing
  | some data => of raw data

/-- The strongest of what was held and what was delivered. -/
def strongest (first : Strength) (delivered : List Strength) : Strength := delivered.foldr max first

section Of

variable {raw data : Bytes} {parsed : Proof}

theorem checkForeignProof_ok : checkForeignProof data (Sha256.digest raw) = .ok parsed ↔
    parseOts data = .ok parsed ∧ parsed.digest = Sha256.digest raw := by
  rw [checkForeignProof]
  cases parseOts data with
  | error e => exact iff_of_false nofun fun h => nomatch h.1
  | ok read =>
      change (if _ then _ else _) = _ ↔ _
      split_ifs with hne
      · refine iff_of_false nofun ?_
        rintro ⟨hread, hdigest⟩
        exact hne (Except.ok.inj hread ▸ hdigest)
      · refine ⟨fun h => ?_, fun h => h.1⟩
        obtain rfl := Except.ok.inj h
        exact ⟨rfl, not_not.mp hne⟩

theorem checkForeignProof_onlyOtsError (digest : Bytes) :
    OnlyOtsError (checkForeignProof data digest) := by
  rw [checkForeignProof]
  cases h : parseOts data with
  | error e => exact (parseOts_onlyOtsError data).error_of_eq h
  | ok read =>
      change OnlyOtsError (if _ then _ else _)
      split_ifs
      · exact .otsError _
      · exact .ok read

theorem of_of_ok (h : checkForeignProof data (Sha256.digest raw) = .ok parsed) :
    of raw data = if parsed.attestation.isBitcoin then bitcoin else proof := by
  rw [of, h]

theorem of_eq_nothing : of raw data = nothing ↔ ¬IsProofOf raw data := by
  cases h : checkForeignProof data (Sha256.digest raw) with
  | error e =>
      refine iff_of_true (by rw [of, h]) ?_
      rintro ⟨parsed, hparsed⟩
      exact nomatch h.symm.trans (checkForeignProof_ok.mpr hparsed)
  | ok parsed =>
      refine iff_of_false ?_ (not_not.mpr ⟨parsed, checkForeignProof_ok.mp h⟩)
      rw [of_of_ok h]
      split_ifs <;> exact nofun

theorem isProofOf_iff : IsProofOf raw data ↔ nothing < of raw data := by
  rw [(nothing_le _).lt_iff_ne, ne_comm, ← not_iff_not, not_not]
  exact of_eq_nothing.symm

theorem of_eq_bitcoin : of raw data = bitcoin ↔ IsBitcoinProofOf raw data := by
  constructor
  · intro h
    cases hcheck : checkForeignProof data (Sha256.digest raw) with
    | error e =>
        rw [of, hcheck] at h
        exact nomatch h
    | ok parsed =>
        obtain ⟨hparse, hdigest⟩ := checkForeignProof_ok.mp hcheck
        rw [of_of_ok hcheck] at h
        cases hattestation : parsed.attestation with
        | bitcoin height => exact ⟨parsed, height, hparse, hdigest, hattestation⟩
        | pending uri =>
            rw [hattestation] at h
            exact nomatch h
        | unknown tag =>
            rw [hattestation] at h
            exact nomatch h
  · rintro ⟨parsed, height, hparse, hdigest, hattestation⟩
    rw [of_of_ok (checkForeignProof_ok.mpr ⟨hparse, hdigest⟩), hattestation]
    rfl

end Of

section Strongest

variable {first : Strength} {delivered : List Strength}

theorem strongest_concat (first : Strength) (delivered : List Strength) (a : Strength) :
    strongest first (delivered ++ [a]) = max (strongest first delivered) a := by
  induction delivered with
  | nil => exact max_comm a first
  | cons b delivered ih =>
      change max b (strongest first (delivered ++ [a])) = max (max b (strongest first delivered)) a
      rw [ih, max_assoc]

theorem le_strongest_of_mem {a : Strength} (h : a ∈ delivered) : a ≤ strongest first delivered := by
  induction delivered with
  | nil => exact nomatch h
  | cons b delivered ih =>
      obtain rfl | h := List.mem_cons.mp h
      · exact le_max_left ..
      · exact (ih h).trans (le_max_right ..)

/-- It is bitcoin exactly when one of them is. -/
theorem strongest_eq_bitcoin :
    strongest first delivered = bitcoin ↔ first = bitcoin ∨ bitcoin ∈ delivered := by
  have hmax : ∀ a b : Strength, max a b = bitcoin ↔ a = bitcoin ∨ b = bitcoin := by
    intro a b
    cases a <;> cases b <;> decide
  induction delivered with
  | nil => simp [strongest]
  | cons b delivered ih =>
      have hcons : strongest first (b :: delivered) = max b (strongest first delivered) := rfl
      rw [hcons, hmax, List.mem_cons, eq_comm (a := bitcoin), or_left_comm]
      exact or_congr_right ih

end Strongest

end Strength

end OtsServer.Selfstamp
