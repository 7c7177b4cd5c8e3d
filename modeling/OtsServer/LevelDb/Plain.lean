import OtsServer.LevelDb.Store
import OtsServer.VerifyClaim.Proof

/-!
# A small timestamp library

Three operations, and the heights of Bitcoin blocks for attestations, with the bytes they have
in detached proofs. The store can be run with it.
-/

namespace OtsServer.LevelDb

namespace Plain

inductive Op
  | append (arg : Bytes)
  | prepend (arg : Bytes)
  | reverse
deriving DecidableEq

def call : Op → Bytes → Option Bytes
  | .append arg, msg => some (msg ++ arg)
  | .prepend arg, msg => some (arg ++ msg)
  | .reverse, msg => if msg = [] then none else some msg.reverse

def varuintLoop : Nat → Nat → Bytes
  | 0, n => [UInt8.ofNat n]
  | fuel + 1, n =>
      if n < 128 then [UInt8.ofNat n] else UInt8.ofNat (n % 128 + 128) :: varuintLoop fuel (n / 128)

/-- Groups of seven bits, the low ones first. -/
def writeVaruint (n : Nat) : Bytes := varuintLoop n n

def readVaruint : Bytes → Option (Nat × Bytes)
  | [] => none
  | b :: bs =>
      if b.toNat < 128 then some (b.toNat, bs)
      else (readVaruint bs).map fun (n, rest) => (b.toNat - 128 + 128 * n, rest)

theorem readVaruint_loop (rest : Bytes) (fuel n : Nat) (h : n ≤ fuel) :
    readVaruint (varuintLoop fuel n ++ rest) = some (n, rest) := by
  induction fuel generalizing n with
  | zero =>
      obtain rfl := Nat.le_zero.mp h
      rfl
  | succ fuel ih =>
      rw [varuintLoop]
      split_ifs with hn
      · have hb : (UInt8.ofNat n).toNat = n := by
          rw [UInt8.toNat_ofNat']
          omega
        simp only [List.cons_append, List.nil_append, readVaruint, hb, if_pos hn]
      · have hb : (UInt8.ofNat (n % 128 + 128)).toNat = n % 128 + 128 := by
          rw [UInt8.toNat_ofNat']
          omega
        have hsum : n % 128 + 128 - 128 + 128 * (n / 128) = n := by omega
        rw [List.cons_append, readVaruint, hb, if_neg (by omega), ih _ (by omega), Option.map_some]
        exact congrArg (fun n => some (n, rest)) hsum

theorem readVaruint_write (n : Nat) (rest : Bytes) :
    readVaruint (writeVaruint n ++ rest) = some (n, rest) :=
  readVaruint_loop rest n n (le_refl n)

def writeVarbytes (bs : Bytes) : Bytes := writeVaruint bs.length ++ bs

def readVarbytes (data : Bytes) : Option (Bytes × Bytes) :=
  match readVaruint data with
  | none => none
  | some (n, rest) => if rest.length < n then none else some (rest.splitAt n)

theorem readVarbytes_write (bs rest : Bytes) :
    readVarbytes (writeVarbytes bs ++ rest) = some (bs, rest) := by
  rw [readVarbytes, writeVarbytes, List.append_assoc, readVaruint_write]
  simp

def writeOp : Op → Bytes
  | .append arg => VerifyClaim.opAppend :: writeVarbytes arg
  | .prepend arg => VerifyClaim.opPrepend :: writeVarbytes arg
  | .reverse => [0xf2]

def readOp : Bytes → Option (Op × Bytes)
  | [] => none
  | tag :: data =>
      if tag = VerifyClaim.opAppend then (readVarbytes data).map fun (arg, rest) =>
        (.append arg, rest)
      else if tag = VerifyClaim.opPrepend then (readVarbytes data).map fun (arg, rest) =>
        (.prepend arg, rest)
      else if tag = 0xf2 then some (.reverse, data)
      else none

/-- The attestation of a Bitcoin block, by its height. -/
def writeAttestation (height : Nat) : Bytes :=
  VerifyClaim.bitcoinTag ++ writeVarbytes (writeVaruint height)

def readAttestation (data : Bytes) : Option (Nat × Bytes) :=
  match VerifyClaim.bitcoinTag.isPrefixOf data, readVarbytes (data.drop 8) with
  | true, some (payload, rest) => (readVaruint payload).map fun (height, _) => (height, rest)
  | _, _ => none

/-- Appending, prepending and reversing, with the heights of Bitcoin blocks for attestations. -/
def lib : Lib Op Nat where
  call := call
  writeVaruint := writeVaruint
  readVaruint := readVaruint
  writeAttestation := writeAttestation
  readAttestation := readAttestation
  writeOp := writeOp
  readOp := readOp
  readVaruint_write := readVaruint_write
  readAttestation_write height rest := by
    have htag : VerifyClaim.bitcoinTag.isPrefixOf (writeAttestation height ++ rest) = true := by
      rw [List.isPrefixOf_iff_prefix, writeAttestation, List.append_assoc]
      exact List.prefix_append ..
    have hdrop : (writeAttestation height ++ rest).drop 8 =
      writeVarbytes (writeVaruint height) ++ rest := rfl
    have hheight : readVaruint (writeVaruint height) = some (height, []) := by
      simpa using readVaruint_write height []
    rw [readAttestation, htag, hdrop, readVarbytes_write]
    simp only [hheight, Option.map_some]
  readOp_write op rest := by
    cases op with
    | append arg =>
        change (readVarbytes (writeVarbytes arg ++ rest)).map _ = _
        rw [readVarbytes_write]
        rfl
    | prepend arg =>
        change (readVarbytes (writeVarbytes arg ++ rest)).map _ = _
        rw [readVarbytes_write]
        rfl
    | reverse => rfl

end Plain

end OtsServer.LevelDb
