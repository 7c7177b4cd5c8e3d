import OtsServer.Selfstamp.Files

/-!
# The submit and the upgrade pass

Every manifest, and every witnessed copy, without a proof gets one from the calendar, and
every pending proof asks the calendar once for the rest of its path.
-/

namespace OtsServer.Selfstamp

/-- `proof_path`. -/
def proofName (name : Str) : Str := name ++ Str.ots

/-- What `_describe_proof` says of the proof beside a file. -/
inductive ProofState
  | missing
  | pending
  | bitcoin
  | malformed
  | mismatch
  | unknown
  | unreadable
deriving DecidableEq

/-- `GOOD_PROOF_STATES`. -/
def ProofState.good : ProofState → Bool
  | missing => true
  | pending => true
  | bitcoin => true
  | _ => false

/-- What a proof's bytes say beside a file with the bytes `raw`. -/
def proofState (data raw : Bytes) : Except Exc ProofState :=
  match parseOts data with
  | .error (.otsError _) => .ok .malformed
  | .error e => .error e
  | .ok parsed =>
      if parsed.digest ≠ Sha256.digest raw then .ok .mismatch
      else
        match parsed.attestation with
        | .bitcoin _ => .ok .bitcoin
        | .pending _ => .ok .pending
        | .unknown _ => .ok .unknown

def ofOts {α : Type} (r : Except Exc α) : M α := Prog.ofExcept (r.mapError Fault.ots)

section Passes

variable (env : Env)

/-- `_describe_proof`. -/
def describeProof (p : Place) (path : Str) (raw : Bytes) : M ProofState := do
  if !(← pathExists env p path) then pure .missing
  else
    match ← attempt Fault.isOsError (readBytes env p path) with
    | none => pure .unreadable
    | some data => ofOts (proofState data raw)

def submitDigest (digest : Bytes) : M Bytes := ask env fun n => env.submit n digest

def fetchTimestamp (commitment : Bytes) : M (Option Bytes) :=
  ask env fun n => env.fetch n commitment

/-- A round of `_submit_pass`: the number of failures. -/
def submitOne (p : Place) (name : Str) : M Nat := do
  if ← pathExists env p (proofName name) then pure 0
  else
    let built ← attempt Fault.isException (do
      let raw ← readBytes env p name
      let digest := Sha256.digest raw
      let response ← submitDigest env digest
      let ots ← ofOts (buildOts digest response)
      writeAtomic env p (proofName name) ots
      pure ots)
    match built with
    | none => pure 1
    | some ots => do
        let _ ← ofOts (parseOts ots)
        pure 0

/-- `_submit_pass`. -/
def submitPass (p : Place) : M Nat := do
  let paths ← listFiles env p Str.json
  Prog.total (submitOne env p) paths

/-- The proof that `_upgrade_pass` has found pending: the number of failures. -/
def upgradePending (p : Place) (path : Str) : M Nat := do
  let asked ← attempt Fault.isException (do
    let ots ← readBytes env p path
    let proof ← ofOts (parseOts ots)
    let response ← fetchTimestamp env proof.commitment
    pure (ots, response))
  match asked with
  | none => pure 1
  | some (_, none) => pure 0
  | some (ots, some response) =>
      let upgraded ← attempt (fun e => e.isOtsError || e.isOsError) (do
        let upgraded ← ofOts (spliceUpgrade ots response)
        writeAtomic env p path upgraded
        pure upgraded)
      match upgraded with
      | none => pure 1
      | some upgraded => do
          let _ ← ofOts (parseOts upgraded)
          pure 0

/-- A round of `_upgrade_pass`. -/
def upgradeOne (p : Place) (path : Str) : M Nat := do
  match ← attempt Fault.isOsError (readBytes env p (path.take (path.length - Str.ots.length))) with
  | none => pure 1
  | some raw =>
      let state ← describeProof env p path raw
      if !state.good then pure 1
      else if state ≠ .pending then
        match ← attempt Fault.isOsError (do
            fsyncFile env p path
            fsyncDir env) with
        | none => pure 1
        | some _ => pure 0
      else upgradePending env p path

/-- `_upgrade_pass`. -/
def upgradePass (p : Place) : M Nat := do
  let paths ← listFiles env p (Str.json ++ Str.ots)
  Prog.total (upgradeOne env p) paths

end Passes

end OtsServer.Selfstamp
