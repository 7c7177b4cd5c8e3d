import OtsServer.Selfstamp.Manifest
import Mathlib.Data.List.Sort
import Mathlib.Data.Prod.Lex

/-!
# The inbox

`witness_inbox` of `ops/selfstamp.py` and what it calls. A delivery is claimed by a rename
before it is read; a claimed manifest is copied, its proof kept beside the copy, and the claim
removed; what cannot be used is moved to `rejected`. Each call returns what it has rejected; a
failure that stops a call is counted by the loop that made it. The lines of the log are left out:
a log that raises leaves the files as a stop at the next call does.
-/

namespace OtsServer.Selfstamp

/-! ## Names -/

def dash : Nat := 0x2d

def jsonOts : Str := Str.json ++ Str.ots

/-- `CLAIM`. -/
def claimPrefix : Str := Str.ofString ".claim-"

/-- `'%s%s-%s' % (CLAIM, token, name)`. -/
def claimName (token name : Str) : Str := claimPrefix ++ token ++ dash :: name

/-- What stands after the first dash. -/
def afterDash : Str → Option Str
  | [] => none
  | c :: cs => if c = dash then some cs else afterDash cs

/-- `path.name.split('-', 2)[2]`; `none` is an `IndexError`. -/
def deliveredName (path : Str) : Option Str := (afterDash path).bind afterDash

def isClaim (suffix path : Str) : Bool := claimPrefix.isPrefixOf path && Str.endsWith suffix path

/-- A claim under its path, with the name it was delivered under. -/
@[ext] structure Claim where
  path : Str
  name : Str
deriving DecidableEq

/-- The order of `_claims`: by the delivered name, then by the path. -/
def Claim.key (c : Claim) : Str ×ₗ Str := toLex (c.name, c.path)

def claimsOf (suffix : Str) (names : List Str) : Option (List Claim) :=
  ((names.filter (isClaim suffix)).mapM fun path => (deliveredName path).map (Claim.mk path)).map
    (List.insertionSort fun c d => c.key ≤ d.key)

/-- The name in `rejected` of a file that was delivered under `name`. -/
def rejectedName (data : Bytes) (name : Str) : Str := hexPrefix data ++ dash :: name

/-! ## Reports -/

inductive Kind
  | manifest
  | foreignProof
deriving DecidableEq

/-- A claimed file that was moved to `rejected`, and the name it was delivered under. -/
structure Rejected where
  path : Str
  kind : Kind
  name : Str
  data : Bytes
  reason : String
deriving DecidableEq

/-- The failures of a pass, and what it rejected. -/
structure Report where
  failures : Nat
  rejected : List Rejected
deriving DecidableEq

namespace Report

def none : Report := ⟨0, []⟩

def fail (r : Report) (n : Nat) : Report := { r with failures := r.failures + n }

def and (r r' : Report) : Report := ⟨r.failures + r'.failures, r.rejected ++ r'.rejected⟩

/-- What an item of a loop leaves: its rejections, or one failure when it raised. -/
def ofItem : Option (List Rejected) → Report
  | some rejected => ⟨0, rejected⟩
  | .none => ⟨1, []⟩

end Report

/-- The copies by the sha256 of their bytes, the last one of a digest first. -/
abbrev Held := List (Bytes × Str)

section Inbox

variable (env : Env)

/-! ## Claims -/

/-- `_remove`. -/
def removeFile (p : Place) (name : Str) : M Unit := do
  fileCall env
  Prog.modify fun w => w.erase p name

/-- `_mkdir_durable`. -/
def mkdirDurable : M Unit := do
  fileCall env
  fileCall env
  fsyncDir env

/-- A round of `_claim`: the number of failures. -/
def claimOne (token name : Str) : M Nat :=
  Prog.handle (do
      rename env .inbox name .inbox (claimName token name)
      pure 0)
    fun
    | .fileNotFound => some (pure 0)
    | .osError => some (pure 1)
    | _ => none

/-- `_claim`. -/
def claim : M Nat := do
  let token ← ask env fun n => .ok (env.token n)
  let manifests ← listFiles env .inbox Str.json
  let failures ← Prog.total (claimOne env token) manifests
  let proofs ← listFiles env .inbox jsonOts
  let failures' ← Prog.total (claimOne env token) proofs
  pure (failures + failures')

/-- `_claims`. -/
def claims (suffix : Str) : M (List Claim) := do
  fileCall env
  match claimsOf suffix (← Prog.gets fun w => (w.files .inbox).names) with
  | some found => pure found
  | none => Prog.raise .other

/-! ## Copies -/

/-- The loop of `_copies_by_digest`; a copy that cannot be read is passed over. -/
def readCopies (held : Held) : List Str → M Held
  | [] => pure held
  | name :: names => do
      match ← attempt Fault.isOsError (readBytes env .witnessed name) with
      | none => readCopies held names
      | some data => readCopies ((Sha256.digest data, name) :: held) names

/-- `_copies_by_digest`. -/
def copiesByDigest : M Held := do
  let names ← listFiles env .witnessed Str.json
  readCopies env [] names

/-! ## Items -/

/-- `_quarantine`. -/
def quarantine (path name : Str) (data : Bytes) (kind : Kind) (reason : String) : M Rejected := do
  mkdirDurable env
  moveDurable env .inbox path .rejected (rejectedName data name)
  pure ⟨path, kind, name, data, reason⟩

/-- An `OtsError` is a result: its text. -/
def tryOts {α : Type} (m : M α) : M (Except String α) :=
  Prog.handle (m >>= fun a => pure (.ok a)) fun
    | .ots (.otsError text) => some (pure (.error text))
    | _ => none

/-- `_consume_companion`. -/
def consumeCompanion (copy companion name : Str) (digest : Bytes) : M (List Rejected) := do
  if ← pathExists env .inbox companion then do
    let data ← readBytes env .inbox companion
    match ← tryOts (keepForeignProof env copy data digest) with
    | .error reason => do
        let rejected ← quarantine env companion name data .foreignProof reason
        pure [rejected]
    | .ok _ => do
        removeFile env .inbox companion
        pure []
  else pure []

/-- `_companion_claim`. -/
def companionClaim (path name : Str) : M (Option Str) := do
  if ← pathExists env .inbox (path ++ Str.ots) then pure (some (path ++ Str.ots))
  else do
    let found ← claims env jsonOts
    pure ((found.find? fun c => c.name = name ++ Str.ots).map Claim.path)

/-- A claimed file that is no manifest: its companion is rejected, then it. -/
def rejectManifest (path name companion : Str) (raw : Bytes) (reason : String) :
    M (List Rejected) :=
  do
  if ← pathExists env .inbox companion then do
    let data ← readBytes env .inbox companion
    let proof ← quarantine env companion (name ++ Str.ots) data .foreignProof
      "its manifest was rejected"
    let manifest ← quarantine env path name raw .manifest reason
    pure [proof, manifest]
  else do
    let manifest ← quarantine env path name raw .manifest reason
    pure [manifest]

/-- The copy of a manifest: the one held, its barrier repeated, or a new one. -/
def keepCopy (m : Items) (raw : Bytes) (held : Held) : M (Held × Str) :=
  match held.lookup (Sha256.digest raw) with
  | some copy => do
      fsyncFile env .witnessed copy
      fsyncDir env
      pure (held, copy)
  | none => do
      writeAtomic env .witnessed (copyName m raw) raw
      pure ((Sha256.digest raw, copyName m raw) :: held, copyName m raw)

/-- What is left of a manifest once its copy is in place: the companion, and the claim. -/
structure Rest where
  path : Str
  name : Str
  companion : Str
  copy : Str
  digest : Bytes

/-- `_consume_manifest`, until the copy is held: what was rejected, or the rest. -/
def startManifest (loads : Loads) (c : Claim) (held : Held) :
    M (Held × (List Rejected ⊕ Rest)) := do
  let raw ← readBytes env .inbox c.path
  let found ← companionClaim env c.path c.name
  let companion := found.getD (c.path ++ Str.ots)
  match parseForeignManifest loads raw with
  | .error .recursionError => Prog.raise .recursionError
  | .error (.valueError reason) => do
      let rejected ← rejectManifest env c.path c.name companion raw reason
      pure (held, .inl rejected)
  | .ok m => do
      let (held, copy) ← keepCopy env m raw held
      pure (held, .inr ⟨c.path, c.name, companion, copy, Sha256.digest raw⟩)

/-- `_consume_manifest`, from there on. -/
def endManifest : List Rejected ⊕ Rest → M (List Rejected)
  | .inl rejected => pure rejected
  | .inr rest => do
      let rejected ← consumeCompanion env rest.copy rest.companion
        (rest.name ++ Str.ots) rest.digest
      removeFile env .inbox rest.path
      pure rejected

/-- `_consume_manifest`, with what the loop around it does when it raises: `held` is shared. -/
def consumeManifest (loads : Loads) (c : Claim) (held : Held) : M (Held × Report) := do
  match ← attempt Fault.isOsError (startManifest env loads c held) with
  | none => pure (held, .ofItem none)
  | some (held, rest) => do
      let ended ← attempt Fault.isOsError (endManifest env rest)
      pure (held, .ofItem ended)

/-- The loop over the claimed manifests. -/
def consumeManifests (loads : Loads) (held : Held) : List Claim → M (Held × Report)
  | [] => pure (held, .none)
  | c :: cs => do
      let (held, report) ← consumeManifest env loads c held
      let (held, report') ← consumeManifests loads held cs
      pure (held, report.and report')

/-- `_manifest_was_rejected`. -/
def manifestWasRejected (companionName : Str) : M Bool := do
  fileCall env
  let names ← Prog.gets fun w => (w.files .rejected).names
  let manifestName := dash :: companionName.take (companionName.length - Str.ots.length)
  pure (names.any fun name => Str.endsWith manifestName name)

/-- `_consume_orphan_proof`. -/
def consumeOrphanProof (c : Claim) (held : Held) : M (List Rejected) := do
  let data ← readBytes env .inbox c.path
  match parseOts data with
  | .error (.otsError reason) => do
      let rejected ← quarantine env c.path c.name data .foreignProof reason
      pure [rejected]
  | .error e => Prog.raise (.ots e)
  | .ok proof =>
      match held.lookup proof.digest with
      | none => do
          if ← manifestWasRejected env c.name then do
            let rejected ← quarantine env c.path c.name data .foreignProof
              "its manifest was rejected"
            pure [rejected]
          else pure []
      | some copy => do
          let _ ← keepForeignProof env copy data proof.digest
          removeFile env .inbox c.path
          pure []

/-- A round of the loop over the claimed proofs: one whose manifest's claim is still there is left
for the next run. -/
def consumeProof (c : Claim) (held : Held) : M Report := do
  if ← pathExists env .inbox (c.path.take (c.path.length - Str.ots.length)) then pure .none
  else do
    let ended ← attempt Fault.isOsError (consumeOrphanProof env c held)
    pure (.ofItem ended)

/-- The loop over the claimed proofs. -/
def consumeProofs (held : Held) : List Claim → M Report
  | [] => pure .none
  | c :: cs => do
      let report ← consumeProof env c held
      let report' ← consumeProofs held cs
      pure (report.and report')

/-- What follows the claiming: manifests, then proofs, then the barrier of the inbox. -/
def consumeInbox (loads : Loads) (manifests : List Claim) : M Report := do
  let held ← copiesByDigest env
  let (held, report) ← consumeManifests env loads held manifests
  match ← attempt Fault.isOsError (claims env jsonOts) with
  | none => pure (report.fail 1)
  | some companions => do
      let report' ← consumeProofs env held companions
      match ← attempt Fault.isOsError (fsyncDir env) with
      | none => pure ((report.and report').fail 1)
      | some _ => pure (report.and report')

/-- `witness_inbox`. -/
def witnessInbox (loads : Loads) : M Report := do
  match ← attempt Fault.isOsError (mkdirDurable env) with
  | none => pure ⟨1, []⟩
  | some _ => do
      let claimed ← attempt Fault.isOsError (do
        let failures ← claim env
        let manifests ← claims env Str.json
        pure (failures, manifests))
      match claimed with
      | none => pure ⟨1, []⟩
      | some (failures, manifests) => do
          let report ← consumeInbox env loads manifests
          pure (report.fail failures)

end Inbox

end OtsServer.Selfstamp
