import OtsServer.Selfstamp.Desk

/-!
# The heartbeat

A run of `ops/selfstamp.py`: the inbox, the manifest of the period if there is none, and the passes.
`loads` and `dumps` are `json.loads` and `json.dumps` with sorted keys and the closing newline. What
a manifest says of the books, and when a copy was last written, are answers of the surroundings.
-/

namespace OtsServer.Selfstamp

def keyWitnessed : Str := Str.ofString "witnessed"
def keyFile : Str := Str.ofString "file"

/-! ## What is listed already -/

/-- How the loop over a manifest's entries ends: after the last, with an `AttributeError`, or with a
`TypeError`. -/
inductive Walk
  | done
  | attributeError
  | typeError
deriving DecidableEq

/-- `folded.add(entry.get('file'))` over the entries: the names among what is added. -/
def foldEntries : List JsonValue → List Str × Walk
  | [] => ([], .done)
  | .obj items :: rest =>
      match JsonValue.item items keyFile with
      | .arr _ => ([], .typeError)
      | .obj _ => ([], .typeError)
      | .str file =>
          let (files, walk) := foldEntries rest
          (file :: files, walk)
      | _ => foldEntries rest
  | _ :: _ => ([], .attributeError)

/-- What a decoded manifest adds to the copies that are listed. -/
def foldManifest : JsonValue → List Str × Walk
  | .obj items =>
      let witnessed := JsonValue.item items keyWitnessed
      if !witnessed.truthy then ([], .done)
      else
        match witnessed with
        | .arr entries => foldEntries entries
        | .str _ => ([], .attributeError)
        | .obj _ => ([], .attributeError)
        | _ => ([], .typeError)
  | _ => ([], .attributeError)

/-! ## The surroundings -/

/-- What a manifest says of the books at a run. -/
structure Observed where
  auditLogs : JsonValue
  books : JsonValue
  config : JsonValue
  createdAt : JsonValue
  float : JsonValue
  forkHead : JsonValue
  journal : JsonValue

structure Surroundings extends Env where
  observe : Nat → Except Fault Observed
  /-- `_iso(copy.stat().st_mtime)`. -/
  modified : Nat → Str → Except Fault Str
  /-- `os.urandom(16).hex()`. -/
  freshLabel : Nat → Str
  loads : Loads
  dumps : JsonValue → Bytes

/-- The period of a run and the day it is made on, as ISO dates, and whether an inbox is
configured. -/
structure Settings where
  period : Str
  today : Str
  inbox : Bool

def Settings.manifest (cfg : Settings) : Str := cfg.period ++ Str.json

section Heartbeat

variable (env : Surroundings)

/-- `json.loads(path.read_bytes())` of a manifest. -/
def loadManifest (path : Str) : M JsonValue := do
  let raw ← readBytes env.toEnv .manifests path
  Prog.ofExcept ((env.loads raw).mapError faultOf)

/-- `except (OSError, ValueError)`. -/
def isUnreadable (e : Fault) : Bool := e.isOsError || e == .valueError

/-- The loop of `_folded_files`; a manifest that cannot be read is passed over. -/
def foldFiles (folded : List Str) : List Str → M (List Str)
  | [] => pure folded
  | path :: paths => do
      match ← attempt isUnreadable (loadManifest env path) with
      | none => foldFiles folded paths
      | some manifest =>
          match foldManifest manifest with
          | (_, .typeError) => Prog.raise .other
          | (files, _) => foldFiles (folded ++ files) paths

/-- `_folded_files`. -/
def foldedFiles : M (List Str) := do
  let paths ← listFiles env.toEnv .manifests Str.json
  foldFiles env [] paths

/-! ## The entries of a manifest -/

/-- `_foreign_state`. -/
def foreignState (copy : Str) (digest : Bytes) : M JsonValue := do
  if ← pathExists env.toEnv .witnessed (foreignName copy) then
    match ← attempt Fault.isOsError (readBytes env.toEnv .witnessed (foreignName copy)) with
    | none => pure (.str (Str.ofString "unreadable"))
    | some data =>
        match parseOts data with
        | .error (.otsError _) => pure (.str (Str.ofString "malformed"))
        | .error e => Prog.raise (.ots e)
        | .ok proof =>
            if proof.digest ≠ digest then pure (.str (Str.ofString "mismatch"))
            else pure (.str (Str.ofString proof.attestation.state))
  else pure .null

/-- An entry of `witnessed`, its keys in order. -/
def entryItems (m : Items) (copy : Str) (digest : Bytes) (modified : Str) (foreign : JsonValue) :
    Items :=
  [(keyChain, ((label m).elim .null .str)), (keyFile, .str copy), (Str.ofString "foreign_proof",
      foreign), (keyPeriod, JsonValue.item m keyPeriod), (keySeq, JsonValue.item m keySeq),
    (Str.ofString "sha256", .str (Str.ofChars (Bytes.hexText digest))),
    (Str.ofString "witnessed_at", .str modified)]

/-- A copy that the log names as unreadable, and the call that read it. -/
structure Problem where
  file : Str
  call : Nat
deriving DecidableEq

/-- What the loop over the copies has found. -/
structure Found where
  entries : List Items
  problems : List Problem

/-- A round of `witnessed_entries`. -/
def foldCopy (copy : Str) (found : Found) : M Found := do
  let call ← Prog.gets World.calls
  let read ← attempt isUnreadable (do
    let raw ← readBytes env.toEnv .witnessed copy
    let m ← Prog.ofExcept ((parseForeignManifest env.loads raw).mapError faultOf)
    pure (raw, m))
  match read with
  | none => pure { found with problems := found.problems ++ [⟨copy, call⟩] }
  | some (raw, m) => do
      let modified ← ask env.toEnv fun n => env.modified n copy
      let foreign ← foreignState env copy (Sha256.digest raw)
      pure { found with
        entries := found.entries ++ [entryItems m copy (Sha256.digest raw) modified foreign] }

/-- The loop over the copies that no manifest lists. -/
def foldCopies (folded : List Str) (found : Found) : List Str → M Found
  | [] => pure found
  | copy :: copies =>
      if copy ∈ folded then foldCopies folded found copies
      else do
        let found ← foldCopy env copy found
        foldCopies folded found copies

/-- `witnessed_entries`. -/
def witnessedEntries : M Found := do
  let folded ← foldedFiles env
  let copies ← listFiles env.toEnv .witnessed Str.json
  foldCopies env folded ⟨[], []⟩ copies

/-! ## The manifest -/

/-- `latest_manifest`. -/
def latestManifest : M (Option (Str × Bytes × Items)) := do
  let names ← listFiles env.toEnv .manifests Str.json
  match names.getLast? with
  | none => pure none
  | some name => do
      let raw ← readBytes env.toEnv .manifests name
      let m ← Prog.ofExcept ((parseForeignManifest env.loads raw).mapError faultOf)
      pure (some (name, raw, m))

/-- `_labelled_before`; what is no object raises an `AttributeError`, which is caught like a
`ValueError`. -/
def labelledBefore : List Str → M Bool
  | [] => pure false
  | path :: paths => do
      match ← loadManifest env path with
      | .obj m => if label m ≠ none then pure true else labelledBefore paths
      | _ => Prog.raise .valueError

/-- The items of a manifest, in order. -/
def manifestItems (seen : Observed) (chain period : Str) (prev seq : JsonValue)
    (entries : List Items) : Items :=
  [(Str.ofString "audit_logs", seen.auditLogs), (Str.ofString "books", seen.books),
    (keyChain, .str chain), (Str.ofString "config", seen.config),
    (Str.ofString "created_at", seen.createdAt), (Str.ofString "float", seen.float),
    (Str.ofString "fork_head", seen.forkHead), (Str.ofString "journal", seen.journal),
    (keyPeriod, .str period), (Str.ofString "prev", prev), (keySchema, .str schema3),
    (keySeq, seq), (keyWitnessed, .arr (entries.map .obj))]

/-- `prev`: the manifest before, by its name and its sha256. -/
def prevItems (name : Str) (raw : Bytes) : Items :=
  [(keyFile, .str name),
    (Str.ofString "sha256", .str (Str.ofChars (Bytes.hexText (Sha256.digest raw))))]

/-- The number after a manifest's. -/
def nextSeq (m : Items) : JsonValue :=
  match JsonValue.item m keySeq with
  | .int seq => .int (seq + 1)
  | _ => .null

/-- `build_manifest`. -/
def buildManifest (period : Str) (entries : List Items) : M Items := do
  let latest ← latestManifest env
  let fresh ← ask env.toEnv fun n => .ok (env.freshLabel n)
  let seen ← ask env.toEnv env.observe
  match latest with
  | none => pure (manifestItems seen fresh period .null (.int 1) entries)
  | some (name, raw, m) =>
      pure (manifestItems seen ((label m).getD fresh) period (.obj (prevItems name raw))
          (nextSeq m) entries)

/-! ## The run -/

/-- What comes of a run before its manifest: it ends with an exit code, or goes on with its failures
so far, with a manifest to write or without. -/
inductive Stage
  | ends (code : Nat)
  | noop (failures : Nat)
  | build (failures : Nat)
deriving DecidableEq

/-- Whether the newest manifest lets a manifest of the period follow. -/
def admits (period : Str) : M Bool := do
  match ← attempt isUnreadable (latestManifest env) with
  | none => pure false
  | some none => pure true
  | some (some (_, _, m)) =>
      if period ≤ Selfstamp.period m then pure false
      else if label m ≠ none then pure true
      else do
        let labelled ← attempt isUnreadable (do
          let paths ← listFiles env.toEnv .manifests Str.json
          labelledBefore env paths)
        pure (labelled == some false)

/-- `_run_locked` until it comes to the entries of its manifest. -/
def arrive (cfg : Settings) : M Stage := do
  if cfg.today ≤ cfg.period then pure (.ends 1)
  else
    match ← attempt Fault.isOsError (mkdirDurable env.toEnv) with
    | none => pure (.ends 1)
    | some _ => do
        let report ← if cfg.inbox then witnessInbox env.toEnv env.loads else pure .none
        if ← pathExists env.toEnv .manifests cfg.manifest then pure (.noop report.failures)
        else if ← admits env cfg.period then pure (.build report.failures)
        else pure (.ends 1)

/-- A manifest that was built, and the copies that could not be folded into it. -/
structure Built where
  items : Items
  problems : List Problem

def compose (cfg : Settings) : M Built := do
  let found ← witnessedEntries env
  let items ← buildManifest env cfg.period found.entries
  pure ⟨items, found.problems⟩

/-- The passes at the end of a run. -/
def passesOf (failures : Nat) : M Nat := do
  let own ← submitPass env.toEnv .manifests
  let witnessed ← submitPass env.toEnv .witnessed
  let own' ← upgradePass env.toEnv .manifests
  let witnessed' ← upgradePass env.toEnv .witnessed
  pure (if failures + own + witnessed + own' + witnessed' = 0 then 0 else 1)

/-- A run from where it has arrived. -/
def proceed (cfg : Settings) : Stage → M Nat
  | .ends code => pure code
  | .noop failures => passesOf env failures
  | .build failures => do
      let built ← compose env cfg
      match ← attempt Fault.isOsError
          (writeAtomic env.toEnv .manifests cfg.manifest (env.dumps (.obj built.items))) with
      | none => pure 1
      | some _ => passesOf env (failures + built.problems.length)

/-- `_run_locked`. -/
def heartbeat (cfg : Settings) : M Nat := do
  let stage ← arrive env cfg
  proceed env cfg stage

/-- The `upgrade` command. -/
def upgradeOnly : M Nat := do
  let own ← upgradePass env.toEnv .manifests
  let witnessed ← upgradePass env.toEnv .witnessed
  pure (if own + witnessed = 0 then 0 else 1)

end Heartbeat

end OtsServer.Selfstamp
