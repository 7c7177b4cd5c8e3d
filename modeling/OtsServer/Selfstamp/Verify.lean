import OtsServer.Selfstamp.Heartbeat

/-!
# The verifier of a chain

`verify_chain` of `ops/selfstamp.py`, with its checks of the copies that are vouched for and of
another chain that vouches for this one. It writes no file, so the directories are what each name
in them reads as. Of the lines that it logs only the values are modelled that are shown with `%s`:
one that cannot be printed raises, as a text with a lone surrogate does where output is UTF-8.
-/

namespace OtsServer.Selfstamp

def keyPrev : Str := Str.ofString "prev"
def keySha256 : Str := Str.ofString "sha256"
def keyForkHead : Str := Str.ofString "fork_head"
def keyConfig : Str := Str.ofString "config"
def keyCommit : Str := Str.ofString "commit"
def keyCommissioning : Str := Str.ofString "commissioning"
def keyCreatedAt : Str := Str.ofString "created_at"
def keyForkCommit : Str := Str.ofString "fork_commit"
def keyInstalledAt : Str := Str.ofString "installed_at"
def keyForeignProof : Str := Str.ofString "foreign_proof"

/-- The digest that manifests record of a file. -/
def sha256Text (raw : Bytes) : Str := Str.ofChars (Bytes.hexText (Sha256.digest raw))

/-- What the verifier can raise. -/
inductive Raised
  | attributeError
  | typeError
  | osError
  | recursionError
  | ots (e : Exc)
  /-- What `log` raises. -/
  | log
deriving DecidableEq

/-- What asking for a file and reading it gives: no such file, an exception of the question, an
exception of the read, or the bytes. -/
inductive Lookup
  | missing
  | raises
  | unreadable
  | held (data : Bytes)
deriving DecidableEq

/-- The directories of a chain. -/
structure Archive where
  loads : Loads
  /-- Whether `log` takes a line that shows the value. -/
  prints : JsonValue → Bool
  /-- The names of the manifests in order; `none` is an exception. -/
  manifests : Option (List Str)
  named : ∀ files ∈ manifests, ∀ file ∈ files, Str.endsWith Str.json file = true
  /-- The bytes of a manifest; `none` is an exception. -/
  manifest : Str → Option Bytes
  /-- The proof beside a manifest. -/
  manifestProof : Str → Lookup
  /-- A file under `witnessed/`, by any text that an entry may hold. -/
  copy : Str → Lookup
  copyProof : Str → Lookup
  copyForeign : Str → Lookup

/-- The directory of another chain. -/
structure WitnessChain where
  /-- `none` is an exception. -/
  isDir : Option Bool
  files : Option (List Str)
  manifest : Str → Option Bytes

/-! ## Values of any shape -/

/-- `v == n` for an integer. -/
def equalsInt (v : JsonValue) (n : Int) : Bool :=
  match v with
  | .int k => k = n
  | .bool b => (if b then 1 else 0) = n
  | .float (.finite x) => x = n
  | _ => false

/-- `v == text`. -/
def equalsStr (v : JsonValue) (text : Str) : Bool :=
  match v with
  | .str s => s = text
  | _ => false

def isNull : JsonValue → Bool
  | .null => true
  | _ => false

/-- Where output is UTF-8, a value can be printed unless it is a text with a lone surrogate; in a
list or an object texts are escaped. -/
def encodable : JsonValue → Bool
  | .str text => text.all fun c => c < 0xd800 ∨ 0xdfff < c
  | _ => true

/-- The value can be a key, or a member of a set. -/
def hashable : JsonValue → Bool
  | .arr _ => false
  | .obj _ => false
  | _ => true

/-- `(v or {}).get(key)`. -/
def getOf (v : JsonValue) (key : Str) : Except Raised JsonValue :=
  if !v.truthy then .ok .null
  else
    match v with
    | .obj items => .ok (JsonValue.item items key)
    | _ => .error .attributeError

/-- `v or []`, as what is walked: its members; of a string or an object, as many members that are no
objects. -/
def membersOf (v : JsonValue) : Except Raised (List JsonValue) :=
  if !v.truthy then .ok []
  else
    match v with
    | .arr entries => .ok entries
    | .str text => .ok (text.map fun c => .str [c])
    | .obj items => .ok (items.map fun item => .str item.1)
    | _ => .error .typeError

/-! ## Vouches -/

/-- `_describe_proof`. -/
def describeBeside (beside : Lookup) (raw : Bytes) : Except Raised ProofState :=
  match beside with
  | .missing => .ok .missing
  | .raises => .error .osError
  | .unreadable => .ok .unreadable
  | .held data => (proofState data raw).mapError .ots

/-- `_foreign_state`, which is only printed. -/
def foreignBeside (beside : Lookup) : Except Raised Unit :=
  match beside with
  | .missing => .ok ()
  | .raises => .error .osError
  | .unreadable => .ok ()
  | .held data =>
      match parseOts data with
      | .error (.otsError _) => .ok ()
      | .error e => .error (.ots e)
      | .ok _ => .ok ()

section Verify

variable (a : Archive)

/-- A line of the log that shows some values. -/
def report (shown : List JsonValue) : Except Raised Unit :=
  if shown.all a.prints then .ok () else .error .log

/-- The value, unless a line has something else in its place. -/
def shownIf (v : JsonValue) : List JsonValue := if v.truthy then [v] else []

/-- What the line about an entry shows of it. -/
def entryShown (items : Items) : List JsonValue :=
  shownIf (JsonValue.item items keyChain) ++
    [JsonValue.item items keySeq, JsonValue.item items keyPeriod, JsonValue.item items keySha256,
      JsonValue.item items keyForeignProof] ++
    shownIf (JsonValue.item items keyHost)

/-- The copy that an entry names. -/
def verifyCopy (file : Str) (sha256 : JsonValue) : Except Raised Bool :=
  match a.copy file with
  | .missing => .ok false
  | .raises => .error .osError
  | .unreadable => .ok false
  | .held raw => do
      let state ← describeBeside (a.copyProof file) raw
      foreignBeside (a.copyForeign file)
      .ok (equalsStr sha256 (sha256Text raw) && state.good)

/-- Whether an entry's copy is held and is what the entry says. -/
def verifyVouch (skipCopies : Bool) (items : Items) : Except Raised Bool :=
  if skipCopies then .ok true
  else
    let name := JsonValue.item items keyFile
    if !name.truthy then .ok false
    else
      match name with
      | .str file => verifyCopy a file (JsonValue.item items keySha256)
      | _ => .error .typeError

/-- A round of `_verify_witnessed`. -/
def verifyEntry (skipCopies : Bool) (entry : JsonValue) : Except Raised Bool :=
  match entry with
  | .obj items => do
      let ok ← verifyVouch a skipCopies items
      report a (entryShown items)
      .ok ok
  | _ => .ok false

/-- `_verify_witnessed`. -/
def verifyWitnessed (skipCopies : Bool) : List JsonValue → Except Raised Bool
  | [] => .ok true
  | entry :: entries => do
      let ok ← verifyEntry a skipCopies entry
      let rest ← verifyWitnessed skipCopies entries
      .ok (ok && rest)

/-! ## Manifests -/

/-- What can be checked of a manifest: the object it decodes to, and whether the validator takes
it. -/
def decodeManifest (loads : Loads) (raw : Bytes) : Except Raised (Option (Items × Bool)) :=
  match parseForeignManifest loads raw with
  | .ok m => .ok (some (m, true))
  | .error .recursionError => .error .recursionError
  | .error (.valueError _) =>
      match loads raw with
      | .ok (.obj m) => .ok (some (m, false))
      | _ => .ok none

/-- What can be checked of the manifest under a name. -/
def decoded (path : Str) : Option (Items × Bool) :=
  match (a.manifest path).map (decodeManifest a.loads) with
  | some (.ok found) => found
  | _ => none

/-- What the loop over the manifests carries. -/
structure Link where
  /-- The manifest before, and its bytes where it could be read. -/
  prev : Option (Str × Option Bytes)
  /-- The period of the manifest before. -/
  period : JsonValue
  label : Option Str
  ok : Bool

/-- The period comes after that of the manifest before. -/
def isAfter (before period : JsonValue) : Except Raised Bool :=
  if isNull before then .ok true
  else
    match period with
    | .str period =>
        match before with
        | .str before => .ok (before < period)
        | _ => .error .typeError
    | _ => .ok false

/-- The link to the manifest before. -/
def prevHolds (before : Option (Str × Option Bytes)) (prev : JsonValue) : Bool :=
  match before with
  | none => isNull prev
  | some (name, raw) =>
      match prev with
      | .obj items =>
          equalsStr (JsonValue.item items keyFile) name &&
            match raw with
            | some raw => equalsStr (JsonValue.item items keySha256) (sha256Text raw)
            | none => false
      | _ => false

/-- The label, once there is one, stays. -/
def labelHolds (chainLabel found : Option Str) : Bool :=
  match found, chainLabel with
  | _, none => true
  | some label, some chainLabel => label = chainLabel
  | none, some _ => false

/-- The commissioning block is in the first manifest of `selfstamp/2`, and in no other. -/
def commissioningHolds (index : Nat) (schema commissioning : JsonValue) : Bool :=
  !equalsStr schema schema2 ||
    if index = 0 then (match commissioning with | .obj _ => true | _ => false) else
      isNull commissioning

/-- The line about the first manifest. -/
def genesisRecord (index : Nat) (m : Items) : Except Raised Unit :=
  if index = 0 ∧ equalsStr (JsonValue.item m keySchema) schema3 ∧ label m ≠ none then do
    let commit ← getOf (JsonValue.item m keyForkHead) keyCommit
    let config ← getOf (JsonValue.item m keyConfig) keySha256
    report a [JsonValue.item m keyChain, JsonValue.item m keyCreatedAt, commit, config]
  else .ok ()

/-- The line about a commissioning block. -/
def commissionedRecord (commissioning : JsonValue) : Except Raised Unit :=
  match commissioning with
  | .obj items => do
      let config ← getOf (JsonValue.item items keyConfig) keySha256
      report a [JsonValue.item items keyHost, JsonValue.item items keyForkCommit, config,
        JsonValue.item items keyInstalledAt]
  | _ => .ok ()

/-- A manifest that is an object, with its place in the chain. -/
def verifyObject (skipCopies : Bool) (index : Nat) (path : Str) (raw : Bytes)
    (m : Items) (valid : Bool) (s : Link) : Except Raised Link :=
  do
  let after ← isAfter s.period (JsonValue.item m keyPeriod)
  let state ← describeBeside (a.manifestProof path) raw
  report a [.str path, JsonValue.item m keySeq]
  genesisRecord a index m
  commissionedRecord a (JsonValue.item m keyCommissioning)
  let entries ← membersOf (JsonValue.item m keyWitnessed)
  let vouched ← verifyWitnessed a skipCopies entries
  let holds := valid && equalsInt (JsonValue.item m keySeq) (index + 1) &&
    equalsStr (JsonValue.item m keyPeriod) (path.take (path.length - Str.json.length)) && after &&
    prevHolds s.prev (JsonValue.item m keyPrev) && labelHolds s.label (label m) &&
    commissioningHolds index (JsonValue.item m keySchema) (JsonValue.item m keyCommissioning)
  .ok { prev := some (path, some raw)
        period := JsonValue.item m keyPeriod
        label := s.label.or (label m)
        ok := s.ok && holds && state.good && vouched }

/-- A round of `verify_chain`. -/
def verifyManifest (skipCopies : Bool) (index : Nat) (path : Str) (s : Link) : Except Raised Link :=
  match a.manifest path with
  | none => do
      report a [.str path]
      .ok { s with ok := false, prev := some (path, none) }
  | some raw => do
      match ← decodeManifest a.loads raw with
      | none => do
          report a [.str path]
          .ok { s with ok := false, prev := some (path, some raw) }
      | some (m, valid) => verifyObject a skipCopies index path raw m valid s

/-- The loop of `verify_chain`. -/
def verifyManifests (skipCopies : Bool) : Nat → List Str → Link → Except Raised Link
  | _, [], s => .ok s
  | index, path :: paths, s => do
      let s ← verifyManifest a skipCopies index path s
      verifyManifests skipCopies (index + 1) paths s

/-! ## Another chain's vouches -/

/-- What a vouch is matched under: `_identity`. -/
inductive Identity
  | labelled (label : Str) (seq : JsonValue)
  | unlabelled (seq period : JsonValue)

def identity (m : Items) : Identity :=
  match label m with
  | some label => .labelled label (JsonValue.item m keySeq)
  | none => .unlabelled (JsonValue.item m keySeq) (JsonValue.item m keyPeriod)

def Identity.hashable : Identity → Bool
  | labelled _ seq => Selfstamp.hashable seq
  | unlabelled seq period => Selfstamp.hashable seq && Selfstamp.hashable period

/-- A key of the vouches, and a manifest's own. -/
def Identity.matches (vouch : Identity) (m : Items) : Bool :=
  match vouch, label m, JsonValue.item m keySeq with
  | labelled l seq, some l', .int n => l = l' && equalsInt seq n
  | unlabelled seq period, none, .int n => equalsInt seq n && equalsStr period (Selfstamp.period m)
  | _, _, _ => false

/-- A vouch: its key, the sha256 it holds, and what a line shows of it: the label or host of its
chain, the seq of its manifest and that manifest's name. -/
structure Vouch where
  key : Identity
  sha256 : JsonValue
  witness : JsonValue
  seq : JsonValue
  path : Str

/-- The label of a manifest's chain, or its host. -/
def chainName (m : Items) : JsonValue := (label m).elim (JsonValue.item m keyHost) .str

/-- The entries of a witness manifest. -/
def gatherEntries (path : Str) (m : Items) : List JsonValue → Except Raised (List Vouch)
  | [] => .ok []
  | .obj items :: entries =>
      if !(identity items).hashable then .error .typeError
      else do
        let rest ← gatherEntries path m entries
        .ok (⟨identity items, JsonValue.item items keySha256, chainName m, JsonValue.item m keySeq,
            path⟩ :: rest)
  | _ :: entries => gatherEntries path m entries

/-- A round of the loop over the other chain's manifests: the vouches, and whether it could be
read. -/
def gatherManifest (w : WitnessChain) (path : Str) : Except Raised (List Vouch × Bool) :=
  match (w.manifest path).map (parseForeignManifest a.loads) with
  | some (.ok m) => do
      let entries ← membersOf (JsonValue.item m keyWitnessed)
      let vouches ← gatherEntries path m entries
      .ok (vouches, true)
  | some (.error .recursionError) => .error .recursionError
  | _ => do
      report a [.str path]
      .ok ([], false)

/-- The loop over the other chain's manifests: the vouches, and whether all could be read. -/
def gatherVouches (w : WitnessChain) : List Str → Except Raised (List Vouch × Bool)
  | [] => .ok ([], true)
  | path :: paths => do
      let (vouches, read) ← gatherManifest a w path
      let (rest, complete) ← gatherVouches w paths
      .ok (vouches ++ rest, read && complete)

/-- What the line about a manifest shows, with the vouch that it names: one that has its sha256, or
else the first under its key. -/
def crossShown (path : Str) (m : Items) (hits held : List Vouch) : List JsonValue :=
  match hits.head?, held.head? with
  | some hit, _ => [.str path, hit.witness, hit.seq, .str hit.path]
  | none, some vouch => [.str path, vouch.witness, JsonValue.item m keySeq] ++
      if label m = none then [JsonValue.item m keyPeriod] else [.str vouch.path]
  | none, none => [.str path]

/-- Whether no vouch contradicts a manifest. -/
def crossCheckOne (vouches : List Vouch) (path : Str) (raw : Bytes) (m : Items) :
    Except Raised Bool :=
  let held := vouches.filter fun vouch => vouch.key.matches m
  let hits := held.filter fun vouch => equalsStr vouch.sha256 (sha256Text raw)
  if held.any fun vouch => !hashable vouch.sha256 then .error .typeError
  else do
    report a (crossShown path m hits held)
    .ok (!hits.isEmpty || held.isEmpty || label m == none)

/-- The loop over the chain's own manifests. -/
def crossCheckAll (vouches : List Vouch) : List Str → Except Raised Bool
  | [] => .ok true
  | path :: paths =>
      match a.manifest path with
      | none => crossCheckAll vouches paths
      | some raw =>
          match parseForeignManifest a.loads raw with
          | .error .recursionError => .error .recursionError
          | .error (.valueError _) => crossCheckAll vouches paths
          | .ok m => do
              let ok ← crossCheckOne a vouches path raw m
              let rest ← crossCheckAll vouches paths
              .ok (ok && rest)

/-- `cross_check`. -/
def crossCheck (w : WitnessChain) (files : List Str) : Except Raised Bool :=
  match w.isDir with
  | none => .error .osError
  | some false => .ok false
  | some true =>
      match w.files with
      | none => .ok false
      | some paths => do
          let (vouches, complete) ← gatherVouches a w paths
          let ok ← crossCheckAll a vouches files
          .ok (complete && ok)

/-- `verify_chain`. -/
def verifyChain (witness : Option WitnessChain) (skipWitnessed : Bool) : Except Raised Bool :=
  match a.manifests with
  | none => .ok false
  | some [] => .ok false
  | some files => do
      let s ← verifyManifests a skipWitnessed 0 files ⟨none, .null, none, true⟩
      match witness with
      | none => .ok s.ok
      | some w => do
          let ok ← crossCheck a w files
          .ok (s.ok && ok)

end Verify

end OtsServer.Selfstamp
