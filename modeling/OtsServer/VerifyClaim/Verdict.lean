import OtsServer.Library.HashChain
import OtsServer.Library.Text
import OtsServer.VerifyClaim.Accepts
import OtsServer.VerifyClaim.Chain

/-!
# The verdict

`main` from its parsed arguments on: it reads the files, holds the exhibit against the
proof, finds the attested block among the headers, checks the whole file and asks what
ties the block to the network. What it prints is not modelled, its exit code and its
exceptions are; every step after a failed one that only prints is left out.

`Holds` says what exit code 0 is meant to stand for. A stated checkpoint pins the
headers at or below it, and the code has it so as long as the checkpoint's height is
not negative: `authenticated` starts from 0, so under a checkpoint at a negative
height the headers above it, up to height 0, count as authenticated too.
-/

namespace OtsServer.VerifyClaim

/-! ## The code -/

/-- The files as they are while the tool runs; `none` stands for an `OSError`. -/
structure Files where
  size : Text → Option Nat
  read : Text → Option Bytes

/-- The parsed command line. -/
structure Args where
  exhibit : Option Text
  proof : Text
  headers : Text
  digest : Option Text
  startHeight : Int
  checkpoint : Option Text
  network : Network

/-- What `main` raises: `parser.error` exits with code 2. -/
inductive Raised
  | systemExit (code : Nat)
  | osError
  | valueError
  | typeError
  | reader (e : Exc)
deriving DecidableEq

/-- The truth value of an argument: given, and not empty. -/
def given : Option Text → Bool
  | some (_ :: _) => true
  | _ => false

/-- The digest held against the proof: the exhibit's, or the one given. -/
def exhibitDigest (files : Files) (args : Args) : Except Raised Bytes :=
  if given args.exhibit then
    match files.read (args.exhibit.getD []) with
    | some content => .ok (Sha256.digest content)
    | none => .error .osError
  else
    match Text.fromHex (args.digest.getD []) with
    | some digest => .ok digest
    | none => .error .valueError

/-- `--checkpoint HEIGHT:HASH`. -/
def statedCheckpoint (args : Args) : Except Raised (Option (Int × Bytes)) :=
  if given args.checkpoint then
    match (args.checkpoint.getD []).splitOn ':' with
    | [height, hash] =>
        match Text.int height, Text.fromHex hash with
        | some height, some hash => .ok (some (height, hash.reverse))
        | _, _ => .error (.systemExit 2)
    | _ => .error (.systemExit 2)
  else .ok none

/-- A 32-byte append that a hash and a 4-byte prepend follow: the not-before bound. -/
def isBound (s : Step) (rest : List Step) : Bool :=
  s.name == .append && s.operand.length == 32 &&
    match rest with
    | a :: b :: _ => a.name == .sha256 && b.name == .prepend && b.operand.length == 4
    | _ => false

/-- A 4-byte prepend after a hash and before an 8-byte append: the calendar's clock. -/
def isClock (before : Option OpName) (s : Step) (rest : List Step) : Bool :=
  s.name == .prepend && s.operand.length == 4 && before == some .sha256 &&
    match rest with
    | a :: _ => a.name == .append && a.operand.length == 8
    | _ => false

/-- The loop of `describe_path`, at the steps after one named `before`. -/
def describeLoop (before : Option OpName) (bound : Option Bytes) (clock : Option Nat) :
    List Step → Option Bytes × Option Nat
  | [] => (bound, clock)
  | s :: rest =>
      if isBound s rest then describeLoop (some s.name) (some s.operand.reverse) clock rest
      else if isClock before s rest then
        describeLoop (some s.name) bound (some (Bytes.natBE s.operand)) rest
      else describeLoop (some s.name) bound clock rest

/-- `describe_path`: the not-before bound and the calendar's clock of a path. -/
def describePath (path : List Step) : Option Bytes × Option Nat := describeLoop none none none path

/-- The exit code, once every check has run. -/
def exitCode (same : Bool) (result : ChainResult) (height : Nat) : Nat :=
  let incomplete :=
    match result.authenticatedHeight with
    | none => true
    | some authenticated => authenticated < height
  if !same || !result.ok then 1 else if incomplete then 2 else 0

/-- Steps 3 to 5: the attested block, the chain and the tie. -/
def checkBlock (raw : Bytes) (args : Args) (attestation : Attestation) : Except Raised Nat :=
  match attestation.height with
  | none => .error .typeError
  | some height =>
      if ¬Contains raw args.startHeight height then .ok 1
      else
        let header := headerAtHeight raw args.startHeight height
        let same := (headerFields header).merkleRoot == attestation.msg
        match statedCheckpoint args with
        | .error e => .error e
        | .ok checkpoint =>
            let wanted := (describePath attestation.path).1.toList
            .ok (exitCode same
                (verifyChain raw args.startHeight checkpoint wanted args.network) height)

/-- Steps 1 and 2: the digest, and the first Bitcoin attestation of the proof. -/
def checkProof (files : Files) (args : Args) (raw data : Bytes) : Except Raised Nat :=
  match parseProof data with
  | .error (.proofError _) => .ok 1
  | .error e => .error (.reader e)
  | .ok parsed =>
      match exhibitDigest files args with
      | .error e => .error e
      | .ok digest =>
          if digest ≠ parsed.digest then .ok 1
          else
            match parsed.attestations.filter (·.kind = .bitcoin) with
            | [] => .ok 1
            | attestation :: _ => checkBlock raw args attestation

def main (files : Files) (args : Args) : Except Raised Nat :=
  if given args.exhibit = given args.digest then .error (.systemExit 2)
  else
    match files.size args.proof, files.read args.headers with
    | some _, some raw =>
        match files.read args.proof with
        | none => .ok 1
        | some data => checkProof files args raw data
    | _, _ => .error .osError

/-! ## What a verdict says -/

/-- The digest of the exhibit, or the one given in its place. -/
def IsExhibitDigest (files : Files) (args : Args) (digest : Bytes) : Prop :=
  (∃ path content, args.exhibit = some path ∧ files.read path = some content ∧
    digest = Sha256.digest content) ∨
  ∃ text, args.digest = some text ∧ Text.fromHex text = some digest

/-- What ties the block at `height` to the network: a stated checkpoint of the file at or
above it, or that it is the genesis block. -/
def Tied (args : Args) (raw : Bytes) (height : Nat) : Prop :=
  (∃ top hash, statedCheckpoint args = .ok (some (top, hash)) ∧ (height : Int) ≤ top ∧
    Contains raw args.startHeight top ∧ sha256d (headerAtHeight raw args.startHeight top) = hash) ∨
  height = 0 ∧ args.startHeight = 0 ∧
    display (sha256d (headerAtHeight raw args.startHeight 0)) = args.network.genesis

/-- Everything a verdict rests on, for the files' contents and the proof's reading. -/
structure Holding (files : Files) (args : Args) (raw data : Bytes) (parsed : Parsed)
    (attestation : Attestation) (height : Nat) : Prop where
  headers : files.read args.headers = some raw
  proof : files.read args.proof = some data
  reading : parseProof data = .ok parsed
  digest : IsExhibitDigest files args parsed.digest
  first : parsed.attestations.find? (·.kind = .bitcoin) = some attestation
  attested : attestation.height = some height
  replay : Replays parsed.digest attestation.path attestation.msg
  inFile : Contains raw args.startHeight height
  merkleRoot : (headerFields (headerAtHeight raw args.startHeight height)).merkleRoot =
    attestation.msg
  chain : SoundChain args.network raw args.startHeight
  tied : Tied args raw height

/-- What exit code 0 is meant to stand for. -/
def Holds (files : Files) (args : Args) : Prop :=
  ∃ raw data parsed attestation height, Holding files args raw data parsed attestation height

/-- Exit code 0 stands for what it is meant to, when `checkpoint` is stated. -/
def ExitSound (network : Network) (stated : Option (Int × Bytes) → Prop) : Prop :=
  ∀ files args checkpoint, args.network = network → statedCheckpoint args = .ok checkpoint →
    stated checkpoint → main files args = .ok 0 → Holds files args

/-- Two accepted files that are authenticated up to a height they both hold carry the same
header there, or hold two different headers of one hash at some height. -/
def PinsOneHeader (network : Network) (top : Int) : Prop :=
  ∀ (hash raw₁ raw₂ : Bytes) (start₁ start₂ : Int) (wanted₁ wanted₂ : List Bytes)
    (height authenticated₁ authenticated₂ : Int),
    let result₁ := verifyChain raw₁ start₁ (some (top, hash)) wanted₁ network
    let result₂ := verifyChain raw₂ start₂ (some (top, hash)) wanted₂ network
    result₁.ok → result₁.authenticatedHeight = some authenticated₁ → height ≤ authenticated₁ →
    result₂.ok → result₂.authenticatedHeight = some authenticated₂ → height ≤ authenticated₂ →
    Contains raw₁ start₁ height → Contains raw₂ start₂ height →
      headerAtHeight raw₁ start₁ height = headerAtHeight raw₂ start₂ height ∨
      ∃ k, Contains raw₁ start₁ k ∧ Contains raw₂ start₂ k ∧
        HashChain.CollideAt sha256d (headerAtHeight raw₁ start₁) (headerAtHeight raw₂ start₂) k

end OtsServer.VerifyClaim
