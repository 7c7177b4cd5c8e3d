import OtsServer.Library.Sha256

/-!
# Linear proofs

The reader of `ops/selfstamp.py`: a detached proof with one path and one attestation, as
the calendar emits it. It is a copy of the reader in `ops/verify_claim.py` in its small
parts and a loop of its own in the large; both keep their own definitions here. A reader
takes the bytes from its position on and returns what is left.

`buildOts` and `spliceUpgrade` are the two ways in which the tool makes a proof of what
the calendar answers.
-/

namespace OtsServer.Selfstamp

/-- The exceptions an operation of the reader can raise. `unfinished` stands for a loop that
has not ended within the iterations it was given. -/
inductive Exc
  | otsError (text : String)
  | unicodeDecodeError
  | unfinished
deriving DecidableEq

def magic : Bytes :=
  [0x00, 0x4f, 0x70, 0x65, 0x6e, 0x54, 0x69, 0x6d, 0x65, 0x73, 0x74, 0x61, 0x6d, 0x70, 0x73, 0x00,
   0x00, 0x50, 0x72, 0x6f, 0x6f, 0x66, 0x00, 0xbf, 0x89, 0xe2, 0xe8, 0x84, 0xe8, 0x92, 0x94]

def version : Nat := 1
def opSha256 : UInt8 := 0x08
def opAppend : UInt8 := 0xf0
def opPrepend : UInt8 := 0xf1
def attestationMarker : UInt8 := 0x00
def forkMarker : UInt8 := 0xff

def pendingTag : Bytes := [0x83, 0xdf, 0xe3, 0x0d, 0x2e, 0xf9, 0x0c, 0x8e]
def bitcoinTag : Bytes := [0x05, 0x88, 0x96, 0x0d, 0x73, 0xd7, 0x19, 0x01]
def heightTags : List Bytes :=
  [bitcoinTag, [0x06, 0x86, 0x9a, 0x0d, 0x73, 0xd7, 0x1b, 0x45],
   [0x30, 0xfe, 0x80, 0x87, 0xb5, 0xc7, 0xea, 0xd7]]

def maxOperand : Nat := 4096
def maxMsg : Nat := 4096
def maxAttestationPayload : Nat := 8192
def maxUri : Nat := 1000
def maxOpsOnAPath : Nat := 255
def maxVaruintBytes : Nat := 10

/-- `URI_CHARS`. -/
def isUriChar (b : UInt8) : Bool :=
  (0x61 ≤ b && b ≤ 0x7a) || (0x41 ≤ b && b ≤ 0x5a) || (0x30 ≤ b && b ≤ 0x39) ||
    b == 0x2d || b == 0x2e || b == 0x5f || b == 0x2f || b == 0x3a

/-- `(kind, value)`: the value of an unknown attestation is its tag in hex. -/
inductive Attestation
  | pending (uri : List Char)
  | bitcoin (height : Nat)
  | unknown (tagHex : List Char)
deriving DecidableEq

/-- `opsEnd` is the offset of the attestation marker. -/
structure Proof where
  digest : Bytes
  commitment : Bytes
  attestation : Attestation
  opsEnd : Nat
deriving DecidableEq

/-- `varuint`, for numbers of at most `n` groups. -/
def varuintGroups : Nat → Nat → Bytes
  | 0, _ => []
  | n + 1, value =>
      if value / 128 = 0 then [UInt8.ofNat (value % 128)]
      else UInt8.ofNat (value % 128 + 128) :: varuintGroups n (value / 128)

def varuint (n : Nat) : Bytes := varuintGroups (n + 1) n

/-- `bytes.decode('ascii')`. -/
def decodeAscii (bs : Bytes) : Except Exc (List Char) :=
  if bs.all (· < 0x80) then .ok (bs.map fun b => Char.ofNat b.toNat) else .error .unicodeDecodeError

/-- The loop of `read_varuint`, after `count` bytes have given `value`. -/
def readVaruintLoop (value shift count : Nat) : Bytes → Except Exc (Nat × Bytes)
  | [] => .error (.otsError "truncated varuint")
  | byte :: rest =>
      if count ≥ maxVaruintBytes then
        .error (.otsError ("varuint longer than " ++ toString maxVaruintBytes ++ " bytes"))
      else
        let value := value ||| ((byte &&& 0x7f).toNat <<< shift)
        if byte &&& 0x80 = 0 then .ok (value, rest)
        else readVaruintLoop value (shift + 7) (count + 1) rest

def readVaruint (data : Bytes) : Except Exc (Nat × Bytes) := readVaruintLoop 0 0 0 data

def readVarbytes (data : Bytes) (maxLen minLen : Nat) : Except Exc (Bytes × Bytes) :=
  match readVaruint data with
  | .error e => .error e
  | .ok (length, rest) =>
      if length > maxLen then
        .error (.otsError ("varbytes longer than " ++ toString maxLen ++ " bytes"))
      else if length < minLen then
        .error (.otsError ("varbytes shorter than " ++ toString minLen ++ " byte"))
      else if length > rest.length then .error (.otsError "truncated varbytes")
      else .ok (rest.take length, rest.drop length)

/-- What a payload of each tag reads as. -/
def readPayload (atag payload : Bytes) : Except Exc Attestation :=
  if atag = pendingTag then
    match readVarbytes payload maxUri 0 with
    | .error e => .error e
    | .ok (uri, rest) =>
        if rest ≠ [] then .error (.otsError "trailing bytes in the pending attestation")
        else if uri.any (fun b => !isUriChar b) then
          .error (.otsError "pending uri has a character outside the allowed set")
        else
          match decodeAscii uri with
          | .error e => .error e
          | .ok text => .ok (.pending text)
  else if atag ∈ heightTags then
    match readVaruint payload with
    | .error e => .error e
    | .ok (height, rest) =>
        if rest ≠ [] then .error (.otsError "trailing bytes in the block header attestation")
        else if atag = bitcoinTag then .ok (.bitcoin height)
        else .ok (.unknown (Bytes.hexText atag))
  else .ok (.unknown (Bytes.hexText atag))

/-- `read_attestation`: the attestation whose marker byte was just read. -/
def readAttestation (data : Bytes) : Except Exc (Attestation × Bytes) :=
  if (data.take 8).length ≠ 8 then .error (.otsError "truncated attestation tag")
  else
    match readVarbytes (data.drop 8) maxAttestationPayload 0 with
    | .error e => .error e
    | .ok (payload, rest) =>
        match readPayload (data.take 8) payload with
        | .error e => .error e
        | .ok attestation => .ok (attestation, rest)

/-- The message after the operation whose tag was just read. -/
def readOperation (tag : UInt8) (data msg : Bytes) : Except Exc (Bytes × Bytes) :=
  if tag = opSha256 then .ok (Sha256.digest msg, data)
  else if tag = opAppend then
    match readVarbytes data maxOperand 1 with
    | .error e => .error e
    | .ok (operand, rest) => .ok (msg ++ operand, rest)
  else if tag = opPrepend then
    match readVarbytes data maxOperand 1 with
    | .error e => .error e
    | .ok (operand, rest) => .ok (operand ++ msg, rest)
  else .error (.otsError ("unsupported op 0x" ++ String.ofList (Bytes.hexText [tag])))

/-- What an iteration of `parse_ots` reads: an operation, or the attestation that ends it. -/
inductive Next
  | again (rest msg : Bytes) (ops : Nat)
  | done (attestation : Attestation) (rest msg : Bytes)

/-- One iteration of the loop's body, from the bytes `rest` on. -/
def parseStep (rest msg : Bytes) (ops : Nat) : Except Exc Next :=
  match rest with
  | [] => .error (.otsError "truncated: no attestation")
  | tag :: tail =>
      if tag = attestationMarker then
        match readAttestation tail with
        | .error e => .error e
        | .ok (attestation, tail) =>
            if tail ≠ [] then .error (.otsError "trailing bytes after the attestation")
            else .ok (.done attestation rest msg)
      else if tag = forkMarker then
        .error (.otsError "non-linear timestamp (fork marker); use the ots client")
      else if msg.length > maxMsg then
        .error (.otsError ("message longer than " ++ toString maxMsg ++ " bytes"))
      else
        match readOperation tag tail msg with
        | .error e => .error e
        | .ok (new, tail) =>
            if new.length > maxOperand then
              .error (.otsError ("result longer than " ++ toString maxOperand ++ " bytes"))
            else if ops + 1 > maxOpsOnAPath then
              .error (.otsError
                  ("more than " ++ toString maxOpsOnAPath ++ " operations on one path"))
            else .ok (.again tail new (ops + 1))

/-- The loop, for at most `fuel` iterations: the attestation, the bytes from its marker on and
the message it is about. -/
def parseLoop : Nat → Bytes → Bytes → Nat → Except Exc (Attestation × Bytes × Bytes)
  | 0, _, _, _ => .error .unfinished
  | fuel + 1, rest, msg, ops =>
      match parseStep rest msg ops with
      | .error e => .error e
      | .ok (.done attestation marker commitment) => .ok (attestation, marker, commitment)
      | .ok (.again rest msg ops) => parseLoop fuel rest msg ops

/-- The digest of a detached proof, and the bytes after it. -/
def parseHeader (data : Bytes) : Except Exc (Bytes × Bytes) :=
  if data.take magic.length ≠ magic then
    .error (.otsError "not an OpenTimestamps proof (bad magic)")
  else
    match readVaruint (data.drop magic.length) with
    | .error e => .error e
    | .ok (v, rest) =>
        if v ≠ version then .error (.otsError ("unsupported proof version " ++ toString v))
        else if rest.head? ≠ some opSha256 then .error (.otsError "file hash op is not sha256")
        else
          let digest := (rest.drop 1).take 32
          if digest.length ≠ 32 then .error (.otsError "truncated digest")
          else .ok (digest, (rest.drop 1).drop 32)

/-- `parse_ots`. -/
def parseOts (data : Bytes) : Except Exc Proof :=
  match parseHeader data with
  | .error e => .error e
  | .ok (digest, body) =>
      match parseLoop (body.length + 1) body digest 0 with
      | .error e => .error e
      | .ok (attestation, marker, commitment) =>
          .ok ⟨digest, commitment, attestation, data.length - marker.length⟩

def buildOts (digest response : Bytes) : Except Exc Bytes :=
  let ots := magic ++ varuint version ++ [opSha256] ++ digest ++ response
  match parseOts ots with
  | .error e => .error e
  | .ok proof =>
      if proof.digest ≠ digest then .error (.otsError "digest mismatch while building the proof")
        else .ok ots

def spliceUpgrade (ots response : Bytes) : Except Exc Bytes :=
  match parseOts ots with
  | .error e => .error e
  | .ok proof =>
      match proof.attestation with
      | .pending _ =>
          let upgraded := ots.take proof.opsEnd ++ response
          match parseOts upgraded with
          | .error e => .error e
          | .ok new =>
              match new.attestation with
              | .bitcoin _ =>
                  if new.digest ≠ proof.digest then
                    .error (.otsError "digest changed by the upgrade")
                  else .ok upgraded
              | _ => .error (.otsError "upgrade response carries no Bitcoin attestation")
      | _ => .error (.otsError "proof is not pending")

end OtsServer.Selfstamp
