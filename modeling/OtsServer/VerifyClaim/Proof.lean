import OtsServer.Library.Sha256

/-!
# Reading a detached proof

`parseProof` is `ops/verify_claim.py`'s reader of OpenTimestamps proof bytes. The
source walks `data` with a position; here each reader takes the bytes from that
position on and returns what is left, so `data[pos:pos + n]` is a prefix of the
remaining bytes. The walk over the forked tree is one loop with an explicit stack
of resume points: `walkStep` is one iteration of its body, `walk` the loop.

`Exc` also has the exceptions that the source's lookups and decodings could raise,
so that "`ProofError`, and only `ProofError`" is a statement about the model and not
a consequence of its types.
-/

namespace OtsServer.VerifyClaim

/-- The exceptions an operation of the reader can raise. `unfinished` stands for a
loop that has not ended within the iterations it was given. -/
inductive Exc
  | proofError (text : String)
  | keyError
  | unicodeDecodeError
  | unfinished
deriving DecidableEq

/-- `b'\x00OpenTimestamps\x00\x00Proof\x00\xbf\x89\xe2\xe8\x84\xe8\x92\x94'`. -/
def magic : Bytes :=
  [0x00, 0x4f, 0x70, 0x65, 0x6e, 0x54, 0x69, 0x6d, 0x65, 0x73, 0x74, 0x61, 0x6d, 0x70, 0x73, 0x00,
   0x00, 0x50, 0x72, 0x6f, 0x6f, 0x66, 0x00, 0xbf, 0x89, 0xe2, 0xe8, 0x84, 0xe8, 0x92, 0x94]

def version : Nat := 1
def opSha256 : UInt8 := 0x08
def opAppend : UInt8 := 0xf0
def opPrepend : UInt8 := 0xf1
def attestationMarker : UInt8 := 0x00
def forkMarker : UInt8 := 0xff

def pendingTag : Bytes := [0x83, 0xdf, 0xe3, 0x0d, 0x2e, 0xf9, 0x0c, 0x8e]
def bitcoinTag : Bytes := [0x05, 0x88, 0x96, 0x0d, 0x73, 0xd7, 0x19, 0x01]
def heightTags : List Bytes :=
  [bitcoinTag, [0x06, 0x86, 0x9a, 0x0d, 0x73, 0xd7, 0x1b, 0x45],
   [0x30, 0xfe, 0x80, 0x87, 0xb5, 0xc7, 0xea, 0xd7]]

def maxOperand : Nat := 4096
def maxMsg : Nat := 4096
def maxAttestationPayload : Nat := 8192
def maxUri : Nat := 1000
def maxOpsOnAPath : Nat := 255
def maxVaruintBytes : Nat := 10

/-- `URI_CHARS`: letters, digits and `-._/:`. -/
def isUriChar (b : UInt8) : Bool :=
  (0x61 ≤ b && b ≤ 0x7a) || (0x41 ≤ b && b ≤ 0x5a) || (0x30 ≤ b && b ≤ 0x39) ||
    b == 0x2d || b == 0x2e || b == 0x5f || b == 0x2f || b == 0x3a

/-- The operations `OP_NAMES` names. -/
inductive OpName
  | sha256 | append | prepend
deriving DecidableEq

/-- `OP_NAMES[tag]`. -/
def opNames (tag : UInt8) : Except Exc OpName :=
  if tag = opSha256 then .ok .sha256
  else if tag = opAppend then .ok .append
  else if tag = opPrepend then .ok .prepend
  else .error .keyError

/-- One replayed operation of a path: `(name, operand, result)`. -/
structure Step where
  name : OpName
  operand : Bytes
  result : Bytes
deriving DecidableEq

/-- `'pending'`, `'bitcoin'` or `'unknown:<tag hex>'`. -/
inductive Kind
  | pending
  | bitcoin
  | unknown (tag : Bytes)
deriving DecidableEq

structure Attestation where
  kind : Kind
  height : Option Nat
  uri : Option (List Char)
  msg : Bytes
  path : List Step
deriving DecidableEq

structure Parsed where
  digest : Bytes
  attestations : List Attestation
deriving DecidableEq

/-- `bytes.decode('ascii')`. -/
def decodeAscii (bs : Bytes) : Except Exc (List Char) :=
  if bs.all (· < 0x80) then .ok (bs.map fun b => Char.ofNat b.toNat) else .error .unicodeDecodeError

/-- The loop of `read_varuint`, after `count` bytes have given `value`. -/
def readVaruintLoop (value shift count : Nat) : Bytes → Except Exc (Nat × Bytes)
  | [] => .error (.proofError "truncated varuint")
  | byte :: rest =>
      if count ≥ maxVaruintBytes then
        .error (.proofError ("varuint longer than " ++ toString maxVaruintBytes ++ " bytes"))
      else
        let value := value ||| ((byte &&& 0x7f).toNat <<< shift)
        if byte &&& 0x80 = 0 then .ok (value, rest)
        else readVaruintLoop value (shift + 7) (count + 1) rest

def readVaruint (data : Bytes) : Except Exc (Nat × Bytes) := readVaruintLoop 0 0 0 data

def readVarbytes (data : Bytes) (maxLen minLen : Nat) : Except Exc (Bytes × Bytes) :=
  match readVaruint data with
  | .error e => .error e
  | .ok (length, rest) =>
      if length > maxLen then
        .error (.proofError ("varbytes longer than " ++ toString maxLen ++ " bytes"))
      else if length < minLen then
        .error (.proofError ("varbytes shorter than " ++ toString minLen ++ " byte"))
      else if length > rest.length then .error (.proofError "truncated varbytes")
      else .ok (rest.take length, rest.drop length)

/-- What a payload of each tag reads as; every known payload is read to its last byte. -/
def readPayload (atag payload msg : Bytes) (path : List Step) : Except Exc Attestation :=
  if atag = pendingTag then
    match readVarbytes payload maxUri 0 with
    | .error e => .error e
    | .ok (uri, rest) =>
        if rest ≠ [] then .error (.proofError "trailing bytes in the pending attestation")
        else if uri.any (fun b => !isUriChar b) then
          .error (.proofError "pending uri has a character outside the allowed set")
        else
          match decodeAscii uri with
          | .error e => .error e
          | .ok text => .ok ⟨.pending, none, some text, msg, path⟩
  else if atag ∈ heightTags then
    match readVaruint payload with
    | .error e => .error e
    | .ok (height, rest) =>
        if rest ≠ [] then .error (.proofError "trailing bytes in the block header attestation")
        else if atag = bitcoinTag then .ok ⟨.bitcoin, some height, none, msg, path⟩
        else .ok ⟨.unknown atag, none, none, msg, path⟩
  else .ok ⟨.unknown atag, none, none, msg, path⟩

/-- `_read_attestation`: the attestation whose marker byte was just read. -/
def readAttestation (data msg : Bytes) (path : List Step) : Except Exc (Attestation × Bytes) :=
  if (data.take 8).length ≠ 8 then .error (.proofError "truncated attestation tag")
  else
    match readVarbytes (data.drop 8) maxAttestationPayload 0 with
    | .error e => .error e
    | .ok (payload, rest) =>
        match readPayload (data.take 8) payload msg path with
        | .error e => .error e
        | .ok attestation => .ok (attestation, rest)

/-- The operand and the result of the operation whose tag was just read. -/
def readOperation (tag : UInt8) (data msg : Bytes) : Except Exc (Bytes × Bytes × Bytes) :=
  if tag = opSha256 then .ok ([], Sha256.digest msg, data)
  else if tag = opAppend then
    match readVarbytes data maxOperand 1 with
    | .error e => .error e
    | .ok (operand, rest) => .ok (operand, msg ++ operand, rest)
  else if tag = opPrepend then
    match readVarbytes data maxOperand 1 with
    | .error e => .error e
    | .ok (operand, rest) => .ok (operand, operand ++ msg, rest)
  else
    .error (.proofError ("unsupported op 0x" ++ String.ofList (Bytes.hexText [tag]) ++
      ": the calendar never emits it; use the ots client"))

/-- A resume point: the message, path and operation count a sibling branch starts with. -/
structure Resume where
  msg : Bytes
  path : List Step
  ops : Nat

/-- The loop's variables; `rest` is `data[pos:]`. -/
structure Walk where
  rest : Bytes
  msg : Bytes
  path : List Step
  ops : Nat
  afterFork : Bool
  pending : List Resume
  out : List Attestation

/-- Where an iteration of the loop leaves off: going round, or broken out with the
attestations and the bytes that follow the last one. -/
inductive Walk.Next
  | again (w : Walk)
  | done (out : List Attestation) (rest : Bytes)

/-- The last branch of a timestamp has ended: the open fork's sibling is next, or nothing. -/
def Walk.resume (rest : Bytes) (out : List Attestation) : List Resume → Walk.Next
  | [] => .done out rest
  | r :: pending => .again ⟨rest, r.msg, r.path, r.ops, false, pending, out⟩

/-- One iteration of the loop's body. -/
def walkStep (w : Walk) : Except Exc Walk.Next :=
  match w.rest with
  | [] => .error (.proofError "truncated: no attestation")
  | tag :: rest =>
      if tag = forkMarker then
        if w.afterFork then
          .error (.proofError "a fork marker followed by another fork marker")
        else
          .ok (.again { w with
            rest := rest, pending := ⟨w.msg, w.path, w.ops⟩ :: w.pending, afterFork := true })
      else if tag = attestationMarker then
        match readAttestation rest w.msg w.path with
        | .error e => .error e
        | .ok (attestation, rest) => .ok (Walk.resume rest (w.out ++ [attestation]) w.pending)
      else if w.msg.length > maxMsg then
        .error (.proofError ("message longer than " ++ toString maxMsg ++ " bytes"))
      else
        match readOperation tag rest w.msg with
        | .error e => .error e
        | .ok (operand, new, rest) =>
            if new.length > maxOperand then
              .error (.proofError ("result longer than " ++ toString maxOperand ++ " bytes"))
            else
              match opNames tag with
              | .error e => .error e
              | .ok name =>
                  if w.ops + 1 > maxOpsOnAPath then
                    .error (.proofError
                      ("more than " ++ toString maxOpsOnAPath ++ " operations on one path"))
                  else
                    .ok (.again { w with
                      rest := rest, msg := new, path := w.path ++ [⟨name, operand, new⟩]
                      ops := w.ops + 1, afterFork := false })

/-- The loop, for at most `fuel` iterations. -/
def walk : Nat → Walk → Except Exc (List Attestation × Bytes)
  | 0, _ => .error .unfinished
  | fuel + 1, w =>
      match walkStep w with
      | .error e => .error e
      | .ok (.done out rest) => .ok (out, rest)
      | .ok (.again w) => walk fuel w

/-- The proof after its digest: the whole timestamp, and nothing after it. -/
def parseTimestamp (digest data : Bytes) : Except Exc Parsed :=
  match walk (data.length + 1) ⟨data, digest, [], 0, false, [], []⟩ with
  | .error e => .error e
  | .ok (out, rest) =>
      if rest ≠ [] then .error (.proofError "trailing bytes after the proof")
      else .ok ⟨digest, out⟩

def parseProof (data : Bytes) : Except Exc Parsed :=
  if data.take magic.length ≠ magic then
    .error (.proofError "not an OpenTimestamps proof (bad magic)")
  else
    match readVaruint (data.drop magic.length) with
    | .error e => .error e
    | .ok (v, rest) =>
        if v ≠ version then .error (.proofError ("unsupported proof version " ++ toString v))
        else if rest.head? ≠ some opSha256 then
          .error (.proofError "file hash op is not sha256")
        else
          let digest := (rest.drop 1).take 32
          if digest.length ≠ 32 then .error (.proofError "truncated digest")
          else parseTimestamp digest ((rest.drop 1).drop 32)

end OtsServer.VerifyClaim
