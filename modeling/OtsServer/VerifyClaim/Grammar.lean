import OtsServer.VerifyClaim.Proof

/-!
# The grammar of detached proofs

This is the reading a proof is supposed to have, stated without a parser: a
timestamp is zero or more fork-marked branches and then a last branch; a branch is
one attestation, or one operation and a timestamp of its result. `Encodes` says
which byte strings spell a syntax tree. It is a relation and not a function because
a varuint may be spelled with leading zero groups. `attestations` reads a tree from
a message, replaying the operations on the way down.

The limits are stated on the reading: every path has at most 255 operations, and
every result on a path is at most 4096 bytes.
-/

namespace OtsServer.VerifyClaim

/-- Little-endian groups of seven bits, every byte but the last with its high bit set. -/
inductive VaruintGroups : Bytes → Nat → Prop
  | last {b : UInt8} : b.toNat < 128 → VaruintGroups [b] b.toNat
  | more {b : UInt8} {bs : Bytes} {n : Nat} : 128 ≤ b.toNat → VaruintGroups bs n →
      VaruintGroups (b :: bs) (b.toNat - 128 + 128 * n)

def IsVaruint (bs : Bytes) (n : Nat) : Prop :=
  VaruintGroups bs n ∧ bs.length ≤ maxVaruintBytes

/-- A length and that many bytes. -/
def IsVarbytes (maxLen minLen : Nat) (bs payload : Bytes) : Prop :=
  ∃ length, bs = length ++ payload ∧ IsVaruint length payload.length ∧
    minLen ≤ payload.length ∧ payload.length ≤ maxLen

/-- An attestation as it stands in the bytes. -/
inductive Notary
  | pending (uri : Bytes)
  | height (tag : Bytes) (n : Nat)
  | unknown (tag payload : Bytes)

namespace Notary

def tag : Notary → Bytes
  | pending _ => pendingTag
  | height tag _ => tag
  | unknown tag _ => tag

/-- Which payloads an attestation may have. Known payloads are spelled out whole. -/
def Payload : Notary → Bytes → Prop
  | pending uri, payload => IsVarbytes maxUri 0 payload uri ∧ ∀ b ∈ uri, isUriChar b
  | height tag n, payload => tag ∈ heightTags ∧ IsVaruint payload n
  | unknown tag body, payload =>
      tag.length = 8 ∧ tag ≠ pendingTag ∧ tag ∉ heightTags ∧ payload = body

/-- The bytes after the attestation marker. -/
def Encodes (a : Notary) (bs : Bytes) : Prop :=
  ∃ field payload, bs = a.tag ++ field ∧ IsVarbytes maxAttestationPayload 0 field payload ∧
    a.Payload payload

/-- What the reader reports: only Bitcoin is a usable height. -/
def attestation (msg : Bytes) (path : List Step) : Notary → Attestation
  | pending uri => ⟨.pending, none, some (uri.map fun b => Char.ofNat b.toNat), msg, path⟩
  | height tag n =>
      if tag = bitcoinTag then ⟨.bitcoin, some n, none, msg, path⟩
      else ⟨.unknown tag, none, none, msg, path⟩
  | unknown tag _ => ⟨.unknown tag, none, none, msg, path⟩

@[simp] theorem attestation_msg (a : Notary) (msg : Bytes) (path : List Step) :
    (a.attestation msg path).msg = msg := by
  cases a <;> simp [attestation, apply_ite Attestation.msg]

@[simp] theorem attestation_path (a : Notary) (msg : Bytes) (path : List Step) :
    (a.attestation msg path).path = path := by
  cases a <;> simp [attestation, apply_ite Attestation.path]

end Notary

inductive Op
  | sha256
  | append (operand : Bytes)
  | prepend (operand : Bytes)

namespace Op

def name : Op → OpName
  | sha256 => .sha256
  | append _ => .append
  | prepend _ => .prepend

def operand : Op → Bytes
  | sha256 => []
  | append operand => operand
  | prepend operand => operand

def apply : Op → Bytes → Bytes
  | sha256, msg => Sha256.digest msg
  | append operand, msg => msg ++ operand
  | prepend operand, msg => operand ++ msg

def step (o : Op) (msg : Bytes) : Step := ⟨o.name, o.operand, o.apply msg⟩

/-- The operation's bytes: its tag, and the operand when it has one. -/
def Encodes : Op → Bytes → Prop
  | sha256, bs => bs = [opSha256]
  | append operand, bs => ∃ field, bs = opAppend :: field ∧ IsVarbytes maxOperand 1 field operand
  | prepend operand, bs => ∃ field, bs = opPrepend :: field ∧ IsVarbytes maxOperand 1 field operand

end Op

mutual

inductive Timestamp
  | last (branch : Branch)
  | fork (branch : Branch) (rest : Timestamp)

inductive Branch
  | attest (notary : Notary)
  | op (op : Op) (next : Timestamp)

end

mutual

def Timestamp.Encodes : Timestamp → Bytes → Prop
  | .last b, bs => b.Encodes bs
  | .fork b t, bs => ∃ xs ys, bs = forkMarker :: (xs ++ ys) ∧ b.Encodes xs ∧ t.Encodes ys

def Branch.Encodes : Branch → Bytes → Prop
  | .attest a, bs => ∃ xs, bs = attestationMarker :: xs ∧ a.Encodes xs
  | .op o t, bs => ∃ xs ys, bs = xs ++ ys ∧ o.Encodes xs ∧ t.Encodes ys

end

mutual

/-- The attestations of a timestamp of `msg`, in order, each with its replayed path. -/
def Timestamp.attestations (msg : Bytes) (path : List Step) : Timestamp → List Attestation
  | .last b => b.attestations msg path
  | .fork b t => b.attestations msg path ++ t.attestations msg path

def Branch.attestations (msg : Bytes) (path : List Step) : Branch → List Attestation
  | .attest a => [a.attestation msg path]
  | .op o t => t.attestations (o.apply msg) (path ++ [o.step msg])

end

mutual

/-- A timestamp without a fork marker. -/
def Timestamp.Linear : Timestamp → Prop
  | .last b => b.Linear
  | .fork _ _ => False

def Branch.Linear : Branch → Prop
  | .attest _ => True
  | .op _ t => t.Linear

end

/-- The limits a path must keep: its number of operations and the size of every result. -/
def PathWithinLimits (path : List Step) : Prop :=
  path.length ≤ maxOpsOnAPath ∧ ∀ s ∈ path, s.result.length ≤ maxMsg

/-- The whole file: magic, version, file hash operation, digest and one timestamp, read
as `parsed`. -/
def IsProof (data : Bytes) (parsed : Parsed) : Prop :=
  ∃ (v body : Bytes) (t : Timestamp),
    data = magic ++ v ++ opSha256 :: (parsed.digest ++ body) ∧ IsVaruint v version ∧
    parsed.digest.length = 32 ∧ t.Encodes body ∧
    parsed.attestations = t.attestations parsed.digest [] ∧
    ∀ a ∈ parsed.attestations, PathWithinLimits a.path

/-- The same of a proof whose timestamp has no fork marker. -/
def IsLinearProof (data : Bytes) (parsed : Parsed) : Prop :=
  ∃ (v body : Bytes) (t : Timestamp),
    data = magic ++ v ++ opSha256 :: (parsed.digest ++ body) ∧ IsVaruint v version ∧
    parsed.digest.length = 32 ∧ t.Encodes body ∧ t.Linear ∧
    parsed.attestations = t.attestations parsed.digest [] ∧
    ∀ a ∈ parsed.attestations, PathWithinLimits a.path

/-- A path leads from one message to another: every step's result is its operation on
the result before it. -/
inductive Replays : Bytes → List Step → Bytes → Prop
  | nil (msg : Bytes) : Replays msg [] msg
  | cons (o : Op) (msg : Bytes) {path : List Step} {final : Bytes} :
      Replays (o.apply msg) path final → Replays msg (o.step msg :: path) final

theorem Replays.snoc {msg final : Bytes} {path : List Step} (h : Replays msg path final) (o : Op) :
    Replays msg (path ++ [o.step final]) (o.apply final) := by
  induction h with
  | nil msg => exact .cons o msg (.nil _)
  | cons p msg _ ih => exact .cons p msg ih

mutual

/-- Every attestation of a timestamp carries a replay of the path that leads to it. -/
theorem Timestamp.attestations_replay {start msg : Bytes} {path : List Step}
    (h : Replays start path msg) :
    ∀ (t : Timestamp), ∀ a ∈ t.attestations msg path, Replays start a.path a.msg
  | .last b, a, ha => b.attestations_replay h a ha
  | .fork b t, a, ha => by
      simp only [Timestamp.attestations, List.mem_append] at ha
      rcases ha with ha | ha
      · exact b.attestations_replay h a ha
      · exact t.attestations_replay h a ha

theorem Branch.attestations_replay {start msg : Bytes} {path : List Step}
    (h : Replays start path msg) :
    ∀ (b : Branch), ∀ a ∈ b.attestations msg path, Replays start a.path a.msg
  | .attest n, a, ha => by
      simp only [Branch.attestations, List.mem_singleton] at ha
      subst ha
      simpa using h
  | .op o t, a, ha => t.attestations_replay (h.snoc o) a ha

end

mutual

/-- A timestamp has an attestation, and its path continues the path the timestamp is at. -/
theorem Timestamp.exists_attestation (msg : Bytes) (path : List Step) :
    ∀ (t : Timestamp), ∃ a ∈ t.attestations msg path, path <+: a.path
  | .last b => b.exists_attestation msg path
  | .fork b t => by
      obtain ⟨a, ha, hp⟩ := b.exists_attestation msg path
      exact ⟨a, by simp only [Timestamp.attestations, List.mem_append]; exact .inl ha, hp⟩

theorem Branch.exists_attestation (msg : Bytes) (path : List Step) :
    ∀ (b : Branch), ∃ a ∈ b.attestations msg path, path <+: a.path
  | .attest n => ⟨n.attestation msg path, by simp [Branch.attestations], by simp⟩
  | .op o t => by
      obtain ⟨a, ha, hp⟩ := t.exists_attestation (o.apply msg) (path ++ [o.step msg])
      exact ⟨a, ha, (List.prefix_append path [o.step msg]).trans hp⟩

end

theorem Timestamp.length_attestations_pos (t : Timestamp) (msg : Bytes) (path : List Step) :
    0 < (t.attestations msg path).length := by
  obtain ⟨a, ha, -⟩ := t.exists_attestation msg path
  exact List.length_pos_of_mem ha

theorem Branch.length_attestations_pos (b : Branch) (msg : Bytes) (path : List Step) :
    0 < (b.attestations msg path).length := by
  obtain ⟨a, ha, -⟩ := b.exists_attestation msg path
  exact List.length_pos_of_mem ha

mutual

/-- A timestamp has no fork marker exactly if it has one attestation. -/
theorem Timestamp.linear_iff (msg : Bytes) (path : List Step) :
    ∀ (t : Timestamp), t.Linear ↔ (t.attestations msg path).length = 1
  | .last b => b.linear_iff msg path
  | .fork b t => by
      have hb := b.length_attestations_pos msg path
      have ht := t.length_attestations_pos msg path
      simp only [Timestamp.Linear, Timestamp.attestations, List.length_append, false_iff]
      omega

theorem Branch.linear_iff (msg : Bytes) (path : List Step) :
    ∀ (b : Branch), b.Linear ↔ (b.attestations msg path).length = 1
  | .attest n => by simp [Branch.Linear, Branch.attestations]
  | .op o t => t.linear_iff (o.apply msg) (path ++ [o.step msg])

end

theorem PathWithinLimits.mono {path path' : List Step} (h : PathWithinLimits path')
    (hp : path <+: path') : PathWithinLimits path :=
  ⟨hp.length_le.trans h.1, fun s hs => h.2 s (hp.subset hs)⟩

theorem IsProof.linear_iff {data : Bytes} {parsed : Parsed} (h : IsProof data parsed) :
    IsLinearProof data parsed ↔ parsed.attestations.length = 1 := by
  obtain ⟨v, body, t, hdata, hv, hdigest, henc, hatt, hlimits⟩ := h
  constructor
  · rintro ⟨v', body', t', -, -, -, -, hlinear, hatt', -⟩
    rw [hatt']
    exact (t'.linear_iff _ _).mp hlinear
  · intro hone
    refine ⟨v, body, t, hdata, hv, hdigest, henc, (t.linear_iff parsed.digest []).mpr ?_,
      hatt, hlimits⟩
    rwa [← hatt]

end OtsServer.VerifyClaim
