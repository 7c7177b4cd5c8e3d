import OtsServer.VerifyClaim.Verdict
import OtsServer.VerifyClaim.Grammar

/-!
# The not-before bound, written and read

`Calendar.submit` appends the hash of the newest block it knows, hashes, and puts the time before
the result. `describe_path` finds the hash again by the shape of the operations around it, which a
step of the merkle tree below has as well.
-/

namespace OtsServer.VerifyClaim

/-! ## What is written -/

/-- The replayed operations, from a message on. -/
def replay (msg : Bytes) : List Op → List Step
  | [] => []
  | o :: ops => o.step msg :: replay (o.apply msg) ops

/-- A hash beside which a node of a merkle tree stands. -/
structure Sibling where
  onRight : Bool
  hash : Bytes
  length : hash.length = 32

/-- The operation that joins a node with its sibling. -/
def Sibling.join (sib : Sibling) : Op := if sib.onRight then .append sib.hash else .prepend sib.hash

/-- The operations that `make_merkle_tree` adds, from a node up. -/
def merkleOps (sibs : List Sibling) : List Op := sibs.flatMap fun sib => [sib.join, .sha256]

/-- `nonce_timestamp`: 16 random bytes. -/
structure Nonce where
  bytes : Bytes
  length : bytes.length = 16

def nonceOps (nonce : Nonce) : List Op := [.append nonce.bytes, .sha256]

/-- A block hash, in internal byte order. -/
structure BlockHash where
  bytes : Bytes
  length : bytes.length = 32

/-- The time of a commitment, which `struct.pack('>L', idx)` takes, and its MAC. -/
structure Commitment where
  idx : Nat
  idx_lt : idx < 2 ^ 32
  mac : Bytes
  mac_length : mac.length = 8

/-- What `Calendar.submit` adds; `best` is what `best_block_hash` knows, which it appends in
display order. -/
def submitOps (best : Option BlockHash) (c : Commitment) : List Op :=
  (match best with
    | some hash => [.append hash.bytes.reverse, .sha256]
    | none => []) ++ [.prepend (Bytes.ofNatBE 4 c.idx), .append c.mac]

/-- An anchor transaction around the tip of a tree, and the tree of its block: what stands before
the tip holds the version, the inputs and the value of an output. -/
structure Anchor where
  tree : List Sibling
  before : Bytes
  before_length : 4 < before.length
  after : Bytes
  block : List Sibling

def anchorOps (a : Anchor) : List Op :=
  .sha256 :: merkleOps a.tree ++ [.prepend a.before, .append a.after, .sha256, .sha256] ++
    a.block.flatMap fun sib => [sib.join, .sha256, .sha256]

/-- The operations from a digest to the block that attests it. -/
def writtenOps (nonce : Nonce) (sibs : List Sibling) (best : Option BlockHash)
    (c : Commitment) (a : Anchor) : List Op :=
  nonceOps nonce ++ merkleOps sibs ++ submitOps best c ++ anchorOps a

/-! ## What is read -/

/-- `struct.unpack('>L', _)` undoes `struct.pack('>L', _)`. -/
theorem natBE_ofNatBE {n : Nat} (h : n < 2 ^ 32) : Bytes.natBE (Bytes.ofNatBE 4 n) = n := by
  simp only [Bytes.natBE, Bytes.ofNatBE,
    List.range_succ, List.range_zero, List.nil_append, List.cons_append,
    List.map_cons, List.map_nil, List.foldl_cons, List.foldl_nil, UInt8.toNat_ofNat']
  omega

section Read

variable {msg : Bytes} {before : Option OpName} {bound : Option Bytes} {clock : Option Nat}

/-- An operation that is neither the bound nor the clock is passed over. -/
theorem describeLoop_pass {o : Op} {ops : List Op}
    (hbound : isBound (o.step msg) (replay (o.apply msg) ops) = false)
    (hclock : isClock before (o.step msg) (replay (o.apply msg) ops) = false) :
    describeLoop before bound clock (replay msg (o :: ops)) =
      describeLoop (some o.name) bound clock (replay (o.apply msg) ops) := by
  rw [replay, describeLoop, hbound, hclock]
  rfl

@[simp] theorem describeLoop_sha256 (before : Option OpName) (ops : List Op) :
    describeLoop before bound clock (replay msg (.sha256 :: ops)) =
      describeLoop (some .sha256) bound clock (replay (Op.sha256.apply msg) ops) :=
  describeLoop_pass rfl rfl

/-- An operand of another length than 4 is put before without being taken for the clock. -/
theorem describeLoop_prepend {operand : Bytes} (ops : List Op) (h : operand.length ≠ 4) :
    describeLoop before bound clock (replay msg (.prepend operand :: ops)) =
      describeLoop (some .prepend) bound clock (replay ((Op.prepend operand).apply msg) ops) := by
  apply describeLoop_pass
  · rfl
  · simp [isClock, Op.step, Op.operand, h]

/-- An operand of another length than 32 is appended without being taken for the bound. -/
theorem describeLoop_append {operand : Bytes} (ops : List Op) (h : operand.length ≠ 32) :
    describeLoop before bound clock (replay msg (.append operand :: ops)) =
      describeLoop (some .append) bound clock (replay ((Op.append operand).apply msg) ops) := by
  apply describeLoop_pass
  · simp [isBound, Op.step, Op.operand, h]
  · rfl

/-- The operations begin with one that puts four bytes before the message. -/
def startsClock : List Op → Bool
  | .prepend operand :: _ => operand.length == 4
  | _ => false

/-- A 32-byte append before a hash is the bound exactly when a 4-byte prepend follows. -/
theorem isBound_hashed {operand after : Bytes} (ops : List Op) (h : operand.length = 32) :
    isBound ((Op.append operand).step msg) (replay after (.sha256 :: ops)) = startsClock ops := by
  cases ops with
  | nil => simp [replay, isBound, startsClock]
  | cons o ops => cases o <;> simp [replay, isBound, startsClock, Op.step, Op.name, Op.operand, h]

theorem describeLoop_hashed {operand : Bytes} (ops : List Op) (h : operand.length = 32) :
    describeLoop before bound clock (replay msg (.append operand :: .sha256 :: ops)) =
      describeLoop (some .sha256) (if startsClock ops then some operand.reverse else bound) clock
        (replay (Op.sha256.apply ((Op.append operand).apply msg)) ops) := by
  rw [replay, describeLoop, isBound_hashed ops h]
  cases startsClock ops with
  | true => exact describeLoop_sha256 (some .append) ops
  | false =>
      have hclock (rest : List Step) : isClock before ((Op.append operand).step msg) rest =
        false := rfl
      rw [if_neg Bool.false_ne_true, hclock]
      exact describeLoop_sha256 (some .append) ops

/-- The siblings of an anchor's block, each followed by two hashes, are all passed over. -/
theorem describeLoop_block (block : List Sibling) :
    describeLoop before bound clock
      (replay msg (block.flatMap fun sib => [sib.join, .sha256, .sha256])) = (bound, clock) := by
  induction block generalizing msg before with
  | nil => rfl
  | cons sib block ih =>
      simp only [List.flatMap_cons, List.cons_append, List.nil_append]
      cases hside : sib.onRight with
      | true =>
          rw [Sibling.join, if_pos hside, describeLoop_hashed _ sib.length, describeLoop_sha256]
          exact ih
      | false =>
          rw [Sibling.join, if_neg (by simp [hside]), describeLoop_prepend _ (by simp [sib.length]),
            describeLoop_sha256, describeLoop_sha256]
          exact ih

/-- What is read as the bound over a merkle tree's siblings, when `ops` follow: the last sibling,
when it stands on the right and a 4-byte prepend comes next. -/
def boundOver (sibs : List Sibling) (ops : List Op) (bound : Option Bytes) : Option Bytes :=
  match sibs.getLast? with
  | some sib => if sib.onRight && startsClock ops then some sib.hash.reverse else bound
  | none => bound

theorem boundOver_cons_cons (a b : Sibling) (sibs : List Sibling) (ops : List Op) :
    boundOver (a :: b :: sibs) ops bound = boundOver (b :: sibs) ops bound := by
  rw [boundOver, boundOver, List.getLast?_cons_cons]

/-- Between two siblings no clock starts, whichever side the second stands on. -/
theorem not_startsClock_join (sib : Sibling) (ops : List Op) :
    startsClock (sib.join :: ops) = false := by
  cases h : sib.onRight <;> simp [Sibling.join, h, startsClock, sib.length]

/-- One sibling and its hash. -/
theorem describeLoop_sibling (sib : Sibling) (ops : List Op) :
    ∃ after, describeLoop before bound clock (replay msg (sib.join :: .sha256 :: ops)) =
      describeLoop (some .sha256) (boundOver [sib] ops bound) clock (replay after ops) := by
  refine ⟨Op.sha256.apply (sib.join.apply msg), ?_⟩
  cases hside : sib.onRight with
  | true =>
      rw [Sibling.join, if_pos hside, describeLoop_hashed ops sib.length]
      simp [boundOver, hside]
  | false =>
      rw [Sibling.join, if_neg (by simp [hside]), describeLoop_prepend _ (by simp [sib.length]),
        describeLoop_sha256]
      simp [boundOver, hside]

/-- A merkle tree's operations, read from a hash on: only the last sibling can be taken for the
bound. -/
theorem describeLoop_merkleOps (sibs : List Sibling) (ops : List Op) :
    ∃ after, describeLoop (some .sha256) bound clock (replay msg (merkleOps sibs ++ ops)) =
      describeLoop (some .sha256) (boundOver sibs ops bound) clock (replay after ops) := by
  induction sibs generalizing msg with
  | nil => exact ⟨msg, rfl⟩
  | cons sib sibs ih =>
      obtain ⟨joined, hsib⟩ := describeLoop_sibling sib (merkleOps sibs ++ ops)
      cases sibs with
      | nil => exact ⟨joined, hsib⟩
      | cons next sibs =>
          have hquiet : startsClock (merkleOps (next :: sibs) ++ ops) = false :=
            not_startsClock_join next _
          have hsame : boundOver [sib] (merkleOps (next :: sibs) ++ ops) bound = bound := by
            simp [boundOver, hquiet]
          rw [hsame] at hsib
          obtain ⟨after, hrest⟩ := @ih joined
          exact ⟨after, by rw [boundOver_cons_cons, ← hrest]; exact hsib⟩

/-- What an anchor puts around its tip, with its block, is passed over. -/
theorem describeLoop_around (a : Anchor) :
    describeLoop before bound clock
      (replay msg (.prepend a.before :: .append a.after :: .sha256 :: .sha256 ::
      a.block.flatMap fun sib => [sib.join, .sha256, .sha256])) = (bound, clock) := by
  have hstart : a.before.length ≠ 4 := by
    have := a.before_length
    omega
  rw [describeLoop_prepend _ hstart]
  by_cases hlong : a.after.length = 32
  · rw [describeLoop_hashed _ hlong, describeLoop_sha256]
    exact describeLoop_block a.block
  · rw [describeLoop_append _ hlong, describeLoop_sha256, describeLoop_sha256]
    exact describeLoop_block a.block

/-- Nothing of an anchor or of its block is taken for the bound or for the clock. -/
theorem describeLoop_anchorOps (a : Anchor) :
    describeLoop before bound clock (replay msg (anchorOps a)) = (bound, clock) := by
  have hstart : (a.before.length == 4) = false := by
    have := a.before_length
    simp only [beq_eq_false_iff_ne, ne_eq]
    omega
  obtain ⟨tip, htree⟩ := @describeLoop_merkleOps (Op.sha256.apply msg) bound clock a.tree
    (.prepend a.before :: .append a.after :: .sha256 :: .sha256 ::
      a.block.flatMap fun sib => [sib.join, .sha256, .sha256])
  have hquiet (ops : List Op) : boundOver a.tree (.prepend a.before :: ops) bound = bound := by
    rw [boundOver, startsClock, hstart]
    cases a.tree.getLast? <;> simp
  rw [hquiet, describeLoop_around] at htree
  simpa [anchorOps] using htree

/-- The time and the MAC of a commitment, read from a hash on. -/
theorem describeLoop_commitment (c : Commitment) (ops : List Op) :
    ∃ after, describeLoop (some .sha256) bound clock
        (replay msg (.prepend (Bytes.ofNatBE 4 c.idx) :: .append c.mac :: ops)) =
      describeLoop (some .append) bound (some c.idx) (replay after ops) := by
  have hmac : c.mac.length ≠ 32 := by simp [c.mac_length]
  have hclock (after : Bytes) :
      isClock (some .sha256) ((Op.prepend (Bytes.ofNatBE 4 c.idx)).step msg)
      (replay after (.append c.mac :: ops)) = true := by
    simp [isClock, replay, Op.step, Op.name, Op.operand, c.mac_length]
  refine ⟨(Op.append c.mac).apply ((Op.prepend (Bytes.ofNatBE 4 c.idx)).apply msg), ?_⟩
  rw [replay, describeLoop, if_neg (by simp [isBound, Op.step, Op.name]), if_pos (hclock _),
    describeLoop_append ops hmac, Op.step, Op.operand, natBE_ofNatBE c.idx_lt]

end Read

/-! ## Both together -/

/-- What is read as the bound of a written path. -/
def readBound (sibs : List Sibling) : Option BlockHash → Option Bytes
  | some hash => some hash.bytes
  | none =>
      match sibs.getLast? with
      | some sib => if sib.onRight then some sib.hash.reverse else none
      | none => none

/-- What `describe_path` makes of every path that is written. -/
theorem describePath_writtenOps (digest : Bytes) (nonce : Nonce) (sibs : List Sibling)
    (best : Option BlockHash) (c : Commitment) (a : Anchor) :
    describePath (replay digest (writtenOps nonce sibs best c a)) =
      (readBound sibs best, some c.idx) := by
  obtain ⟨node, htree⟩ :=
    @describeLoop_merkleOps (Op.sha256.apply ((Op.append nonce.bytes).apply digest)) none none sibs
    (submitOps best c ++ anchorOps a)
  have hpath : describePath (replay digest (writtenOps nonce sibs best c a)) =
      describeLoop (some .sha256) (boundOver sibs (submitOps best c ++ anchorOps a) none) none
        (replay node (submitOps best c ++ anchorOps a)) := by
    rw [← htree, describePath, writtenOps, nonceOps, List.append_assoc, List.append_assoc]
    simp only [List.cons_append, List.nil_append]
    rw [describeLoop_append _ (by simp [nonce.length]), describeLoop_sha256]
  rw [hpath]
  cases best with
  | none =>
      obtain ⟨committed, hcommit⟩ :=
        @describeLoop_commitment node (boundOver sibs (submitOps none c ++ anchorOps a) none)
        none c (anchorOps a)
      refine hcommit.trans ((describeLoop_anchorOps a).trans ?_)
      have hstart : startsClock (submitOps none c ++ anchorOps a) = true := by
        simp [submitOps, startsClock]
      simp only [boundOver, hstart, readBound, Bool.and_true]
  | some hash =>
      have hlength : hash.bytes.reverse.length = 32 := by rw [List.length_reverse, hash.length]
      obtain ⟨committed, hcommit⟩ := @describeLoop_commitment
        (Op.sha256.apply ((Op.append hash.bytes.reverse).apply node)) (some hash.bytes) none c
          (anchorOps a)
      simp only [submitOps, List.cons_append, List.nil_append]
      rw [describeLoop_hashed _ hlength, startsClock, Bytes.ofNatBE_length,
        if_pos (by rfl), List.reverse_reverse]
      exact hcommit.trans (describeLoop_anchorOps a)

/-- The bound that was written is the bound that is read exactly when a block was known, or the last
step of the merkle tree below does not append its sibling. -/
theorem bound_read_back (digest : Bytes) (nonce : Nonce) (sibs : List Sibling)
    (best : Option BlockHash) (c : Commitment) (a : Anchor) :
    describePath (replay digest (writtenOps nonce sibs best c a)) =
        (best.map (·.bytes), some c.idx) ↔
      best.isSome ∨ ∀ sib ∈ sibs.getLast?, sib.onRight = false := by
  rw [describePath_writtenOps, Prod.mk.injEq, and_iff_left rfl]
  cases best with
  | some hash => simp [readBound]
  | none => cases h : sibs.getLast? <;> simp [readBound, h]

/-- A digest with one neighbour on its right, timestamped while no block is known: the neighbour is
read as the bound. -/
theorem sibling_read_as_bound :
    ¬∀ (digest : Bytes) (nonce : Nonce) (sibs : List Sibling) (best : Option BlockHash)
      (c : Commitment) (a : Anchor), describePath (replay digest (writtenOps nonce sibs best c a)) =
        (best.map (·.bytes), some c.idx) := by
  intro h
  have hread := h (List.replicate 32 0) ⟨List.replicate 16 1, rfl⟩
    [⟨true, List.replicate 32 2, rfl⟩] none ⟨1700000000, by decide, List.replicate 8 3, rfl⟩
    ⟨[], List.replicate 60 4, by decide, List.replicate 20 5, []⟩
  rw [describePath_writtenOps] at hread
  exact nomatch congrArg Prod.fst hread

end OtsServer.VerifyClaim
