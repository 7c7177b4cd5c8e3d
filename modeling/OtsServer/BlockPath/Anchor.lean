import OtsServer.BlockPath.Objects
import OtsServer.Service.Json

/-!
# From an anchor to its block

`make_timestamp_from_block_tx` puts an anchor's bytes around its tip, its txid node in the place of
its txid among those of the block, and the attestation on the merkle root. What the stamper's loop
knows of it, that the root is the block's, is the part of the model of a pass.
-/

namespace OtsServer.BlockPath

open VerifyClaim (Op sha256d)

/-! ## The code -/

/-- The timestamps of a block's transactions, with the anchor's own in its place. -/
def blockTxidStamps (lib : Lib) (txidStamp : Ref) (txid : Bytes) : List Bytes → M (List Ref)
  | [] => pure []
  | id :: rest => do
      let stamp ← if id ≠ txid then lib.timestamp id else pure txidStamp
      let stamps ← blockTxidStamps lib txidStamp txid rest
      pure (stamp :: stamps)

/-- `make_timestamp_from_block_tx`. -/
def makeTimestampFromBlockTx (slib : Service.Lib) (lib : Lib) (tx : Service.Tx)
    (tip : Bytes) (block : Service.Block) (blockheight : Int) : M Ref :=
  do
  let serialized := slib.serialize tx
  match Service.indexOf tip serialized with
  | none => Prog.raise .assertionError
  | some i => do
      let start := serialized.take i
      let suffix := serialized.drop (i + tip.length)
      let digest ← lib.timestamp tip
      let startStamp ← lib.add digest (.prepend start)
      let txidStamp ← lib.catSha256d (.stamp startStamp) (.raw suffix)
      let txid ← msgOf txidStamp
      if slib.txid tx ≠ txid then Prog.raise .assertionError
      else do
        let stamps ← blockTxidStamps lib txidStamp txid (block.vtx.map slib.txid)
        let root ← makeBtcBlockMerkleTree lib stamps
        let msg ← msgOf root
        if msg ≠ block.hashMerkleRoot then Prog.raise .assertionError
        else do
          lib.attest root blockheight
          pure digest

/-! ## What it returns -/

/-- Where a digest is found, it stands between what is before and after it. -/
theorem indexOf_spec {digest serialized : Bytes} (h : digest <:+: serialized) :
    ∃ i, Service.indexOf digest serialized = some i ∧
      serialized.take i ++ digest ++ serialized.drop (i + digest.length) = serialized := by
  induction serialized with
  | nil =>
      obtain rfl := List.infix_nil.mp h
      exact ⟨0, rfl, rfl⟩
  | cons c rest ih =>
      by_cases hstart : digest <+: c :: rest
      · refine ⟨0, by rw [Service.indexOf, if_pos (List.isPrefixOf_iff_prefix.mpr hstart)], ?_⟩
        rw [List.take_zero, List.nil_append, Nat.zero_add]
        obtain ⟨tail, htail⟩ := hstart
        rw [← htail, List.drop_left]
      · obtain ⟨i, hi, hparts⟩ := ih ((List.infix_cons_iff.mp h).resolve_left hstart)
        refine ⟨i + 1, ?_, ?_⟩
        · rw [Service.indexOf, if_neg fun hp => hstart (List.isPrefixOf_iff_prefix.mp hp), hi]
          rfl
        · rw [Nat.add_right_comm, List.take_succ_cons, List.drop_succ_cons,
            List.cons_append, List.cons_append, hparts]

section Anchor

variable {lib : Lib} {takes : Bytes → Bytes → Prop} {h h' : Heap} {txidStamp : Ref} {txid : Bytes}

/-- The stamps of a block: new ones, and the anchor's in the place of its txid. -/
theorem blockTxidStamps_spec (hlib : lib.Documented takes) (ids : List Bytes) :
    ∀ h : Heap, Unused h txidStamp txid →
    ids.count txid ≤ 1 → ∃ stamps h', blockTxidStamps lib txidStamp txid ids h = (.ok stamps, h') ∧
      List.Forall₂ (Unused h') stamps ids ∧ stamps.Nodup ∧
        (∀ stamp ∈ stamps, stamp = txidStamp ∨ h[stamp]? = none) ∧
      (txidStamp ∈ stamps ↔ txid ∈ ids) ∧ SameBut [] h h' := by
  induction ids with
  | nil =>
      intro h _ _
      refine ⟨[], h, rfl, .nil, .nil, fun _ hmem => (nomatch hmem), ?_, fun _ _ hstamp _ => hstamp⟩
      exact ⟨fun hmem => (nomatch hmem), fun hmem => (nomatch hmem)⟩
  | cons id ids ih =>
      intro h hunused hcount
      by_cases hid : id = txid
      · -- The anchor's own stamp; its txid does not come again.
        subst hid
        rw [List.count_cons_self] at hcount
        have hapart : id ∉ ids := List.count_eq_zero.mp (by omega)
        obtain ⟨stamps, h', hrun, hstamps, hnodup, hnew, hmem, hsame⟩ := ih h hunused (by omega)
        refine ⟨txidStamp :: stamps, h', ?_, .cons (hsame.unused hunused List.not_mem_nil) hstamps,
          ?_, ?_, ?_, hsame⟩
        · rw [blockTxidStamps, if_neg (not_not.mpr rfl)]
          exact Prog.bind_of_ok hrun
        · exact List.nodup_cons.mpr ⟨fun h => hapart (hmem.mp h), hnodup⟩
        · intro stamp hstamp
          obtain rfl | hstamp := List.mem_cons.mp hstamp
          · exact .inl rfl
          · exact hnew stamp hstamp
        · exact ⟨fun _ => List.mem_cons_self, fun _ => List.mem_cons_self⟩
      · obtain ⟨ref, h₁, hmake, hfresh, hmade, hkeep⟩ := hlib.timestamp id h
        have hne : ref ≠ txidStamp := by
          rintro rfl
          exact nomatch hfresh.symm.trans hunused
        rw [List.count_cons_of_ne hid] at hcount
        obtain ⟨stamps, h', hrun, hstamps, hnodup, hnew, hmem, hsame⟩ :=
          ih h₁ (hkeep.unused hunused List.not_mem_nil) hcount
        refine ⟨ref :: stamps, h', ?_, .cons (hsame.unused hmade List.not_mem_nil) hstamps,
          ?_, ?_, ?_, ?_⟩
        · rw [blockTxidStamps, if_pos hid]
          exact (Prog.bind_of_ok hmake).trans (Prog.bind_of_ok hrun)
        · refine List.nodup_cons.mpr ⟨fun h => ?_, hnodup⟩
          obtain heq | hnone := hnew ref h
          · exact hne heq
          · exact nomatch hnone.symm.trans hmade
        · intro stamp hstamp
          obtain rfl | hstamp := List.mem_cons.mp hstamp
          · exact .inr hfresh
          · exact (hnew stamp hstamp).imp_right hkeep.grows.none_of_none
        · rw [List.mem_cons, List.mem_cons, hmem]
          exact or_congr ⟨fun h => absurd h.symm hne, fun h => absurd h.symm hid⟩ Iff.rfl
        · exact hkeep.trans hsame

/-- The digest's timestamp leads through the anchor's txid to the merkle root that the block's
header attests. -/
def LeadsToBlock (h : Heap) (digest : Ref) (tip txid merkleRoot : Bytes) (blockheight : Int) :
    Prop :=
  ∃ (node root : Ref) (first anchor last : Stamp) (start suffix : Bytes) (ops : List Op),
    h[digest]? = some first ∧ first.msg = tip ∧
      Path h digest [.prepend start, .append suffix, .sha256, .sha256] node ∧
      h[node]? = some anchor ∧ anchor.msg = txid ∧ Path h node ops root ∧ h[root]? = some last ∧
      last.msg = merkleRoot ∧
        blockheight ∈ last.attestations

/-- What the operations of such a path make of the tip. -/
theorem LeadsToBlock.replay {digest : Ref} {tip merkleRoot : Bytes} {blockheight : Int}
    (hleads : LeadsToBlock h digest tip txid merkleRoot blockheight) :
    ∃ ops : List Op, ops.foldl (fun msg op => op.apply msg) tip = merkleRoot := by
  obtain ⟨node, root, first, anchor, last, start, suffix, ops, hfirst, rfl,
    hpath, -, -, hpath', hlast, rfl, -⟩ := hleads
  exact ⟨_, ((hpath.append hpath').msg_eq hfirst hlast).symm⟩

theorem makeTimestampFromBlockTx_leads {slib : Service.Lib} {tx : Service.Tx}
    {tip : Bytes} {block : Service.Block} (blockheight : Int) (hlib : lib.Documented takes)
    (htxid : slib.txid tx = sha256d (slib.serialize tx)) (htip : tip <:+: slib.serialize tx)
    (htakes : ∀ start suffix, slib.serialize tx = start ++ tip ++ suffix → takes start tip)
    (honce : (block.vtx.map slib.txid).count (slib.txid tx) = 1)
    (hroot : Merkle.root joinMsg (block.vtx.map slib.txid) = some block.hashMerkleRoot) (h : Heap) :
    ∃ digest h', makeTimestampFromBlockTx slib lib tx tip block blockheight h = (.ok digest, h') ∧
      LeadsToBlock h' digest tip (slib.txid tx) block.hashMerkleRoot blockheight := by
  obtain ⟨i, hi, hparts⟩ := indexOf_spec htip
  set start := (slib.serialize tx).take i
  set suffix := (slib.serialize tx).drop (i + tip.length)
  obtain ⟨digest, h₁, hdigest, -, hunused₁, -⟩ := hlib.timestamp tip h
  obtain ⟨startStamp, h₂, hadd, -, hunused₂, hpath₂, hgrows₂, -⟩ :=
    hlib.add digest start tip h₁ (htakes start suffix hparts.symm) hunused₁
  obtain ⟨node, h₃, hcat, -, hunused₃, hpath₃, -, hgrows₃, -⟩ :=
    hlib.catSha256d (.stamp startStamp) (.raw suffix) _ suffix h₂ hunused₂ rfl
      (List.nodup_singleton _)
  have hid : sha256d (Op.apply (.prepend start) tip ++ suffix) = slib.txid tx := by
    rw [htxid, ← hparts]
    rfl
  rw [hid] at hunused₃
  obtain ⟨stamps, h₄, hstamps, hunused₄, hnodup, -, hmem, hsame₄⟩ :=
    blockTxidStamps_spec hlib (block.vtx.map slib.txid) h₃ hunused₃ honce.le
  have hin : node ∈ stamps := hmem.mpr (List.count_pos_iff.mp (honce ▸ Nat.one_pos))
  obtain ⟨root, h₅, htree, hrooted⟩ :=
    makeBtcBlockMerkleTree_roots hlib (List.ne_nil_of_mem hin) hunused₄ hnodup
  obtain ⟨msg, hmsg, hunused₅⟩ := hrooted.msg
  obtain rfl : block.hashMerkleRoot = msg := Option.some.inj (hroot.symm.trans hmsg)
  obtain ⟨h₆, hattest, hattested, hgrows₆⟩ := hlib.attest root blockheight _ h₅ hunused₅
  have hgrows₄ : Grows h₃ h₆ := hsame₄.grows.trans (hrooted.grows.trans hgrows₆)
  obtain ⟨ops, hpath₅⟩ := hrooted.leads node hin
  obtain ⟨first, hfirst, hfirstMsg⟩ := ((hgrows₂.trans hgrows₃).trans hgrows₄).same_msg hunused₁
  obtain ⟨anchor, hanchor, hanchorMsg⟩ := hgrows₄.same_msg hunused₃
  refine ⟨digest, h₆, ?_, node, root, first, anchor, _,
    start, suffix, ops, hfirst, hfirstMsg, ?_, hanchor, hanchorMsg,
    hpath₅.mono hgrows₆, hattested, rfl, List.mem_append_right _ (List.mem_singleton_self _)⟩
  · rw [makeTimestampFromBlockTx, hi]
    refine (Prog.bind_of_ok hdigest).trans
      ((Prog.bind_of_ok hadd).trans ((Prog.bind_of_ok hcat).trans ?_))
    refine (Prog.bind_of_ok (msgOf_unused hunused₃)).trans ?_
    rw [if_neg (not_not.mpr rfl)]
    refine (Prog.bind_of_ok hstamps).trans ((Prog.bind_of_ok htree).trans ?_)
    refine (Prog.bind_of_ok (msgOf_unused hunused₅)).trans ?_
    rw [if_neg (not_not.mpr rfl)]
    exact (Prog.bind_of_ok hattest).trans rfl
  · exact (hpath₂.mono (hgrows₃.trans hgrows₄)).append
      ((hpath₃ startStamp (List.mem_singleton_self _)).mono hgrows₄)

end Anchor

section Service

/-! ## The messages alone

The loop's model takes of these functions what their messages are: it ends as they do. -/

variable {slib : Service.Lib}

theorem catPairs_eq (hcat : ∀ a b, slib.catSha256d a b = .ok (joinMsg a b)) (msgs : List Bytes) :
    Service.catPairs slib msgs = .ok (Merkle.pairs joinMsg msgs) := by
  induction msgs using Service.catPairs.induct with
  | case1 a b rest ih =>
      rw [Service.catPairs, hcat, ih]
      rfl
  | case2 msgs hshort =>
      match msgs, hshort with
      | [], _ => rfl
      | [_], _ => rfl
      | a :: b :: rest, hshort => exact absurd rfl (hshort a b rest)

theorem service_makeBtcBlockMerkleTree (hcat : ∀ a b, slib.catSha256d a b = .ok (joinMsg a b))
    {root : Bytes} (n : Nat) :
    ∀ msgs : List Bytes, msgs.length ≤ n → Merkle.root joinMsg msgs = some root →
      Service.makeBtcBlockMerkleTree slib n msgs = .ok root := by
  induction n with
  | zero =>
      intro msgs hlength hroot
      obtain rfl := List.length_eq_zero_iff.mp (Nat.le_zero.mp hlength)
      rw [Merkle.root] at hroot
      cases hroot
  | succ n ih =>
      intro msgs hlength hroot
      cases msgs with
      | nil =>
          rw [Merkle.root] at hroot
          cases hroot
      | cons a rest =>
          cases rest with
          | nil =>
              rw [Merkle.root_singleton] at hroot
              exact congrArg Except.ok (Option.some.inj hroot)
          | cons b rest =>
              rw [Merkle.root_cons_cons] at hroot
              have hshorter := @Merkle.length_level_lt _ joinMsg a b rest
              change (Service.catPairs slib (Merkle.doubled (a :: b :: rest)) >>= _) = _
              rw [catPairs_eq hcat, Merkle.pairs_doubled]
              exact ih _ (by omega) hroot

/-- What proves an anchor keeps the loop's assertions as well. -/
theorem service_makeTimestampFromBlockTx (hcat : ∀ a b, slib.catSha256d a b = .ok (joinMsg a b))
    {confirmed : Service.UnconfirmedTimestampTx} {block : Service.Block}
    (htxid : slib.txid confirmed.tx = sha256d (slib.serialize confirmed.tx))
    (htip : confirmed.tip <:+: slib.serialize confirmed.tx)
    (hroot : Merkle.root joinMsg (block.vtx.map slib.txid) = some block.hashMerkleRoot) :
    Service.makeTimestampFromBlockTx slib confirmed block = .ok () := by
  obtain ⟨i, hi, hparts⟩ := indexOf_spec htip
  rw [Service.makeTimestampFromBlockTx, hi]
  dsimp only
  rw [hcat]
  change (if _ then _ else _) = _
  rw [joinMsg, hparts, if_neg (not_not.mpr htxid),
    service_makeBtcBlockMerkleTree hcat _ _ (by rw [List.length_map]) hroot]
  exact if_neg (not_not.mpr rfl)

end Service

/-- The block path proves the anchor. Over any distinct timestamps that nothing was added to,
whatever their messages, `make_btc_block_merkle_tree` returns the timestamp of the merkle root, and
every leaf leads to it; for an anchor in a block with the right merkle root,
`make_timestamp_from_block_tx` returns the timestamp of the tip, and it leads through the anchor's
txid to the merkle root with the attestation of the height, if the library takes what stands before
the tip. -/
theorem block_path_proves {lib : Lib} {takes : Bytes → Bytes → Prop} (hlib : lib.Documented takes) :
    (∀ (txids : List Ref) (msgs : List Bytes) (h : Heap), txids ≠ [] →
      List.Forall₂ (Unused h) txids msgs → txids.Nodup →
        ∃ root msg h', makeBtcBlockMerkleTree lib txids h = (.ok root, h') ∧
          Merkle.root joinMsg msgs = some msg ∧ Unused h' root msg ∧
          ∀ ref ∈ txids, ∃ ops, Path h' ref ops root) ∧
    ∀ (slib : Service.Lib) (tx : Service.Tx) (tip : Bytes) (block : Service.Block)
      (blockheight : Int) (h : Heap),
      slib.txid tx = sha256d (slib.serialize tx) → tip <:+: slib.serialize tx →
      (∀ start suffix, slib.serialize tx = start ++ tip ++ suffix → takes start tip) →
      (block.vtx.map slib.txid).count (slib.txid tx) = 1 →
      Merkle.root joinMsg (block.vtx.map slib.txid) = some block.hashMerkleRoot →
        ∃ digest h',
          makeTimestampFromBlockTx slib lib tx tip block blockheight h = (.ok digest, h') ∧
          LeadsToBlock h' digest tip (slib.txid tx) block.hashMerkleRoot blockheight := by
  constructor
  · intro txids msgs h hne hunused hnodup
    obtain ⟨root, h', hrun, hrooted⟩ := makeBtcBlockMerkleTree_roots hlib hne hunused hnodup
    obtain ⟨msg, hmsg, hroot⟩ := hrooted.msg
    exact ⟨root, msg, h', hrun, hmsg, hroot, hrooted.leads⟩
  · intro slib tx tip block blockheight h htxid htip htakes honce hroot
    exact makeTimestampFromBlockTx_leads blockheight hlib htxid htip htakes honce hroot h

namespace Sample

/-- A transaction with one output, of `OP_RETURN` and two bytes. -/
def anchor : Service.Tx := ⟨[], [⟨0, .opReturn [7, 9]⟩], 0, []⟩

def coinbase : Service.Tx := ⟨[], [⟨50, .raw [0x51]⟩], 0, []⟩

def payment : Service.Tx := ⟨[], [⟨20, .raw [0x51]⟩], 0, []⟩

def slib : Service.Lib :=
  { Service.Lib.idle with
    serialize := Service.Tx.serialize
    txid := fun tx => sha256d tx.serialize }

set_option maxRecDepth 4000 in
theorem txid_coinbase :
    slib.txid coinbase =
    [0x70, 0x7b, 0x56, 0x2d, 0x05, 0xed, 0xe7, 0x9f, 0x20, 0xb5, 0x6c, 0xdd, 0xf0, 0x8a, 0xeb, 0x0b,
      0x6f, 0x22, 0x78, 0x70, 0xea, 0xfa, 0x8c, 0xeb, 0xa3, 0xe0, 0x49, 0xf9,
        0x08, 0x90, 0xea, 0x7b] := by
  decide +kernel

set_option maxRecDepth 4000 in
theorem txid_anchor :
    slib.txid anchor =
    [0x67, 0xaa, 0xdb, 0x5c, 0x52, 0x8c, 0x90, 0x6b, 0xcd, 0xc0, 0xed, 0x4d, 0x80, 0x9b, 0xce, 0xa3,
      0x5f, 0xcc, 0xae, 0xb8, 0xdc, 0x81, 0x9e, 0xc9, 0x39, 0x8b, 0x33, 0x40,
        0xf5, 0xb1, 0x38, 0xa5] := by
  decide +kernel

set_option maxRecDepth 4000 in
theorem txid_payment :
    slib.txid payment =
    [0x3e, 0xc7, 0x59, 0x3b, 0x74, 0x4b, 0x58, 0x33, 0xcd, 0x40, 0x31, 0xf7, 0x9d, 0xdb, 0xb4, 0xf8,
      0x5a, 0xa8, 0xfc, 0x8e, 0x92, 0x20, 0xe6, 0x7f, 0x9f, 0x29, 0xfe, 0x4c,
        0x36, 0x1c, 0x80, 0xf9] := by
  decide +kernel

/-- What the library takes: no empty argument, and no message over its limit. -/
def takes (arg msg : Bytes) : Prop := arg ≠ [] ∧ arg.length + msg.length ≤ 4096

/-- A block of three, whose last txid is doubled. -/
def block : Service.Block where
  vtx := [coinbase, anchor, payment]
  hashMerkleRoot := joinMsg (joinMsg (slib.txid coinbase) (slib.txid anchor))
    (joinMsg (slib.txid payment) (slib.txid payment))

end Sample

theorem anchor_in_block_of_three :
    ∃ digest h', makeTimestampFromBlockTx Sample.slib Objects.lib Sample.anchor
      [7, 9] Sample.block 100 [] = (.ok digest, h') ∧ LeadsToBlock h' digest
        [7, 9] (Sample.slib.txid Sample.anchor) Sample.block.hashMerkleRoot 100 := by
  refine (block_path_proves (Objects.lib_documented Sample.takes)).2 Sample.slib Sample.anchor
    [7, 9] Sample.block 100 [] rfl ?_ ?_ ?_ ?_
  · exact ⟨Sample.anchor.serialize.take 17, [0, 0, 0, 0], by decide⟩
  · intro start suffix hserialized
    have hlength : Sample.anchor.serialize.length ≤ 4096 := by decide
    have hhead : Sample.anchor.serialize.head? ≠ some 7 := by decide
    rw [show Sample.slib.serialize Sample.anchor = Sample.anchor.serialize from rfl] at hserialized
    refine ⟨?_, ?_⟩
    · rintro rfl
      exact hhead (by rw [hserialized]; rfl)
    · rw [hserialized, List.length_append, List.length_append] at hlength
      omega
  · rw [Sample.block, List.map_cons, List.map_cons, List.map_cons, List.map_nil,
      Sample.txid_coinbase, Sample.txid_anchor, Sample.txid_payment]
    decide
  · rw [Sample.block, List.map_cons, List.map_cons,
      List.map_cons, List.map_nil, Merkle.root_cons_cons, Merkle.level,
      Merkle.level, Merkle.root_cons_cons, Merkle.level, Merkle.level, Merkle.root_singleton]

end OtsServer.BlockPath
