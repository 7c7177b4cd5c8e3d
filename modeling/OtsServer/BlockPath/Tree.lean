import OtsServer.BlockPath.Stamps
import OtsServer.Library.Merkle
import OtsServer.Service.Pass

/-!
# The merkle tree of a block

`make_btc_block_merkle_tree` joins timestamps level by level. Each level's timestamps are used once,
so that nothing was added to them when they are joined; the odd last one is doubled by its bytes, of
which the library makes another.
-/

namespace OtsServer.BlockPath

open VerifyClaim (Op sha256d)

/-! ## The code -/

/-- `digests[-1].msg`. -/
def msgOf (ref : Ref) : M Bytes := do
  let stamp ← Prog.gets fun h : Heap => h[ref]?
  match stamp with
  | some stamp => pure stamp.msg
  | none => Prog.raise .attributeError

/-- The digests of a level, the last one doubled when their number is odd. -/
def operands (digests : List Ref) : M (List Operand) :=
  if digests.length % 2 ≠ 0 then
    match digests.getLast? with
    | some last => do
        let msg ← msgOf last
        pure (digests.map .stamp ++ [.raw msg])
    | none => Prog.raise .indexError
  else pure (digests.map .stamp)

/-- The loop over `range(0, len(digests), 2)`. -/
def nextLevel (lib : Lib) : List Operand → M (List Ref)
  | [] => pure []
  | [_] => Prog.raise .indexError
  | left :: right :: rest => do
      let out ← lib.catSha256d left right
      let level ← nextLevel lib rest
      pure (out :: level)

/-- A round of the loop over the levels. -/
def raiseLevel (lib : Lib) : List Ref → M (List Ref ⊕ Ref)
  | [] => Prog.raise .indexError
  | [digest] => pure (.inr digest)
  | digests => do
      let level ← operands digests
      let next ← nextLevel lib level
      pure (.inl next)

/-- `make_btc_block_merkle_tree`; every level is shorter than the one below. -/
def makeBtcBlockMerkleTree (lib : Lib) (txids : List Ref) : M Ref :=
  if txids = [] then Prog.raise .assertionError
  else Prog.loop (raiseLevel lib) (fun _ => Prog.raise .other) txids.length txids

/-! ## A level -/

/-- The message of two joined nodes. -/
def joinMsg (left right : Bytes) : Bytes := sha256d (left ++ right)

section Level

variable {lib : Lib} {takes : Bytes → Bytes → Prop} {h h' : Heap} {operand : Operand} {msg : Bytes}
  {ref : Ref}

theorem Ready.unused (hready : Ready h msg operand) (hmem : ref ∈ operand.refs) :
    Unused h ref msg := by
  cases operand with
  | stamp ref' =>
      obtain rfl := List.mem_singleton.mp hmem
      exact hready
  | raw bytes => exact nomatch hmem

theorem Ready.same {refs : List Ref} (hready : Ready h msg operand) (hsame : SameBut refs h h')
    (hapart : ∀ ref ∈ operand.refs, ref ∉ refs) : Ready h' msg operand := by
  cases operand with
  | stamp ref => exact hsame.unused hready (hapart ref (List.mem_singleton_self _))
  | raw bytes => exact hready

theorem forall₂_mono_left {α β : Type*} {R S : α → β → Prop} {as : List α} {bs : List β}
    (h : ∀ a b, a ∈ as → R a b → S a b) (hR : List.Forall₂ R as bs) : List.Forall₂ S as bs := by
  induction hR with
  | nil => exact .nil
  | cons hab _ ih =>
      exact .cons (h _ _ List.mem_cons_self hab)
        (ih fun a b ha => h a b (List.mem_cons_of_mem _ ha))

theorem exists_unused {level : List Operand} {msgs : List Bytes}
    (hready : List.Forall₂ (fun operand msg => Ready h msg operand) level msgs) :
    ∀ ref ∈ level.flatMap Operand.refs, ∃ msg, Unused h ref msg := by
  induction hready with
  | nil => exact fun ref hmem => nomatch hmem
  | cons hready _ ih =>
      intro ref hmem
      rw [List.flatMap_cons] at hmem
      obtain hmem | hmem := List.mem_append.mp hmem
      · exact ⟨_, hready.unused hmem⟩
      · exact ih ref hmem

/-- A level: what its timestamps lead to, nothing of which was there before. -/
structure Raised (h : Heap) (refs : List Ref) (msgs : List Bytes) (outs : List Ref) (h' : Heap) :
    Prop where
  unused : List.Forall₂ (Unused h') outs msgs
  nodup : outs.Nodup
  new : ∀ out ∈ outs, h[out]? = none
  grows : Grows h h'
  same : SameBut refs h h'
  leads : ∀ ref ∈ refs, ∃ out ∈ outs, ∃ ops, Path h' ref ops out

theorem nextLevel_raises (hlib : lib.Documented takes) :
    ∀ (level : List Operand) (msgs : List Bytes) (h : Heap),
    List.Forall₂ (fun operand msg => Ready h msg operand) level msgs → level.length % 2 = 0 →
    (level.flatMap Operand.refs).Nodup → ∃ outs h', nextLevel lib level h = (.ok outs, h') ∧
      Raised h (level.flatMap Operand.refs) (Merkle.pairs joinMsg msgs) outs h'
  | [], _, h, hready, _, _ => by
      obtain rfl := List.forall₂_nil_left_iff.mp hready
      exact ⟨[], h, rfl, .nil, .nil, fun _ hmem => (nomatch hmem), .refl h,
        fun _ _ hstamp _ => hstamp, fun _ hmem => (nomatch hmem)⟩
  | [_], _, _, _, heven, _ => nomatch heven
  | left :: right :: rest, msg :: msg' :: msgs, h, .cons hleft (.cons hright hrest),
      heven, hnodup => by
      rw [List.flatMap_cons, List.flatMap_cons, ← List.append_assoc] at hnodup ⊢
      obtain ⟨hpair, hothers, hapart⟩ := List.nodup_append.mp hnodup
      obtain ⟨out, h₁, hcat, hnew, hunused, hleads, hleads', hgrows, hsame⟩ :=
        hlib.catSha256d left right msg msg' h hleft hright hpair
      have hothersReady : ∀ operand msg, operand ∈ rest → Ready h msg operand →
          Ready h₁ msg operand :=
        fun operand msg hmem hready => hready.same hsame fun ref href hin =>
          hapart ref hin ref (List.mem_flatMap.mpr ⟨operand, hmem, href⟩) rfl
      have hrest₁ : List.Forall₂ (fun operand msg => Ready h₁ msg operand) rest msgs :=
        forall₂_mono_left hothersReady hrest
      have hrestUnused : ∀ ref ∈ rest.flatMap Operand.refs, ∃ msg, Unused h ref msg :=
        exists_unused hrest
      obtain ⟨outs, h₂, hlevel, hraised⟩ := nextLevel_raises hlib rest msgs h₁ hrest₁
        (by rw [List.length_cons, List.length_cons] at heven; omega) hothers
      have hfresh : out ∉ rest.flatMap Operand.refs := by
        intro hmem
        obtain ⟨msg, hmsg⟩ := hrestUnused out hmem
        exact nomatch hnew.symm.trans hmsg
      refine ⟨out :: outs, h₂, ?_, ?_⟩
      · exact (Prog.bind_of_ok hcat).trans (Prog.bind_of_ok hlevel)
      constructor
      · exact .cons (hraised.same.unused hunused hfresh) hraised.unused
      · refine List.nodup_cons.mpr ⟨fun hmem => ?_, hraised.nodup⟩
        exact nomatch (hraised.new out hmem).symm.trans hunused
      · intro o ho
        obtain rfl | ho := List.mem_cons.mp ho
        · exact hnew
        · exact hgrows.none_of_none (hraised.new o ho)
      · exact hgrows.trans hraised.grows
      · exact hsame.trans hraised.same
      · intro ref href
        obtain href | href := List.mem_append.mp href
        · refine ⟨out, List.mem_cons_self, ?_⟩
          obtain href | href := List.mem_append.mp href
          · exact ⟨_, (hleads ref href).mono hraised.grows⟩
          · exact ⟨_, (hleads' ref href).mono hraised.grows⟩
        · obtain ⟨o, ho, ops, hpath⟩ := hraised.leads ref href
          exact ⟨o, List.mem_cons_of_mem _ ho, ops, hpath⟩

theorem forall₂_getLast? {α β : Type*} {R : α → β → Prop} {as : List α} {bs : List β}
    (hR : List.Forall₂ R as bs) {a : α} (ha : as.getLast? = some a) :
    ∃ b, bs.getLast? = some b ∧ R a b := by
  induction hR with
  | nil => exact nomatch ha
  | @cons a' b' as bs hab hrest ih =>
      cases hrest with
      | nil =>
          obtain rfl := Option.some.inj ha
          exact ⟨b', rfl, hab⟩
      | cons _ _ =>
          rw [List.getLast?_cons_cons] at ha
          obtain ⟨b, hb, hR⟩ := ih ha
          exact ⟨b, by rwa [List.getLast?_cons_cons], hR⟩

theorem msgOf_unused (hunused : Unused h ref msg) : msgOf ref h = (.ok msg, h) := by
  change (match h[ref]? with
    | some stamp => pure stamp.msg
    | none => Prog.raise .attributeError : M Bytes) h = _
  rw [show h[ref]? = _ from hunused]
  rfl

theorem ready_stamps {digests : List Ref} {msgs : List Bytes}
    (hunused : List.Forall₂ (Unused h) digests msgs) :
    List.Forall₂ (fun operand msg => Ready h msg operand) (digests.map .stamp) msgs :=
  List.forall₂_map_left_iff.mpr hunused

theorem refs_stamps (digests : List Ref) :
    (digests.map Operand.stamp).flatMap Operand.refs = digests := by
  induction digests with
  | nil => rfl
  | cons digest digests ih =>
      rw [List.map_cons, List.flatMap_cons, ih, Operand.refs, List.singleton_append]

/-- The operands of a level: its timestamps, and the bytes of the last one when it is doubled. -/
theorem operands_ready {digests : List Ref} {msgs : List Bytes}
    (hunused : List.Forall₂ (Unused h) digests msgs) :
    ∃ level, operands digests h = (.ok level, h) ∧
      List.Forall₂ (fun operand msg => Ready h msg operand) level (Merkle.doubled msgs) ∧
      level.flatMap Operand.refs = digests := by
  unfold operands Merkle.doubled
  rw [hunused.length_eq]
  split_ifs with hodd
  · cases hlast : digests.getLast? with
    | none =>
        obtain rfl := List.getLast?_eq_none_iff.mp hlast
        obtain rfl := List.forall₂_nil_left_iff.mp hunused
        exact absurd rfl hodd
    | some last =>
        obtain ⟨msg, hmsg, hready⟩ := forall₂_getLast? hunused hlast
        refine ⟨digests.map .stamp ++ [.raw msg], Prog.bind_of_ok (msgOf_unused hready), ?_, ?_⟩
        · rw [hmsg]
          exact List.rel_append (ready_stamps hunused) (.cons rfl .nil)
        · rw [List.flatMap_append, refs_stamps]
          exact List.append_nil _
  · exact ⟨digests.map .stamp, rfl, ready_stamps hunused, refs_stamps digests⟩

/-- A round goes up one level. -/
theorem raiseLevel_raises (hlib : lib.Documented takes) {a b : Ref} {rest : List Ref}
    {msgs : List Bytes} (hunused : List.Forall₂ (Unused h) (a :: b :: rest) msgs)
    (hnodup : (a :: b :: rest).Nodup) :
    ∃ outs h', raiseLevel lib (a :: b :: rest) h = (.ok (.inl outs), h') ∧
      Raised h (a :: b :: rest) (Merkle.level joinMsg msgs) outs h' := by
  obtain ⟨level, hlevel, hready, hrefs⟩ := operands_ready hunused
  have heven : level.length % 2 = 0 := by
    rw [hready.length_eq]
    exact Merkle.even_length_doubled msgs
  obtain ⟨outs, h', hnext, hraised⟩ :=
    nextLevel_raises hlib level _ h hready heven (hrefs.symm ▸ hnodup)
  rw [Merkle.pairs_doubled, hrefs] at hraised
  exact ⟨outs, h', (Prog.bind_of_ok hlevel).trans (Prog.bind_of_ok hnext), hraised⟩

/-- What a tree over some timestamps comes to. -/
structure Rooted (h : Heap) (digests : List Ref) (msgs : List Bytes) (root : Ref) (h' : Heap) :
    Prop where
  msg : ∃ msg, Merkle.root joinMsg msgs = some msg ∧ Unused h' root msg
  leads : ∀ ref ∈ digests, ∃ ops, Path h' ref ops root
  grows : Grows h h'

theorem loop_roots (hlib : lib.Documented takes) (n : Nat) :
    ∀ (digests : List Ref) (msgs : List Bytes) (h : Heap), digests ≠ [] →
      digests.length ≤ n → List.Forall₂ (Unused h) digests msgs → digests.Nodup → ∃ root h',
        Prog.loop (raiseLevel lib) (fun _ => Prog.raise .other) n digests h = (.ok root, h') ∧
        Rooted h digests msgs root h' := by
  induction n with
  | zero =>
      intro digests _ _ hne hlength _ _
      exact absurd (List.length_eq_zero_iff.mp (Nat.le_zero.mp hlength)) hne
  | succ n ih =>
      intro digests msgs h hne hlength hunused hnodup
      match digests, hne, hlength, hunused, hnodup with
      | [digest], _, _, .cons hunused .nil, _ =>
          refine ⟨digest, h, Prog.loop_of_inr rfl, ⟨_, Merkle.root_singleton .., hunused⟩,
            ?_, .refl h⟩
          intro ref href
          obtain rfl := List.mem_singleton.mp href
          exact ⟨[], .nil hunused⟩
      | a :: b :: rest, _, hlength, hunused, hnodup =>
          obtain ⟨outs, h₁, hround, hraised⟩ := raiseLevel_raises hlib hunused hnodup
          match msgs, hunused with
          | msg :: msg' :: msgs, .cons _ (.cons _ hrest) =>
              have houts := hraised.unused.length_eq
              rw [Merkle.length_level, List.length_cons, List.length_cons,
                ← hrest.length_eq] at houts
              rw [List.length_cons, List.length_cons] at hlength
              have houtsNe : outs ≠ [] := by
                rintro rfl
                rw [List.length_nil] at houts
                omega
              obtain ⟨root, h', hloop, hrooted⟩ :=
                ih outs _ h₁ houtsNe (by omega) hraised.unused hraised.nodup
              refine ⟨root, h', (Prog.loop_of_inl hround).trans hloop, ?_, ?_,
                hraised.grows.trans hrooted.grows⟩
              · rw [Merkle.root_cons_cons]
                exact hrooted.msg
              · intro ref href
                obtain ⟨out, hout, ops, hpath⟩ := hraised.leads ref href
                obtain ⟨ops', hpath'⟩ := hrooted.leads out hout
                exact ⟨ops ++ ops', (hpath.mono hrooted.grows).append hpath'⟩

/-- `make_btc_block_merkle_tree` returns the timestamp of the merkle root, to which every leaf
leads. -/
theorem makeBtcBlockMerkleTree_roots (hlib : lib.Documented takes) {txids : List Ref}
    {msgs : List Bytes} (hne : txids ≠ []) (hunused : List.Forall₂ (Unused h) txids msgs)
    (hnodup : txids.Nodup) :
    ∃ root h', makeBtcBlockMerkleTree lib txids h = (.ok root, h') ∧
      Rooted h txids msgs root h' := by
  rw [makeBtcBlockMerkleTree, if_neg hne]
  exact loop_roots hlib txids.length txids msgs h hne (le_refl _) hunused hnodup

end Level

end OtsServer.BlockPath
