import OtsServer.BlockPath.Tree

/-!
# The library's timestamps in a list

A library over a heap that only grows: a reference is a place in the list. It does on timestamps
what `Timestamp`, `OpSet` and `cat_sha256d` do, and so it is as documented. The timestamp that
`cat_sha256d` makes for its left operand and at once replaces is not made.
-/

namespace OtsServer.BlockPath.Objects

open VerifyClaim (Op sha256d)

deriving instance DecidableEq for VerifyClaim.Op

/-! ## The library -/

def timestamp (msg : Bytes) : M Ref := fun h => (.ok h.length, h ++ [⟨msg, [], []⟩])

/-- `timestamp.ops[op] = next`. -/
def setOp (ref : Ref) (op : Op) (next : Ref) : M Unit :=
  Prog.modify fun h => h.modify ref fun stamp =>
    { stamp with ops := (op, next) :: stamp.ops.filter fun edge => decide (edge.1 ≠ op) }

/-- `timestamp.ops.add(op)`. -/
def add (ref : Ref) (op : Op) : M Ref := do
  let stamp ← Prog.gets fun h : Heap => h[ref]?
  match stamp with
  | none => Prog.raise .attributeError
  | some stamp =>
      match stamp.ops.find? fun edge => decide (edge.1 = op) with
      | some edge => pure edge.2
      | none => do
          let next ← timestamp (op.apply stamp.msg)
          setOp ref op next
          pure next

/-- An operand's timestamp. -/
def stampOf : Operand → M Ref
  | .stamp ref => pure ref
  | .raw bytes => timestamp bytes

def catSha256d (left right : Operand) : M Ref := do
  let leftStamp ← stampOf left
  let rightStamp ← stampOf right
  let leftMsg ← msgOf leftStamp
  let rightMsg ← msgOf rightStamp
  let joined ← add rightStamp (.prepend leftMsg)
  setOp leftStamp (.append rightMsg) joined
  let hashed ← add joined .sha256
  add hashed .sha256

def attest (ref : Ref) (height : Int) : M Unit :=
  Prog.modify fun h => h.modify ref fun stamp =>
    { stamp with attestations := stamp.attestations ++ [height] }

def lib : Lib where
  timestamp := timestamp
  add := add
  catSha256d := catSha256d
  attest := attest

/-! ## It is as documented -/

section Documented

variable {h h' : Heap} {ref next : Ref} {stamp : Stamp} {msg msg' : Bytes} {op : Op}

theorem getElem?_push (hstamp : h[ref]? = some stamp) (new : Stamp) :
    (h ++ [new])[ref]? = some stamp := by
  rw [List.getElem?_append_left (List.getElem?_eq_some_iff.mp hstamp).1, hstamp]

theorem timestamp_spec (msg : Bytes) (h : Heap) :
    ∃ (ref : Ref) (h' : Heap), timestamp msg h = (.ok ref, h') ∧
    h[ref]? = none ∧ Unused h' ref msg ∧ SameBut [] h h' := by
  refine ⟨h.length, _, rfl, List.getElem?_eq_none (le_refl _), List.getElem?_concat_length, ?_⟩
  exact fun _ _ hstamp _ => getElem?_push hstamp _

/-- What changes one timestamp leaves the others. -/
theorem sameBut_modify (h : Heap) (ref : Ref) (f : Stamp → Stamp) :
    SameBut [ref] h (h.modify ref f) := by
  intro other stamp hstamp hmem
  have hne : ref ≠ other := fun heq => hmem (List.mem_singleton.mpr heq.symm)
  rw [List.getElem?_modify, hstamp]
  exact congrArg some (if_neg hne)

theorem getElem?_modify_self (hstamp : h[ref]? = some stamp) (f : Stamp → Stamp) :
    (h.modify ref f)[ref]? = some (f stamp) := by
  rw [List.getElem?_modify, hstamp]
  exact congrArg some (if_pos rfl)

theorem grows_modify {f : Stamp → Stamp}
    (hstamp : h[ref]? = some stamp) (hmsg : (f stamp).msg = stamp.msg)
    (hops : stamp.ops ⊆ (f stamp).ops) (hatt : stamp.attestations ⊆ (f stamp).attestations) :
    Grows h (h.modify ref f) := by
  intro other stamp' hstamp'
  by_cases heq : other = ref
  · subst heq
    obtain rfl := Option.some.inj (hstamp.symm.trans hstamp')
    exact ⟨_, getElem?_modify_self hstamp f, hmsg, hops, hatt⟩
  · refine ⟨stamp', ?_, rfl, List.Subset.refl _, List.Subset.refl _⟩
    exact sameBut_modify h ref f other stamp' hstamp' fun hmem => heq (List.mem_singleton.mp hmem)

/-- The first operation of a timestamp. -/
theorem setOp_spec (hunused : Unused h ref msg) (hnext : Unused h next (op.apply msg))
    (hne : ref ≠ next) :
    ∃ h', setOp ref op next h = (.ok (), h') ∧ Path h' ref [op] next ∧ Grows h h' ∧
      SameBut [ref] h h' := by
  have hsame := sameBut_modify h ref fun stamp =>
    { stamp with ops := (op, next) :: stamp.ops.filter fun edge => decide (edge.1 ≠ op) }
  have hnext' := hsame.unused hnext fun hmem => hne (List.mem_singleton.mp hmem).symm
  refine ⟨_, rfl, ?_, ?_, hsame⟩
  · exact .cons (getElem?_modify_self hunused _) List.mem_cons_self hnext' rfl (.nil hnext')
  · exact grows_modify hunused rfl (List.nil_subset _) (List.nil_subset _)

theorem add_spec (hunused : Unused h ref msg) (op : Op) :
    ∃ (next : Ref) (h' : Heap), add ref op h = (.ok next, h') ∧ h[next]? = none ∧
      Unused h' next (op.apply msg) ∧ Path h' ref [op] next ∧ Grows h h' ∧ SameBut [ref] h h' := by
  obtain ⟨next, h₁, hmake, hfresh, hmade, hkeep⟩ := timestamp_spec (op.apply msg) h
  have hne : ref ≠ next := by
    rintro rfl
    exact nomatch hfresh.symm.trans hunused
  obtain ⟨h₂, hset, hpath, hgrows, hsame⟩ :=
    setOp_spec (hkeep.unused hunused List.not_mem_nil) hmade hne
  refine ⟨next, h₂, ?_, hfresh, ?_, hpath, hkeep.grows.trans hgrows, hkeep.trans hsame⟩
  · have hget : Prog.gets (ε := Exc) (fun h : Heap => h[ref]?) h = (.ok (some ⟨msg, [], []⟩), h) :=
      Prod.ext (congrArg Except.ok hunused) rfl
    refine (Prog.bind_of_ok hget).trans ?_
    exact (Prog.bind_of_ok hmake).trans (Prog.bind_of_ok hset)
  · exact hsame.unused hmade fun hmem => hne (List.mem_singleton.mp hmem).symm

/-- An operand's timestamp: its own, or a new one. -/
theorem stampOf_spec {operand : Operand} (hready : Ready h msg operand) :
    ∃ (ref : Ref) (h' : Heap),
      stampOf operand h = (.ok ref, h') ∧ (ref ∈ operand.refs ∨ h[ref]? = none) ∧
      (∀ other ∈ operand.refs, other = ref) ∧ Unused h' ref msg ∧ SameBut [] h h' := by
  cases operand with
  | stamp ref =>
      refine ⟨ref, h, rfl, .inl (List.mem_singleton_self _), ?_, hready, fun _ _ hstamp _ => hstamp⟩
      exact fun other hmem => List.mem_singleton.mp hmem
  | raw bytes =>
      obtain rfl : bytes = msg := hready
      obtain ⟨ref, h', hmake, hfresh, hmade, hkeep⟩ := timestamp_spec bytes h
      exact ⟨ref, h', hmake, .inr hfresh, fun _ hmem => (nomatch hmem), hmade, hkeep⟩

theorem catSha256d_spec {left right : Operand} (hleft : Ready h msg left)
    (hright : Ready h msg' right) (hnodup : (left.refs ++ right.refs).Nodup) :
    ∃ (out : Ref) (h' : Heap), catSha256d left right h = (.ok out, h') ∧ h[out]? = none ∧
      Unused h' out (sha256d (msg ++ msg')) ∧
      (∀ ref ∈ left.refs, Path h' ref [.append msg', .sha256, .sha256] out) ∧
      (∀ ref ∈ right.refs, Path h' ref [.prepend msg, .sha256, .sha256] out) ∧ Grows h h' ∧
      SameBut (left.refs ++ right.refs) h h' := by
  obtain ⟨-, -, hapart⟩ := List.nodup_append.mp hnodup
  obtain ⟨l, h₁, hl, hlNew, hlOnly, hlUnused, hsame₁⟩ := stampOf_spec hleft
  obtain ⟨r, h₂, hr, hrNew, hrOnly, hrUnused, hsame₂⟩ :=
    stampOf_spec (hright.same hsame₁ fun _ _ hmem => nomatch hmem)
  have hlUnused₂ := hsame₂.unused hlUnused List.not_mem_nil
  have hgrows₂ : Grows h h₂ := hsame₁.grows.trans hsame₂.grows
  have hne : l ≠ r := by
    rintro rfl
    obtain hin' | hnone := hrNew
    · obtain hin | hnone := hlNew
      · exact hapart l hin l hin' rfl
      · cases right with
        | stamp ref =>
            obtain rfl := List.mem_singleton.mp hin'
            exact nomatch hnone.symm.trans hright
        | raw bytes => exact nomatch hin'
    · exact nomatch hnone.symm.trans hlUnused
  -- The right one's prepend gives the timestamp that the left one's append leads to as well.
  obtain ⟨joined, h₃, hjoin, hjoinedNew, hjoined, hpath₃, hgrows₃, hsame₃⟩ :=
    add_spec hrUnused (.prepend msg)
  have hlUnused₃ := hsame₃.unused hlUnused₂ fun hmem => hne (List.mem_singleton.mp hmem)
  have hlJoined : l ≠ joined := by
    rintro rfl
    exact nomatch hjoinedNew.symm.trans hlUnused₂
  have hjoinedMsg : Unused h₃ joined (Op.apply (.append msg') msg) := hjoined
  obtain ⟨h₄, hset, hpath₄, hgrows₄, hsame₄⟩ := setOp_spec hlUnused₃ hjoinedMsg hlJoined
  have hjoined₄ := hsame₄.unused hjoined fun hmem => hlJoined (List.mem_singleton.mp hmem).symm
  obtain ⟨hashed, h₅, hhash, hhashedNew, hhashed, hpath₅, hgrows₅, hsame₅⟩ :=
    add_spec hjoined₄ .sha256
  obtain ⟨out, h₆, hout, houtNew, houtUnused, hpath₆, hgrows₆, hsame₆⟩ := add_spec hhashed .sha256
  have htwice : Path h₆ joined [.sha256, .sha256] out := (hpath₅.mono hgrows₆).append hpath₆
  have hlater : Grows h₂ h₄ := hgrows₃.trans hgrows₄
  have hall : Grows h h₄ := hgrows₂.trans hlater
  refine ⟨out, h₆, ?_, ?_, houtUnused, ?_, ?_, ?_, ?_⟩
  · refine (Prog.bind_of_ok hl).trans ((Prog.bind_of_ok hr).trans ?_)
    refine (Prog.bind_of_ok (msgOf_unused hlUnused₂)).trans
      ((Prog.bind_of_ok (msgOf_unused hrUnused)).trans ?_)
    refine (Prog.bind_of_ok hjoin).trans ((Prog.bind_of_ok hset).trans ?_)
    exact (Prog.bind_of_ok hhash).trans hout
  · exact (hall.trans hgrows₅).none_of_none houtNew
  · intro ref href
    obtain rfl := hlOnly ref href
    exact (hpath₄.mono (hgrows₅.trans hgrows₆)).append htwice
  · intro ref href
    obtain rfl := hrOnly ref href
    exact (hpath₃.mono (hgrows₄.trans (hgrows₅.trans hgrows₆))).append htwice
  · exact hall.trans (hgrows₅.trans hgrows₆)
  · have hsame := ((((hsame₁.trans hsame₂).trans hsame₃).trans hsame₄).trans hsame₅).trans hsame₆
    refine SameBut.mono hsame fun ref hmem => ?_
    obtain rfl | rfl | rfl | rfl : ref = r ∨ ref = l ∨ ref = joined ∨ ref = hashed := by
      simpa using hmem
    · exact hrNew.imp (List.mem_append_right _) hsame₁.grows.none_of_none
    · exact hlNew.imp_left (List.mem_append_left _)
    · exact .inr (hgrows₂.none_of_none hjoinedNew)
    · exact .inr (hall.none_of_none hhashedNew)

theorem lib_documented (takes : Bytes → Bytes → Prop) : lib.Documented takes where
  timestamp := timestamp_spec
  add _ arg _ _ _ hunused := add_spec hunused (.prepend arg)
  catSha256d _ _ _ _ _ hleft hright hnodup := catSha256d_spec hleft hright hnodup
  attest _ _ _ _ hstamp := ⟨_, rfl, getElem?_modify_self hstamp _,
    grows_modify hstamp rfl (List.Subset.refl _) (List.subset_append_left _ _)⟩

end Documented

end OtsServer.BlockPath.Objects
