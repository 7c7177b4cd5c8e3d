import OtsServer.Selfstamp.Returning

/-!
# What a verdict says

`Holds` says what `verify_chain` asks of the directories, without the order in which it looks. Where
it returns, it returns True exactly when that holds: a file, an entry or a vouch of any other shape
is a break, and the walk goes on behind it.
-/

namespace OtsServer.Selfstamp

/-! ## A manifest -/

/-- A period comes after the one before, if there is one. -/
def Later (before period : JsonValue) : Prop :=
  before = .null ∨ ∃ last text, before = .str last ∧ period = .str text ∧ last < text

/-- There is no proof beside the bytes, or one of them whose attestation is known. -/
def GoodBeside (beside : Lookup) (raw : Bytes) : Prop :=
  beside = .missing ∨ ∃ data proof, beside = .held data ∧ parseOts data = .ok proof ∧
    proof.digest = Sha256.digest raw ∧ ∀ tag, proof.attestation ≠ .unknown tag

section Specification

variable (a : Archive)

/-- An entry names a copy that is held and is what the entry says. -/
def VouchHolds (items : Items) : Prop :=
  ∃ file raw, JsonValue.item items keyFile = .str file ∧ file ≠ [] ∧ a.copy file = .held raw ∧
    JsonValue.item items keySha256 = .str (sha256Text raw) ∧ GoodBeside (a.copyProof file) raw

/-- The vouches are a list of objects, if there are any, and each of them holds if it is looked
at. -/
def VouchesHold (skip : Bool) (witnessed : JsonValue) : Prop :=
  witnessed.truthy = false ∨ ∃ entries, witnessed = .arr entries ∧
    ∀ entry ∈ entries, ∃ items, entry = .obj items ∧ (skip = false → VouchHolds a items)

/-- The label of a chain: the first that one of its manifests has. -/
def firstLabel (front : List Str) : Option Str :=
  (front.filterMap (decoded a)).findSome? fun found => label found.1

/-- All that the verifier asks of a manifest. -/
structure Whole (skip : Bool) (front : List Str) (path : Str) (raw : Bytes) (m : Items) : Prop
    extends Placed a front path raw m where
  later : Later (lastPeriod a front) (JsonValue.item m keyPeriod)
  labelled : ∀ chain, firstLabel a front = some chain → label m = some chain
  commissioned : front = [] → JsonValue.item m keySchema = .str schema2 →
    ∃ items, JsonValue.item m keyCommissioning = .obj items
  uncommissioned : front ≠ [] → JsonValue.item m keySchema = .str schema2 →
    JsonValue.item m keyCommissioning = .null
  proof : GoodBeside (a.manifestProof path) raw
  vouches : VouchesHold a skip (JsonValue.item m keyWitnessed)

/-- Another chain's manifests can all be read. Of those here that have a label, it vouches for the
bytes of each that it vouches for at all. -/
structure Corroborated (w : WitnessChain) (paths files : List Str) : Prop where
  read : ∀ path ∈ paths, ∃ m, witnessManifest a w path = some m
  agrees : ∀ path ∈ files, ∀ raw m, a.manifest path = some raw →
    parseForeignManifest a.loads raw = .ok m → label m ≠ none →
    (∃ vouch ∈ vouchesOf a w paths, vouch.key.matches m = true) →
    ∃ vouch ∈ vouchesOf a w paths, vouch.key.matches m = true ∧ vouch.sha256 = .str (sha256Text raw)

/-- There are manifests, each is whole behind those before it, and the other chain corroborates
them. -/
structure Holds (witness : Option WitnessChain) (skip : Bool) (files : List Str) : Prop where
  listed : a.manifests = some files
  nonempty : files ≠ []
  whole : ∀ front path rest, files = front ++ path :: rest → ∃ raw m, Whole a skip front path raw m
  corroborated : ∀ w, witness = some w →
    w.isDir = some true ∧ ∃ paths, w.files = some paths ∧ Corroborated a w paths files

end Specification

section Checks

variable {a : Archive} {skip : Bool}

theorem isAfter_iff {before period : JsonValue} {after : Bool}
    (h : isAfter before period = .ok after) : after = true ↔ Later before period := by
  unfold isAfter at h
  unfold Later
  split_ifs at h with hnull
  · obtain rfl := Except.ok.inj h
    exact iff_of_true rfl (.inl (isNull_iff.mp hnull))
  · rw [or_iff_right fun heq => hnull (isNull_iff.mpr heq)]
    split at h
    next text =>
      split at h
      next last =>
        obtain rfl := Except.ok.inj h
        rw [decide_eq_true_iff]
        constructor
        · exact fun hlt => ⟨last, text, rfl, rfl, hlt⟩
        · rintro ⟨_, _, hlast, htext, hlt⟩
          obtain rfl := JsonValue.str.inj hlast
          obtain rfl := JsonValue.str.inj htext
          exact hlt
      next => exact nomatch h
    next hother =>
      obtain rfl := Except.ok.inj h
      refine iff_of_false Bool.false_ne_true ?_
      rintro ⟨_, text, -, rfl, -⟩
      exact hother text rfl

theorem good_proofState_iff {data raw : Bytes} {state : ProofState}
    (h : proofState data raw = .ok state) :
    state.good = true ↔ ∃ proof, parseOts data = .ok proof ∧ proof.digest = Sha256.digest raw ∧
      ∀ tag, proof.attestation ≠ .unknown tag := by
  unfold proofState at h
  split at h
  next hparse =>
    obtain rfl := Except.ok.inj h
    exact iff_of_false Bool.false_ne_true fun ⟨_, hok, _⟩ => nomatch hparse.symm.trans hok
  next => exact nomatch h
  next proof hparse =>
    have hproof : (∃ found, parseOts data = .ok found ∧ found.digest = Sha256.digest raw ∧
        ∀ tag, found.attestation ≠ .unknown tag) ↔
          proof.digest = Sha256.digest raw ∧ ∀ tag, proof.attestation ≠ .unknown tag := by
      constructor
      · rintro ⟨found, hfound, hspec⟩
        obtain rfl := Except.ok.inj (hparse.symm.trans hfound)
        exact hspec
      · exact fun hspec => ⟨proof, hparse, hspec⟩
    rw [hproof]
    split_ifs at h with hdigest
    · obtain rfl := Except.ok.inj h
      exact iff_of_false Bool.false_ne_true fun hspec => hdigest hspec.1
    · rw [and_iff_right (not_not.mp hdigest)]
      split at h
      next heq =>
        obtain rfl := Except.ok.inj h
        exact iff_of_true rfl fun tag hunknown => nomatch heq.symm.trans hunknown
      next heq =>
        obtain rfl := Except.ok.inj h
        exact iff_of_true rfl fun tag hunknown => nomatch heq.symm.trans hunknown
      next tag heq =>
        obtain rfl := Except.ok.inj h
        exact iff_of_false Bool.false_ne_true fun hspec => hspec tag heq

theorem good_describeBeside_iff {beside : Lookup} {raw : Bytes} {state : ProofState}
    (h : describeBeside beside raw = .ok state) : state.good = true ↔ GoodBeside beside raw := by
  unfold GoodBeside
  cases beside with
  | missing =>
      obtain rfl := Except.ok.inj h
      exact iff_of_true rfl (.inl rfl)
  | raises => exact nomatch h
  | unreadable =>
      obtain rfl := Except.ok.inj h
      exact iff_of_false Bool.false_ne_true (by simp)
  | held data =>
      have hstate : proofState data raw = .ok state := by
        unfold describeBeside at h
        dsimp only at h
        cases hstate : proofState data raw with
        | error e =>
            rw [hstate] at h
            exact nomatch h
        | ok found =>
            rw [hstate] at h
            exact congrArg Except.ok (Except.ok.inj h)
      rw [good_proofState_iff hstate, or_iff_right (by simp)]
      constructor
      · rintro ⟨proof, hproof⟩
        exact ⟨data, proof, rfl, hproof⟩
      · rintro ⟨_, proof, heq, hproof⟩
        obtain rfl := Lookup.held.inj heq
        exact ⟨proof, hproof⟩

/-! ## Vouches -/

theorem verifyCopy_iff {file : Str} {sha256 : JsonValue} {ok : Bool}
    (h : verifyCopy a file sha256 = .ok ok) :
    ok = true ↔ ∃ raw, a.copy file = .held raw ∧ sha256 = .str (sha256Text raw) ∧
      GoodBeside (a.copyProof file) raw := by
  unfold verifyCopy at h
  split at h
  next hcopy =>
    obtain rfl := Except.ok.inj h
    exact iff_of_false Bool.false_ne_true fun ⟨_, hheld, _⟩ => nomatch hcopy.symm.trans hheld
  next => exact nomatch h
  next hcopy =>
    obtain rfl := Except.ok.inj h
    exact iff_of_false Bool.false_ne_true fun ⟨_, hheld, _⟩ => nomatch hcopy.symm.trans hheld
  next raw hcopy =>
    obtain ⟨state, hstate, h⟩ := Except.exists_of_bind_ok h
    obtain ⟨_, -, h⟩ := Except.exists_of_bind_ok h
    obtain rfl := Except.ok.inj h
    rw [Bool.and_eq_true, equalsStr_iff, good_describeBeside_iff hstate, hcopy]
    constructor
    · exact fun hspec => ⟨raw, rfl, hspec⟩
    · rintro ⟨_, heq, hspec⟩
      obtain rfl := Lookup.held.inj heq
      exact hspec

theorem verifyVouch_iff {items : Items} {ok : Bool} (h : verifyVouch a skip items = .ok ok) :
    ok = true ↔ (skip = false → VouchHolds a items) := by
  unfold verifyVouch at h
  unfold VouchHolds
  cases skip with
  | true =>
      obtain rfl := Except.ok.inj h
      exact iff_of_true rfl nofun
  | false =>
      rw [forall_prop_of_true rfl]
      rw [if_neg Bool.false_ne_true] at h
      dsimp only at h
      split_ifs at h with htruthy
      · obtain rfl := Except.ok.inj h
        refine iff_of_false Bool.false_ne_true ?_
        rintro ⟨file, raw, hfile, hne, -⟩
        rw [hfile] at htruthy
        cases file with
        | nil => exact hne rfl
        | cons c file => exact nomatch htruthy
      · split at h
        next file hfile =>
          rw [verifyCopy_iff h, hfile]
          have hne : file ≠ [] := by
            rintro rfl
            rw [hfile] at htruthy
            exact htruthy rfl
          constructor
          · exact fun ⟨raw, hspec⟩ => ⟨file, raw, rfl, hne, hspec⟩
          · rintro ⟨_, raw, heq, -, hspec⟩
            obtain rfl := JsonValue.str.inj heq
            exact ⟨raw, hspec⟩
        next => exact nomatch h

/-- An entry of any other shape is a break. -/
theorem verifyEntry_iff {entry : JsonValue} {ok : Bool} (h : verifyEntry a skip entry = .ok ok) :
    ok = true ↔ ∃ items, entry = .obj items ∧ (skip = false → VouchHolds a items) := by
  cases entry with
  | obj items =>
      obtain ⟨found, hfound, h⟩ := Except.exists_of_bind_ok h
      obtain ⟨_, -, h⟩ := Except.exists_of_bind_ok h
      obtain rfl := Except.ok.inj h
      rw [verifyVouch_iff hfound]
      constructor
      · exact fun hspec => ⟨items, rfl, hspec⟩
      · rintro ⟨_, heq, hspec⟩
        obtain rfl := JsonValue.obj.inj heq
        exact hspec
  | _ =>
      obtain rfl := Except.ok.inj h
      exact iff_of_false Bool.false_ne_true fun ⟨_, heq, _⟩ => nomatch heq

theorem verifyWitnessed_iff {entries : List JsonValue} :
    ∀ {ok : Bool}, verifyWitnessed a skip entries = .ok ok → (ok = true ↔
      ∀ entry ∈ entries, ∃ items, entry = .obj items ∧ (skip = false → VouchHolds a items)) := by
  induction entries with
  | nil =>
      intro ok h
      obtain rfl := Except.ok.inj h
      exact iff_of_true rfl fun _ hmem => nomatch hmem
  | cons entry entries ih =>
      intro ok h
      obtain ⟨first, hfirst, h⟩ := Except.exists_of_bind_ok h
      obtain ⟨rest, hrest, h⟩ := Except.exists_of_bind_ok h
      obtain rfl := Except.ok.inj h
      rw [Bool.and_eq_true, verifyEntry_iff hfirst, ih hrest, List.forall_mem_cons]

/-- A text or an object is walked too, and none of its members is an object. -/
theorem vouches_iff {witnessed : JsonValue} {entries : List JsonValue} {vouched : Bool}
    (hentries : membersOf witnessed = .ok entries)
    (h : verifyWitnessed a skip entries = .ok vouched) :
    vouched = true ↔ VouchesHold a skip witnessed := by
  rw [verifyWitnessed_iff h]
  unfold membersOf at hentries
  unfold VouchesHold
  split_ifs at hentries with htruthy
  · obtain rfl := Except.ok.inj hentries
    exact iff_of_true (fun _ hmem => nomatch hmem) (.inl (by simpa using htruthy))
  · have htrue : ¬witnessed.truthy = false := by simpa using htruthy
    rw [or_iff_right htrue]
    split at hentries
    next =>
      obtain rfl := Except.ok.inj hentries
      constructor
      · exact fun hspec => ⟨_, rfl, hspec⟩
      · rintro ⟨_, heq, hspec⟩
        obtain rfl := JsonValue.arr.inj heq
        exact hspec
    next text =>
      obtain rfl := Except.ok.inj hentries
      refine iff_of_false (fun hall => ?_) fun ⟨_, heq, _⟩ => nomatch heq
      cases text with
      | nil => exact htrue rfl
      | cons c text =>
          obtain ⟨_, heq, -⟩ := hall (.str [c]) (List.mem_cons_self ..)
          exact nomatch heq
    next items =>
      obtain rfl := Except.ok.inj hentries
      refine iff_of_false (fun hall => ?_) fun ⟨_, heq, _⟩ => nomatch heq
      cases items with
      | nil => exact htrue rfl
      | cons item items =>
          obtain ⟨_, heq, -⟩ := hall (.str item.1) (List.mem_cons_self ..)
          exact nomatch heq
    next => exact nomatch hentries

end Checks

/-! ## The walk -/

section Walk

variable {a : Archive} {skip : Bool} {front : List Str} {path : Str} {s t : Link}

theorem labelHolds_iff {first found : Option Str} :
    labelHolds first found = true ↔ ∀ chain, first = some chain → found = some chain := by
  unfold labelHolds
  cases first with
  | none => exact iff_of_true (by cases found <;> rfl) nofun
  | some chain => cases found <;> simp

theorem commissioningHolds_iff {index : Nat} {schema commissioning : JsonValue} :
    commissioningHolds index schema commissioning = true ↔
      (index = 0 → schema = .str schema2 → ∃ items, commissioning = .obj items) ∧
        (index ≠ 0 → schema = .str schema2 → commissioning = .null) := by
  unfold commissioningHolds
  rw [Bool.or_eq_true, Bool.not_eq_true', ← Bool.not_eq_true, equalsStr_iff]
  by_cases hschema : schema = .str schema2
  · rw [or_iff_right (not_not.mpr hschema)]
    split_ifs with hindex
    · cases commissioning <;> simp [hindex, hschema]
    · rw [isNull_iff]
      simp [hindex, hschema]
  · exact iff_of_true (.inl hschema) ⟨fun _ h => absurd h hschema, fun _ h => absurd h hschema⟩

theorem firstLabel_concat (a : Archive) (front : List Str) (path : Str) :
    firstLabel a (front ++ [path]) =
      (firstLabel a front).or ((decoded a path).bind fun found => label found.1) := by
  unfold firstLabel
  rw [List.filterMap_append, List.findSome?_append]
  cases h : decoded a path with
  | none => rw [List.filterMap_cons_none h]; rfl
  | some found => rw [List.filterMap_cons_some h]; simp

/-- What the loop carries after `front`. -/
structure Carried (a : Archive) (front : List Str) (s : Link) : Prop extends Carries a front s where
  period : s.period = lastPeriod a front
  label : s.label = firstLabel a front

theorem Carried.start (a : Archive) : Carried a [] ⟨none, .null, none, true⟩ where
  none _ := rfl
  some _ hname := nomatch hname
  period := rfl
  label := rfl

theorem Carried.step (hs : Carried a front s)
    (h : verifyManifest a skip front.length path s = .ok t) : Carried a (front ++ [path]) t where
  toCarries := Carries.step h
  period := lastPeriod_step hs.period h
  label := by
    rw [firstLabel_concat, ← hs.label]
    obtain ⟨hnone, rfl⟩ | ⟨raw, m, valid, hread, hdecode, h⟩ := verifyManifest_cases h
    · rw [hnone]
      exact (Option.or_none ..).symm
    · obtain ⟨_, _, _, _, -, -, -, -, -, -, -, -, -, hlabel, -⟩ := verifyObject_cases h
      rw [decoded_eq hread hdecode]
      exact hlabel

/-- A round finds a break unless the manifest is whole. -/
theorem verifyManifest_iff (hs : Carried a front s)
    (h : verifyManifest a skip front.length path s = .ok t) :
    t.ok = true ↔ s.ok = true ∧ ∃ raw m, Whole a skip front path raw m := by
  obtain ⟨hnone, rfl⟩ | ⟨raw, m, valid, hread, hdecode, h⟩ := verifyManifest_cases h
  · refine iff_of_false Bool.false_ne_true ?_
    rintro ⟨-, raw, m, hwhole⟩
    have hdecode : decodeManifest a.loads raw = .ok (some (m, true)) := by
      rw [decodeManifest, hwhole.valid]
    exact nomatch hnone.symm.trans (decoded_eq hwhole.read hdecode)
  · obtain ⟨after, state, entries, vouched, hafter, hstate, -, -, -, hentries,
        hvouched, -, -, -, hiff⟩ :=
      verifyObject_cases h
    have hperiod := isAfter_iff hafter
    have hproof := good_describeBeside_iff hstate
    have hvouches := vouches_iff hentries hvouched
    rw [hs.period] at hperiod
    rw [hiff, hperiod, hproof, hvouches, equalsStr_iff, prevHolds_iff hs.toCarries, labelHolds_iff,
      commissioningHolds_iff, hs.label, Ne, List.length_eq_zero_iff]
    refine and_congr_right fun _ => ?_
    constructor
    · rintro ⟨rfl, hseq, hname, hlater, ⟨hgenesis, hlinked⟩, hlabel, ⟨hfirst, hother⟩,
        hproof, hvouches⟩
      exact ⟨raw, m, ⟨hread, decodeManifest_valid hdecode, hseq, hname, hgenesis, hlinked⟩,
        hlater, hlabel, hfirst, hother, hproof, hvouches⟩
    · rintro ⟨raw', m', hwhole⟩
      obtain rfl := Option.some.inj (hread.symm.trans hwhole.read)
      have hvalid : decodeManifest a.loads raw = .ok (some (m', true)) := by
        rw [decodeManifest, hwhole.valid]
      obtain ⟨rfl, rfl⟩ := Prod.mk.inj (Option.some.inj (Except.ok.inj (hdecode.symm.trans hvalid)))
      exact ⟨rfl, hwhole.seq, hwhole.period, hwhole.later, ⟨hwhole.genesis, hwhole.linked⟩,
        hwhole.labelled, ⟨hwhole.commissioned, hwhole.uncommissioned⟩, hwhole.proof, hwhole.vouches⟩

/-- A break is kept to the end of the walk, and none is found but where a manifest is not whole. -/
theorem verifyManifests_iff (paths : List Str) :
    ∀ (front : List Str) {s : Link}, Carried a front s →
    verifyManifests a skip front.length paths s = .ok t →
    (t.ok = true ↔ s.ok = true ∧ ∀ middle path rest, paths = middle ++ path :: rest →
      ∃ raw m, Whole a skip (front ++ middle) path raw m) := by
  induction paths with
  | nil =>
      intro front s _ h
      obtain rfl := Except.ok.inj h
      exact (and_iff_left fun middle _ _ hsplit => by cases middle <;> exact nomatch hsplit).symm
  | cons path paths ih =>
      intro front s hs h
      obtain ⟨u, hu, h⟩ := Except.exists_of_bind_ok h
      have hlength : front.length + 1 = (front ++ [path]).length := by
        rw [List.length_append, List.length_singleton]
      rw [hlength] at h
      rw [ih _ (hs.step hu) h, verifyManifest_iff hs hu, and_assoc]
      exact and_congr_right' (Traverse.forall_behind_cons (P := fun front path => ∃ raw m,
            Whole a skip front path raw m)).symm

end Walk

/-! ## Another chain's vouches -/

section Witness

variable {a : Archive} {w : WitnessChain} {vouches : List Vouch}

/-- Vouches under the manifest's own key, none of which has its sha256, are a break when it has a
label. -/
theorem crossCheckOne_iff {path : Str} {raw : Bytes} {m : Items} {ok : Bool}
    (h : crossCheckOne a vouches path raw m = .ok ok) : ok = true ↔
      (label m ≠ none → (∃ vouch ∈ vouches, vouch.key.matches m = true) →
        ∃ vouch ∈ vouches, vouch.key.matches m = true ∧ vouch.sha256 = .str (sha256Text raw)) := by
  unfold crossCheckOne at h
  dsimp only at h
  split_ifs at h
  obtain ⟨_, -, h⟩ := Except.exists_of_bind_ok h
  obtain rfl := Except.ok.inj h
  have hheld : (vouches.filter fun vouch => vouch.key.matches m) = [] ↔
      ¬∃ vouch ∈ vouches, vouch.key.matches m = true := by
    simp only [List.filter_eq_nil_iff, not_exists, not_and]
  have hhits : ((vouches.filter fun vouch => vouch.key.matches m).filter fun vouch =>
      equalsStr vouch.sha256 (sha256Text raw)) = [] ↔
        ¬∃ vouch ∈ vouches, vouch.key.matches m = true ∧ vouch.sha256 = .str (sha256Text raw) := by
    simp only [List.filter_eq_nil_iff, List.mem_filter, and_imp, not_exists, not_and, equalsStr_iff]
  rw [Bool.or_eq_true, Bool.or_eq_true, Bool.not_eq_true', ← Bool.not_eq_true,
    List.isEmpty_iff, List.isEmpty_iff, hheld, hhits, not_not, beq_iff_eq]
  by_cases hlabel : label m = none
  · exact iff_of_true (.inr hlabel) fun h => absurd hlabel h
  · rw [or_iff_left hlabel, forall_prop_of_true hlabel, or_comm, imp_iff_not_or]

theorem crossCheckAll_iff (paths : List Str) :
    ∀ {ok : Bool}, crossCheckAll a vouches paths = .ok ok → (ok = true ↔ ∀ path ∈ paths,
      ∀ raw m, a.manifest path = some raw → parseForeignManifest a.loads raw = .ok m →
      label m ≠ none → (∃ vouch ∈ vouches, vouch.key.matches m = true) →
        ∃ vouch ∈ vouches, vouch.key.matches m = true ∧ vouch.sha256 = .str (sha256Text raw)) := by
  induction paths with
  | nil =>
      intro ok h
      obtain rfl := Except.ok.inj h
      exact iff_of_true rfl fun _ hmem => absurd hmem List.not_mem_nil
  | cons path paths ih =>
      intro ok h
      rw [List.forall_mem_cons]
      unfold crossCheckAll at h
      split at h
      next hread =>
        rw [ih h]
        refine (and_iff_right fun raw m hraw => ?_).symm
        cases hread.symm.trans hraw
      next raw hread =>
        split at h
        next => cases h
        next hbroken =>
          rw [ih h]
          refine (and_iff_right fun raw' m hraw hm => ?_).symm
          obtain rfl := Option.some.inj (hread.symm.trans hraw)
          cases hbroken.symm.trans hm
        next m hm =>
          obtain ⟨first, hfirst, h⟩ := Except.exists_of_bind_ok h
          obtain ⟨rest, hrest, h⟩ := Except.exists_of_bind_ok h
          obtain rfl := Except.ok.inj h
          rw [Bool.and_eq_true, crossCheckOne_iff hfirst, ih hrest]
          refine and_congr_left' ⟨fun hspec raw' m' hraw hm' => ?_, fun hspec =>
            hspec raw m hread hm⟩
          obtain rfl := Option.some.inj (hread.symm.trans hraw)
          obtain rfl := Except.ok.inj (hm.symm.trans hm')
          exact hspec

theorem crossCheck_iff {files : List Str} {ok : Bool} (h : crossCheck a w files = .ok ok) :
    ok = true ↔ w.isDir = some true ∧ ∃ paths, w.files = some paths ∧
      Corroborated a w paths files := by
  unfold crossCheck at h
  split at h
  next => exact nomatch h
  next hdir =>
    obtain rfl := Except.ok.inj h
    exact iff_of_false Bool.false_ne_true fun hspec => nomatch hdir.symm.trans hspec.1
  next hdir =>
    rw [and_iff_right hdir]
    split at h
    next hfiles =>
      obtain rfl := Except.ok.inj h
      exact iff_of_false Bool.false_ne_true fun ⟨_, hsome, _⟩ => nomatch hfiles.symm.trans hsome
    next paths hfiles =>
      obtain ⟨⟨vouches, complete⟩, hgathered, h⟩ := Except.exists_of_bind_ok h
      obtain ⟨all, hall, h⟩ := Except.exists_of_bind_ok h
      obtain rfl := Except.ok.inj h
      obtain ⟨rfl, hcomplete⟩ := gatherVouches_ok paths hgathered
      rw [Bool.and_eq_true, hcomplete, crossCheckAll_iff files hall]
      constructor
      · exact fun hspec => ⟨paths, hfiles, hspec.1, hspec.2⟩
      · rintro ⟨paths', heq, hspec⟩
        obtain rfl := Option.some.inj (hfiles.symm.trans heq)
        exact ⟨hspec.read, hspec.agrees⟩

end Witness

/-- The verdict is whether all holds that the verifier asks of the directories. -/
theorem verifyChain_iff {a : Archive} {witness : Option WitnessChain} {skip verdict : Bool}
    (h : verifyChain a witness skip = .ok verdict) :
    verdict = true ↔ ∃ files, Holds a witness skip files := by
  unfold verifyChain at h
  split at h
  next hfiles =>
    obtain rfl := Except.ok.inj h
    exact iff_of_false Bool.false_ne_true fun ⟨_, hspec⟩ => nomatch hfiles.symm.trans hspec.listed
  next hfiles =>
    obtain rfl := Except.ok.inj h
    refine iff_of_false Bool.false_ne_true ?_
    rintro ⟨files, hspec⟩
    exact hspec.nonempty (Option.some.inj (hfiles.symm.trans hspec.listed)).symm
  next files hne hfiles =>
    obtain ⟨s, hwalk, h⟩ := Except.exists_of_bind_ok h
    have hok : s.ok = true ↔ _ := verifyManifests_iff files [] (Carried.start a) hwalk
    rw [and_iff_right rfl] at hok
    have hholds : (∃ found, Holds a witness skip found) ↔ s.ok = true ∧ ∀ w, witness = some w →
        w.isDir = some true ∧ ∃ paths, w.files = some paths ∧ Corroborated a w paths files := by
      rw [hok]
      constructor
      · rintro ⟨found, hspec⟩
        obtain rfl := Option.some.inj (hfiles.symm.trans hspec.listed)
        exact ⟨hspec.whole, hspec.corroborated⟩
      · exact fun hspec => ⟨files, hfiles, hne, hspec.1, hspec.2⟩
    rw [hholds]
    cases witness with
    | none =>
        obtain rfl := Except.ok.inj h
        exact (and_iff_left fun w heq => nomatch heq).symm
    | some w =>
        obtain ⟨ok, hcheck, h⟩ := Except.exists_of_bind_ok h
        obtain rfl := Except.ok.inj h
        rw [Bool.and_eq_true, crossCheck_iff hcheck]
        simp

/-- The verifier returns exactly when it can read and show all that it comes to, and then its
verdict is whether all holds that it asks of the directories. -/
theorem verdict_reached_iff (a : Archive) (witness : Option WitnessChain) (skip : Bool) :
    ((∃ verdict, verifyChain a witness skip = .ok verdict) ↔ Checkable a witness skip) ∧
      ∀ verdict, verifyChain a witness skip = .ok verdict →
        (verdict = true ↔ ∃ files, Holds a witness skip files) :=
  ⟨returns_verifyChain a witness skip, fun _ => verifyChain_iff⟩

/-! ## A number of vouches -/

namespace Counted

def manifest : Bytes :=
  Mispaired.bytes
    "\x7b\"schema\":\"selfstamp/3\",\"chain\":\"0f0f0f0f0f0f0f0f0f0f0f0f0f0f0f0f\"," ++
  Mispaired.bytes "\"period\":\"2026-01-01\"," ++
  Mispaired.bytes "\"seq\":1,\"prev\":null,\"witnessed\":5\x7d"

def items : Items :=
  [(keySchema, .str schema3), (keyChain, .str TwoDays.chainLabel), (keyPeriod,
      .str (Str.ofString "2026-01-01")), (keySeq, .int 1), (keyPrev, .null), (keyWitnessed, .int 5)]

def loads : Loads := fun raw =>
  if raw = manifest then .ok (.obj items) else
    .error (.valueError "Expecting value: line 1 column 1 (char 0)")

/-- One manifest, which the validator takes. -/
def archive : Archive where
  loads := loads
  prints := encodable
  manifests := some [Str.ofString "2026-01-01.json"]
  named files hfiles := by
    obtain rfl := Option.some.inj hfiles
    decide
  manifest name := if name = Str.ofString "2026-01-01.json" then some manifest else none
  manifestProof _ := .missing
  copy _ := .missing
  copyProof _ := .missing
  copyForeign _ := .missing

end Counted

/-- A valid manifest whose vouches are a number stops the verifier. -/
theorem number_of_vouches_raises :
    (parseForeignManifest Counted.archive.loads Counted.manifest).isOk = true ∧
      ¬∃ verdict, verifyChain Counted.archive none false = .ok verdict := by
  refine ⟨by decide +kernel, ?_⟩
  rintro ⟨verdict, h⟩
  have hraised : verifyChain Counted.archive none false = .error .typeError := by decide +kernel
  exact nomatch hraised.symm.trans h

end OtsServer.Selfstamp
