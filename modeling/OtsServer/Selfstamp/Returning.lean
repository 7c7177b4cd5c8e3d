import OtsServer.Selfstamp.Binding

/-!
# When the verifier returns

The validator looks at five fields, and the verifier goes on with others as they are. `Tolerable`
says of a manifest which shapes of those the verifier can go on with, `Comparable` the same of
another chain's vouches; it returns a verdict exactly when all that it reads has these shapes, and
all that it logs can be printed.
-/

namespace OtsServer.Selfstamp

/-! ## Returning -/

/-- The computation raises nothing. -/
def Returns {α : Type} (r : Except Raised α) : Prop := ∃ x, r = .ok x

section Returning

variable {α β : Type} {x : Except Raised α} {f : α → Except Raised β}

theorem returns_ok (y : α) : Returns (.ok y : Except Raised α) := ⟨y, rfl⟩

theorem not_returns_error (e : Raised) : ¬Returns (.error e : Except Raised α) :=
  fun ⟨_, h⟩ => nomatch h

theorem returns_bind_iff : Returns (x >>= f) ↔ ∃ y, x = .ok y ∧ Returns (f y) := by
  constructor
  · rintro ⟨z, h⟩
    obtain ⟨y, hy, hz⟩ := Except.exists_of_bind_ok h
    exact ⟨y, hy, z, hz⟩
  · rintro ⟨y, rfl, hf⟩
    exact hf

/-- Whether what follows returns does not depend on the value. -/
theorem returns_bind_const {P : Prop} (h : ∀ y, x = .ok y → (Returns (f y) ↔ P)) :
    Returns (x >>= f) ↔ Returns x ∧ P := by
  rw [returns_bind_iff]
  constructor
  · rintro ⟨y, hy, hf⟩
    exact ⟨⟨y, hy⟩, (h y hy).mp hf⟩
  · rintro ⟨⟨y, hy⟩, hp⟩
    exact ⟨y, hy, (h y hy).mpr hp⟩

theorem returns_bind_ok (g : α → β) : Returns (x >>= fun y => .ok (g y)) ↔ Returns x := by
  rw [returns_bind_const fun y _ => iff_true_intro (returns_ok (g y)), and_true]

end Returning

/-! ## Shapes -/

/-- An object, or what `or` passes over. -/
def ObjectOrEmpty (v : JsonValue) : Prop := v.truthy = false ∨ ∃ items, v = .obj items

/-- What `len` and a loop take, or what `or` passes over. -/
def Sized (v : JsonValue) : Prop :=
  v.truthy = false ∨ (∃ entries, v = .arr entries) ∨ (∃ text, v = .str text) ∨ ∃ items,
    v = .obj items

theorem returns_getOf (v : JsonValue) (key : Str) : Returns (getOf v key) ↔ ObjectOrEmpty v := by
  unfold getOf ObjectOrEmpty
  cases htruthy : v.truthy with
  | false => exact iff_of_true (returns_ok _) (.inl rfl)
  | true =>
      rw [Bool.not_true, if_neg Bool.false_ne_true, or_iff_right Bool.noConfusion]
      cases v with
      | obj items => exact iff_of_true (returns_ok _) ⟨items, rfl⟩
      | _ => exact iff_of_false (not_returns_error _) fun ⟨_, h⟩ => nomatch h

/-- A field of an object, of anything else none. -/
def fieldOf (v : JsonValue) (key : Str) : JsonValue :=
  match v with
  | .obj items => JsonValue.item items key
  | _ => .null

theorem getOf_ok {v field : JsonValue} {key : Str} (h : getOf v key = .ok field) :
    field = fieldOf v key := by
  unfold getOf at h
  split_ifs at h with htruthy
  · obtain rfl := Except.ok.inj h
    cases v with
    | obj items =>
        cases items with
        | nil => rfl
        | cons item items => exact nomatch htruthy
    | _ => rfl
  · split at h
    · exact (Except.ok.inj h).symm
    · exact nomatch h

theorem returns_membersOf (v : JsonValue) : Returns (membersOf v) ↔ Sized v := by
  unfold membersOf Sized
  cases htruthy : v.truthy with
  | false => exact iff_of_true (returns_ok _) (.inl rfl)
  | true =>
      rw [Bool.not_true, if_neg Bool.false_ne_true, or_iff_right Bool.noConfusion]
      cases v with
      | arr entries => exact iff_of_true (returns_ok _) (.inl ⟨entries, rfl⟩)
      | str text => exact iff_of_true (returns_ok _) (.inr (.inl ⟨text, rfl⟩))
      | obj items => exact iff_of_true (returns_ok _) (.inr (.inr ⟨items, rfl⟩))
      | _ =>
          refine iff_of_false (not_returns_error _) ?_
          rintro (⟨_, h⟩ | ⟨_, h⟩ | ⟨_, h⟩) <;> exact nomatch h

/-- The objects of a list. -/
def objectsOf (entries : List JsonValue) : List Items :=
  entries.filterMap fun
    | .obj items => some items
    | _ => none

/-- The entries that are vouches: the objects of a list, of anything else none. -/
def entriesOf : JsonValue → List Items
  | .arr entries => objectsOf entries
  | _ => []

theorem mem_objectsOf {entries : List JsonValue} {items : Items} :
    items ∈ objectsOf entries ↔ .obj items ∈ entries := by
  unfold objectsOf
  rw [List.mem_filterMap]
  constructor
  · rintro ⟨entry, hentry, heq⟩
    split at heq
    · obtain rfl := Option.some.inj heq
      exact hentry
    · exact nomatch heq
  · exact fun h => ⟨_, h, rfl⟩

/-- What is walked has the objects of the entries: of a text or of an object no member is one. -/
theorem objectsOf_membersOf {v : JsonValue} {entries : List JsonValue}
    (h : membersOf v = .ok entries) : objectsOf entries = entriesOf v := by
  unfold membersOf at h
  split_ifs at h with htruthy
  · obtain rfl := Except.ok.inj h
    cases v with
    | arr all =>
        cases all with
        | nil => rfl
        | cons entry all => exact nomatch htruthy
    | _ => rfl
  · split at h
    · obtain rfl := Except.ok.inj h
      rfl
    · obtain rfl := Except.ok.inj h
      exact List.filterMap_eq_nil_iff.mpr fun entry hentry => by
        obtain ⟨_, _, rfl⟩ := List.mem_map.mp hentry
        rfl
    · obtain rfl := Except.ok.inj h
      exact List.filterMap_eq_nil_iff.mpr fun entry hentry => by
        obtain ⟨_, _, rfl⟩ := List.mem_map.mp hentry
        rfl
    · exact nomatch h

/-! ## Copies and their proofs -/

theorem returns_proofState (data raw : Bytes) : Returns ((proofState data raw).mapError .ots) := by
  unfold proofState
  cases hparse : parseOts data with
  | error e =>
      obtain ⟨text, rfl⟩ := parseOts_onlyOtsError data e hparse
      exact returns_ok _
  | ok proof =>
      dsimp only
      split_ifs
      · exact returns_ok _
      · split <;> exact returns_ok _

theorem returns_describeBeside (beside : Lookup) (raw : Bytes) :
    Returns (describeBeside beside raw) ↔ beside ≠ .raises := by
  cases beside with
  | raises => exact iff_of_false (not_returns_error _) fun h => h rfl
  | held data => exact iff_of_true (returns_proofState data raw) fun h => nomatch h
  | _ => exact iff_of_true (returns_ok _) fun h => nomatch h

theorem returns_foreignBeside (beside : Lookup) :
    Returns (foreignBeside beside) ↔ beside ≠ .raises := by
  cases beside with
  | raises => exact iff_of_false (not_returns_error _) fun h => h rfl
  | held data =>
      refine iff_of_true ?_ fun h => nomatch h
      unfold foreignBeside
      dsimp only
      cases hparse : parseOts data with
      | error e =>
          obtain ⟨text, rfl⟩ := parseOts_onlyOtsError data e hparse
          exact returns_ok _
      | ok proof => exact returns_ok _
  | _ => exact iff_of_true (returns_ok _) fun h => nomatch h

section Entries

variable (a : Archive)

/-- A line of the log can show the values. -/
def Printable (shown : List JsonValue) : Prop := ∀ v ∈ shown, a.prints v = true

theorem returns_report (shown : List JsonValue) : Returns (report a shown) ↔ Printable a shown := by
  unfold report Printable
  rw [← List.all_eq_true]
  split_ifs with h
  · exact iff_of_true (returns_ok _) h
  · exact iff_of_false (not_returns_error _) h

/-- The copy's name can be looked up, and so can the proofs beside a copy that is held. -/
def Answers (file : Str) : Prop :=
  a.copy file ≠ .raises ∧
    ∀ raw, a.copy file = .held raw → a.copyProof file ≠ .raises ∧ a.copyForeign file ≠ .raises

/-- An entry names no file, or one that can be looked up. -/
def Named (items : Items) : Prop :=
  (JsonValue.item items keyFile).truthy = false ∨ ∃ file, JsonValue.item items keyFile = .str file ∧
    Answers a file

theorem returns_verifyCopy (file : Str) (sha256 : JsonValue) :
    Returns (verifyCopy a file sha256) ↔ Answers a file := by
  unfold verifyCopy Answers
  cases hcopy : a.copy file with
  | raises => exact iff_of_false (not_returns_error _) fun h => h.1 rfl
  | held raw =>
      dsimp only
      rw [returns_bind_const fun state _ => returns_bind_ok fun _ => equalsStr sha256
        (sha256Text raw) && state.good, returns_describeBeside, returns_foreignBeside]
      constructor
      · exact fun h => ⟨(fun heq => nomatch heq), (fun _ _ => h)⟩
      · exact fun h => h.2 raw rfl
  | _ => exact iff_of_true (returns_ok _) ⟨(fun h => nomatch h), (fun _ h => nomatch h)⟩

/-- An entry whose copy can be looked for, and that the log can show. -/
structure Answerable (skip : Bool) (items : Items) : Prop where
  named : skip = false → Named a items
  shown : Printable a (entryShown items)

theorem returns_verifyVouch (skip : Bool) (items : Items) :
    Returns (verifyVouch a skip items) ↔ (skip = false → Named a items) := by
  unfold verifyVouch Named
  cases skip with
  | true => exact iff_of_true (returns_ok _) fun h => nomatch h
  | false =>
      rw [forall_prop_of_true rfl, if_neg Bool.false_ne_true]
      dsimp only
      cases htruthy : (JsonValue.item items keyFile).truthy with
      | false => exact iff_of_true (returns_ok _) (.inl rfl)
      | true =>
          rw [Bool.not_true, if_neg Bool.false_ne_true, or_iff_right Bool.noConfusion]
          cases hfile : JsonValue.item items keyFile with
          | str file =>
              dsimp only
              rw [returns_verifyCopy]
              exact ⟨fun h => ⟨file, rfl, h⟩, fun ⟨_, heq, h⟩ => JsonValue.str.inj heq ▸ h⟩
          | _ => exact iff_of_false (not_returns_error _) fun ⟨_, heq, _⟩ => nomatch heq

theorem returns_verifyEntry (skip : Bool) (entry : JsonValue) :
    Returns (verifyEntry a skip entry) ↔ ∀ items, entry = .obj items → Answerable a skip items := by
  cases entry with
  | obj items =>
      have hitems : (∀ found, JsonValue.obj items = .obj found → Answerable a skip found) ↔
          Answerable a skip items :=
        ⟨fun h => h items rfl, fun h _ heq => JsonValue.obj.inj heq ▸ h⟩
      unfold verifyEntry
      rw [hitems, returns_bind_const fun ok _ => returns_bind_ok fun _ => ok,
        returns_verifyVouch, returns_report]
      exact ⟨fun h => ⟨h.1, h.2⟩, fun h => ⟨h.named, h.shown⟩⟩
  | _ => exact iff_of_true (returns_ok _) fun _ heq => nomatch heq

/-- The vouches are walked to the end, whatever is found wrong with one. -/
theorem returns_verifyWitnessed (skip : Bool) (entries : List JsonValue) :
    Returns (verifyWitnessed a skip entries) ↔ ∀ items ∈ objectsOf entries,
      Answerable a skip items := by
  induction entries with
  | nil => exact iff_of_true (returns_ok _) fun _ hmem => nomatch hmem
  | cons entry entries ih =>
      unfold verifyWitnessed
      rw [returns_bind_const fun ok _ => returns_bind_ok fun rest => ok && rest,
        returns_verifyEntry, ih]
      simp only [mem_objectsOf, List.mem_cons]
      constructor
      · rintro ⟨hentry, hentries⟩ items (heq | hmem)
        · exact hentry items heq.symm
        · exact hentries items hmem
      · exact fun h =>
          ⟨fun items heq => h items (.inl heq.symm), fun items hmem => h items (.inr hmem)⟩

end Entries

/-! ## Manifests -/

section Walk

variable (a : Archive)

/-- The period that the next manifest is compared with: that of the last one that decodes to an
object. -/
def lastPeriod (front : List Str) : JsonValue :=
  ((front.filterMap (decoded a)).getLast?.map fun found =>
      JsonValue.item found.1 keyPeriod).getD .null

/-- A period that a text can be compared with, where a text is to be. -/
def ComparablePeriods (before period : JsonValue) : Prop :=
  ∀ text, period = .str text → isNull before = true ∨ ∃ last, before = .str last

/-- What the line about the first manifest shows. -/
structure Genesis (m : Items) : Prop where
  forkHead : ObjectOrEmpty (JsonValue.item m keyForkHead)
  config : ObjectOrEmpty (JsonValue.item m keyConfig)
  shown : Printable a [JsonValue.item m keyChain, JsonValue.item m keyCreatedAt,
    fieldOf (JsonValue.item m keyForkHead) keyCommit,
    fieldOf (JsonValue.item m keyConfig) keySha256]

/-- What the line about the commissioning shows. -/
structure Commissioned (items : Items) : Prop where
  config : ObjectOrEmpty (JsonValue.item items keyConfig)
  shown : Printable a [JsonValue.item items keyHost, JsonValue.item items keyForkCommit,
    fieldOf (JsonValue.item items keyConfig) keySha256, JsonValue.item items keyInstalledAt]

/-- What the verifier goes on to read of a manifest has a shape that it can read. -/
structure Tolerable (skip : Bool) (front : List Str) (path : Str) (m : Items) : Prop where
  period : ComparablePeriods (lastPeriod a front) (JsonValue.item m keyPeriod)
  proof : a.manifestProof path ≠ .raises
  seq : a.prints (JsonValue.item m keySeq) = true
  genesis : front = [] → equalsStr (JsonValue.item m keySchema) schema3 = true →
    label m ≠ none → Genesis a m
  commissioning : ∀ items, JsonValue.item m keyCommissioning = .obj items → Commissioned a items
  witnessed : Sized (JsonValue.item m keyWitnessed)
  entries : ∀ items ∈ entriesOf (JsonValue.item m keyWitnessed), Answerable a skip items

/-- The bytes are not nested so deeply that they cannot be decoded. -/
def Decodable (raw : Bytes) : Prop := a.loads raw ≠ .error .recursionError

/-- The verifier can go on from a manifest. -/
structure Passable (skip : Bool) (front : List Str) (path : Str) : Prop where
  named : a.prints (.str path) = true
  decodes : ∀ raw, a.manifest path = some raw → Decodable a raw
  tolerable : ∀ m valid, decoded a path = some (m, valid) → Tolerable a skip front path m

/-- The verifier can go on from every manifest. -/
def Walkable (skip : Bool) (files : List Str) : Prop :=
  ∀ front path rest, files = front ++ path :: rest → Passable a skip front path

variable {a} {skip : Bool}

theorem returns_isAfter (before period : JsonValue) :
    Returns (isAfter before period) ↔ ComparablePeriods before period := by
  unfold isAfter ComparablePeriods
  cases hnull : isNull before with
  | true => exact iff_of_true (returns_ok _) fun _ _ => .inl rfl
  | false =>
      rw [if_neg Bool.false_ne_true]
      cases period with
      | str text =>
          cases before with
          | str last => exact iff_of_true (returns_ok _) fun _ _ => .inr ⟨last, rfl⟩
          | _ =>
              refine iff_of_false (not_returns_error _) fun h => ?_
              obtain h | ⟨_, h⟩ := h text rfl <;> exact nomatch h
      | _ => exact iff_of_true (returns_ok _) fun _ h => nomatch h

theorem returns_genesisRecord (index : Nat) (m : Items) :
    Returns (genesisRecord a index m) ↔ (index = 0 ∧
      equalsStr (JsonValue.item m keySchema) schema3 = true ∧ label m ≠ none → Genesis a m) := by
  unfold genesisRecord
  split_ifs with hgenesis
  · rw [forall_prop_of_true hgenesis, returns_bind_const fun commit hcommit =>
        returns_bind_const fun config hconfig => by
      rw [returns_report, getOf_ok hcommit, getOf_ok hconfig], returns_getOf, returns_getOf]
    exact ⟨fun h => ⟨h.1, h.2.1, h.2.2⟩, fun h => ⟨h.forkHead, h.config, h.shown⟩⟩
  · exact iff_of_true (returns_ok _) fun h => absurd h hgenesis

theorem returns_commissionedRecord (commissioning : JsonValue) :
    Returns (commissionedRecord a commissioning) ↔ ∀ items, commissioning = .obj items →
      Commissioned a items := by
  unfold commissionedRecord
  cases commissioning with
  | obj items =>
      have hitems : (∀ found, JsonValue.obj items = .obj found → Commissioned a found) ↔
          Commissioned a items :=
        ⟨fun h => h items rfl, fun h _ heq => JsonValue.obj.inj heq ▸ h⟩
      rw [hitems, returns_bind_const fun config hconfig => by rw [returns_report, getOf_ok hconfig],
        returns_getOf]
      exact ⟨fun h => ⟨h.1, h.2⟩, fun h => ⟨h.config, h.shown⟩⟩
  | _ => exact iff_of_true (returns_ok _) fun _ h => nomatch h

theorem returns_verifyObject {front : List Str} {path : Str} {raw : Bytes} {m : Items}
    {valid : Bool} {s : Link} (hs : s.period = lastPeriod a front) :
    Returns (verifyObject a skip front.length path raw m valid s) ↔
      a.prints (.str path) = true ∧ Tolerable a skip front path m := by
  unfold verifyObject
  have hentries {β : Type} (g : List JsonValue → Bool → β) : Returns (do
        let entries ← membersOf (JsonValue.item m keyWitnessed)
        let vouched ← verifyWitnessed a skip entries
        .ok (g entries vouched)) ↔
      Sized (JsonValue.item m keyWitnessed) ∧ ∀ items ∈ entriesOf (JsonValue.item m keyWitnessed),
          Answerable a skip items := by
    rw [returns_bind_const fun entries hentries => (returns_bind_ok (g entries)).trans
      ((returns_verifyWitnessed a skip entries).trans (by rw [objectsOf_membersOf hentries])),
        returns_membersOf]
  have hline : Printable a [.str path, JsonValue.item m keySeq] ↔
      a.prints (.str path) = true ∧ a.prints (JsonValue.item m keySeq) = true := by
    rw [Printable, List.forall_mem_cons, List.forall_mem_singleton]
  rw [returns_bind_const fun after _ => returns_bind_const fun state _ =>
      returns_bind_const fun _ _ =>
      returns_bind_const fun _ _ => returns_bind_const fun _ _ => hentries _,
    returns_isAfter, returns_describeBeside, returns_report, hline, returns_genesisRecord,
    returns_commissionedRecord, hs,
    List.length_eq_zero_iff]
  constructor
  · rintro ⟨hperiod, hproof, ⟨hpath, hseq⟩, hgenesis, hcommissioning, hsized, hnamed⟩
    exact ⟨hpath, hperiod, hproof, hseq, fun hfront hschema hlabel =>
      hgenesis ⟨hfront, hschema, hlabel⟩, hcommissioning, hsized, hnamed⟩
  · rintro ⟨hpath, hperiod, hproof, hseq, hgenesis, hcommissioning, hsized, hnamed⟩
    exact ⟨hperiod, hproof, ⟨hpath, hseq⟩, fun h => hgenesis h.1 h.2.1 h.2.2,
      hcommissioning, hsized, hnamed⟩

theorem returns_decodeManifest (loads : Loads) (raw : Bytes) :
    Returns (decodeManifest loads raw) ↔ loads raw ≠ .error .recursionError := by
  rw [Ne, ← parse_deep_iff]
  unfold decodeManifest
  split
  next h => exact iff_of_true (returns_ok _) fun hdeep => nomatch h.symm.trans hdeep
  next h => exact iff_of_false (not_returns_error _) fun hnot => hnot h
  next h =>
    have hnot : parseForeignManifest loads raw ≠ .error .recursionError :=
      fun hdeep => nomatch h.symm.trans hdeep
    split <;> exact iff_of_true (returns_ok _) hnot

theorem returns_verifyManifest {front : List Str} {path : Str} {s : Link}
    (hs : s.period = lastPeriod a front) :
    Returns (verifyManifest a skip front.length path s) ↔ Passable a skip front path := by
  have hpassable : Passable a skip front path ↔ a.prints (.str path) = true ∧
      (∀ raw, a.manifest path = some raw → Decodable a raw) ∧
      ∀ m valid, decoded a path = some (m, valid) → Tolerable a skip front path m :=
    ⟨fun h => ⟨h.named, h.decodes, h.tolerable⟩, fun h => ⟨h.1, h.2.1, h.2.2⟩⟩
  have hline : ∀ t : Link, Returns (do
      report a [.str path]
      .ok t) ↔ a.prints (.str path) = true := fun t => by
    rw [returns_bind_ok fun _ => t, returns_report, Printable, List.forall_mem_singleton]
  rw [hpassable]
  unfold verifyManifest decoded
  cases hread : a.manifest path with
  | none =>
      exact (hline _).trans (and_iff_left ⟨(fun _ h => nomatch h), (fun _ _ h => nomatch h)⟩).symm
  | some raw =>
      have hdecodable : (∀ raw', some raw = some raw' → Decodable a raw') ↔
          Returns (decodeManifest a.loads raw) := by
        rw [returns_decodeManifest]
        exact ⟨fun h => h raw rfl, fun h _ heq => Option.some.inj heq ▸ h⟩
      dsimp only
      rw [Option.map_some, hdecodable]
      cases hdecode : decodeManifest a.loads raw with
      | error e => exact iff_of_false (not_returns_error _) fun h => not_returns_error _ h.2.1
      | ok found =>
          cases found with
          | none =>
              exact (hline _).trans (and_iff_left ⟨returns_ok _, (fun _ _ h => nomatch h)⟩).symm
          | some found =>
              obtain ⟨m, valid⟩ := found
              refine (returns_verifyObject hs).trans (and_congr_right fun _ => ?_)
              rw [and_iff_right (returns_ok _)]
              refine ⟨fun h _ _ heq => ?_, fun h => h m valid rfl⟩
              obtain ⟨rfl, -⟩ := Prod.mk.inj (Option.some.inj heq)
              exact h

theorem lastPeriod_concat_none {front : List Str} {path : Str} (h : decoded a path = none) :
    lastPeriod a (front ++ [path]) = lastPeriod a front := by
  unfold lastPeriod
  rw [List.filterMap_append, List.filterMap_cons_none h, List.filterMap_nil, List.append_nil]

theorem lastPeriod_concat_some {front : List Str} {path : Str} {m : Items} {valid : Bool}
    (h : decoded a path = some (m, valid)) :
    lastPeriod a (front ++ [path]) = JsonValue.item m keyPeriod := by
  unfold lastPeriod
  rw [List.filterMap_append, List.filterMap_cons_some h, List.filterMap_nil,
    List.getLast?_concat, Option.map_some, Option.getD_some]

theorem decoded_eq {path : Str} {raw : Bytes} {found : Option (Items × Bool)}
    (hread : a.manifest path = some raw) (hdecode : decodeManifest a.loads raw = .ok found) :
    decoded a path = found := by
  rw [decoded, hread, Option.map_some, hdecode]

/-- What the loop carries is the period of the last manifest that decodes. -/
theorem lastPeriod_step {front : List Str} {path : Str} {s t : Link} {index : Nat}
    (hs : s.period = lastPeriod a front) (h : verifyManifest a skip index path s = .ok t) :
    t.period = lastPeriod a (front ++ [path]) := by
  obtain ⟨hnone, rfl⟩ | ⟨raw, m, valid, hread, hdecode, h⟩ := verifyManifest_cases h
  · rw [lastPeriod_concat_none hnone]
    exact hs
  · rw [lastPeriod_concat_some (decoded_eq hread hdecode)]
    obtain ⟨_, _, _, _, -, -, -, -, -, -, -, -, hperiod, -⟩ := verifyObject_cases h
    exact hperiod

/-- The walk comes to its end exactly when no manifest stops it, each behind those that come before
it. -/
theorem returns_verifyManifests (paths : List Str) :
    ∀ (front : List Str) {s : Link}, s.period = lastPeriod a front →
    (Returns (verifyManifests a skip front.length paths s) ↔ ∀ middle path rest,
        paths = middle ++ path :: rest → Passable a skip (front ++ middle) path) := by
  induction paths with
  | nil =>
      exact fun _ _ _ => iff_of_true (returns_ok _) fun middle _ _ hsplit =>
        by cases middle <;> exact nomatch hsplit
  | cons path paths ih =>
      intro front s hs
      have hlength : front.length + 1 = (front ++ [path]).length := by
        rw [List.length_append, List.length_singleton]
      unfold verifyManifests
      rw [hlength, returns_bind_const fun t ht => ih _ (lastPeriod_step hs ht),
        returns_verifyManifest hs]
      exact (Traverse.forall_behind_cons (P := Passable a skip)).symm

theorem returns_walk (files : List Str) :
    Returns (verifyManifests a skip 0 files ⟨none, .null, none, true⟩) ↔ Walkable a skip files :=
  returns_verifyManifests files [] rfl

end Walk

/-! ## Another chain's vouches -/

section Witness

variable (a : Archive) (w : WitnessChain)

/-- A manifest of the other chain, when it can be read and is valid. -/
def witnessManifest (path : Str) : Option Items :=
  match (w.manifest path).map (parseForeignManifest a.loads) with
  | some (.ok m) => some m
  | _ => none

/-- The vouch that an entry of a manifest is. -/
def vouchOf (path : Str) (m items : Items) : Vouch :=
  ⟨identity items, JsonValue.item items keySha256, chainName m, JsonValue.item m keySeq, path⟩

/-- The vouches of a manifest of the other chain. -/
def vouchesBeside (path : Str) : List Vouch :=
  (witnessManifest a w path).elim [] fun m =>
    (entriesOf (JsonValue.item m keyWitnessed)).map (vouchOf path m)

/-- The vouches of the other chain. -/
def vouchesOf (paths : List Str) : List Vouch := paths.flatMap (vouchesBeside a w)

/-- What the line about a manifest shows, of the vouches under its key. -/
def crossLine (vouches : List Vouch) (path : Str) (raw : Bytes) (m : Items) : List JsonValue :=
  let held := vouches.filter fun vouch => vouch.key.matches m
  crossShown path m (held.filter fun vouch => equalsStr vouch.sha256 (sha256Text raw)) held

/-- What the verifier goes on to read of a manifest of the other chain has a shape that it can
read. -/
structure Gatherable (path : Str) : Prop where
  decodes : ∀ raw, w.manifest path = some raw → Decodable a raw
  named : witnessManifest a w path = none → a.prints (.str path) = true
  sized : ∀ m, witnessManifest a w path = some m → Sized (JsonValue.item m keyWitnessed)
  keyed : ∀ vouch ∈ vouchesBeside a w path, vouch.key.hashable = true

/-- The vouches under a manifest's key can be told apart, and the line about it printed. -/
structure Countable (vouches : List Vouch) (path : Str) (raw : Bytes) (m : Items) : Prop where
  counted : ∀ vouch ∈ vouches, vouch.key.matches m = true → hashable vouch.sha256 = true
  shown : Printable a (crossLine vouches path raw m)

/-- Every vouch of the other chain can be gathered under a key, and those under a manifest's own be
told apart. -/
structure Comparable (paths files : List Str) : Prop where
  gathered : ∀ path ∈ paths, Gatherable a w path
  counted : ∀ path ∈ files, ∀ raw m, a.manifest path = some raw →
    parseForeignManifest a.loads raw = .ok m → Countable a (vouchesOf a w paths) path raw m

variable {a w}

@[simp] theorem objectsOf_cons_obj (items : Items) (entries : List JsonValue) :
    objectsOf (.obj items :: entries) = items :: objectsOf entries := rfl

theorem gatherEntries_ok (path : Str) (m : Items) (entries : List JsonValue) :
    ∀ {vouches : List Vouch}, gatherEntries path m entries = .ok vouches →
      vouches = (objectsOf entries).map (vouchOf path m) := by
  induction entries with
  | nil => exact fun h => (Except.ok.inj h).symm
  | cons entry entries ih =>
      intro vouches h
      cases entry with
      | obj items =>
          unfold gatherEntries at h
          split_ifs at h
          obtain ⟨rest, hrest, h⟩ := Except.exists_of_bind_ok h
          obtain rfl := Except.ok.inj h
          rw [objectsOf_cons_obj, List.map_cons, ← ih hrest]
          rfl
      | _ => exact ih h

theorem returns_gatherEntries (path : Str) (m : Items) (entries : List JsonValue) :
    Returns (gatherEntries path m entries) ↔
      ∀ vouch ∈ (objectsOf entries).map (vouchOf path m), vouch.key.hashable = true := by
  rw [List.forall_mem_map]
  induction entries with
  | nil => exact iff_of_true (returns_ok _) fun _ hmem => nomatch hmem
  | cons entry entries ih =>
      cases entry with
      | obj items =>
          rw [objectsOf_cons_obj, List.forall_mem_cons, ← ih, gatherEntries]
          change _ ↔ (identity items).hashable = true ∧ _
          cases hhashable : (identity items).hashable with
          | false =>
              rw [Bool.not_false, if_pos rfl]
              exact iff_of_false (not_returns_error _) fun h => nomatch h.1
          | true =>
              rw [Bool.not_true, if_neg Bool.false_ne_true, returns_bind_ok, and_iff_right rfl]
      | _ => exact ih

theorem gatherManifest_ok {path : Str} {vouches : List Vouch} {read : Bool}
    (h : gatherManifest a w path = .ok (vouches, read)) :
    vouches = vouchesBeside a w path ∧ (read = true ↔ ∃ m, witnessManifest a w path = some m) := by
  unfold gatherManifest at h
  unfold vouchesBeside witnessManifest
  split at h
  next m hm =>
    obtain ⟨entries, hentries, h⟩ := Except.exists_of_bind_ok h
    obtain ⟨own, hown, h⟩ := Except.exists_of_bind_ok h
    obtain ⟨rfl, rfl⟩ := Prod.mk.inj (Except.ok.inj h)
    rw [hm, gatherEntries_ok path m entries hown, objectsOf_membersOf hentries]
    exact ⟨rfl, iff_of_true rfl ⟨m, rfl⟩⟩
  next => cases h
  next hnone _ =>
    obtain ⟨_, -, h⟩ := Except.exists_of_bind_ok h
    obtain ⟨rfl, rfl⟩ := Prod.mk.inj (Except.ok.inj h)
    split
    next m hm => exact (hnone m hm).elim
    next => exact ⟨rfl, iff_of_false Bool.false_ne_true fun ⟨_, h⟩ => nomatch h⟩

theorem returns_gatherManifest (path : Str) :
    Returns (gatherManifest a w path) ↔ Gatherable a w path := by
  have hgatherable : Gatherable a w path ↔ (∀ raw, w.manifest path = some raw → Decodable a raw) ∧
      (witnessManifest a w path = none → a.prints (.str path) = true) ∧
      (∀ m, witnessManifest a w path = some m → Sized (JsonValue.item m keyWitnessed)) ∧
      ∀ vouch ∈ vouchesBeside a w path, vouch.key.hashable = true :=
    ⟨fun h => ⟨h.decodes, h.named, h.sized, h.keyed⟩, fun h => ⟨h.1, h.2.1, h.2.2.1, h.2.2.2⟩⟩
  have hdeep : (∀ raw, w.manifest path = some raw → Decodable a raw) ↔
      (w.manifest path).map (parseForeignManifest a.loads) ≠ some (.error .recursionError) := by
    simp only [Decodable, Ne, ← parse_deep_iff, Option.map_eq_some_iff, not_exists, not_and]
  rw [hgatherable, hdeep]
  unfold gatherManifest vouchesBeside witnessManifest
  split
  next m hm =>
    rw [hm]
    refine Iff.trans (b := Sized (JsonValue.item m keyWitnessed) ∧
      ∀ vouch ∈ (entriesOf (JsonValue.item m keyWitnessed)).map (vouchOf path m),
        vouch.key.hashable = true) ?_ ?_
    · rw [returns_bind_const fun entries hentries =>
        (returns_bind_ok fun vouches => (vouches, true)).trans
        ((returns_gatherEntries path m entries).trans (by rw [objectsOf_membersOf hentries])),
        returns_membersOf]
    · constructor
      · exact fun h => ⟨nofun, nofun, fun _ heq => Option.some.inj heq ▸ h.1, h.2⟩
      · exact fun h => ⟨h.2.2.1 m rfl, h.2.2.2⟩
  next hm => exact iff_of_false (not_returns_error _) fun h => h.1 hm
  next hnone hdecodes =>
    have hmanifest : witnessManifest a w path = none := by
      unfold witnessManifest
      split
      next m hm => exact (hnone m hm).elim
      next => rfl
    unfold witnessManifest at hmanifest
    rw [hmanifest, returns_bind_ok fun _ => ([], false), returns_report, Printable,
      List.forall_mem_singleton]
    constructor
    · exact fun h => ⟨hdecodes, fun _ => h, nofun, fun _ hmem => nomatch hmem⟩
    · exact fun h => h.2.1 rfl

/-- The vouches that are gathered are all there are, and the gathering is complete when every
manifest could be read. -/
theorem gatherVouches_ok (paths : List Str) :
    ∀ {vouches : List Vouch} {complete : Bool},
    gatherVouches a w paths = .ok (vouches, complete) → vouches = vouchesOf a w paths ∧
        (complete = true ↔ ∀ path ∈ paths, ∃ m, witnessManifest a w path = some m) := by
  induction paths with
  | nil =>
      intro vouches complete h
      obtain ⟨rfl, rfl⟩ := Prod.mk.inj (Except.ok.inj h)
      exact ⟨rfl, iff_of_true rfl fun _ hmem => nomatch hmem⟩
  | cons path paths ih =>
      intro vouches complete h
      obtain ⟨⟨own, read⟩, hown, h⟩ := Except.exists_of_bind_ok h
      obtain ⟨⟨rest, all⟩, hrest, h⟩ := Except.exists_of_bind_ok h
      obtain ⟨rfl, rfl⟩ := Prod.mk.inj (Except.ok.inj h)
      obtain ⟨rfl, hread⟩ := gatherManifest_ok hown
      obtain ⟨rfl, hall⟩ := ih hrest
      rw [Bool.and_eq_true, hread, hall, List.forall_mem_cons]
      exact ⟨rfl, Iff.rfl⟩

theorem returns_gatherVouches (paths : List Str) :
    Returns (gatherVouches a w paths) ↔ ∀ path ∈ paths, Gatherable a w path := by
  induction paths with
  | nil => exact iff_of_true (returns_ok _) fun _ hmem => nomatch hmem
  | cons path paths ih =>
      rw [gatherVouches, List.forall_mem_cons, ← ih, ← returns_gatherManifest]
      exact returns_bind_const fun found _ =>
        returns_bind_ok fun rest : List Vouch × Bool => (found.1 ++ rest.1, found.2 && rest.2)

theorem returns_crossCheckOne (vouches : List Vouch) (path : Str) (raw : Bytes) (m : Items) :
    Returns (crossCheckOne a vouches path raw m) ↔ Countable a vouches path raw m := by
  have hcountable : Countable a vouches path raw m ↔
      (∀ vouch ∈ vouches, vouch.key.matches m = true → hashable vouch.sha256 = true) ∧
        Printable a (crossLine vouches path raw m) :=
          ⟨fun h => ⟨h.counted, h.shown⟩, fun h => ⟨h.1, h.2⟩⟩
  have hunhashable : ((vouches.filter fun vouch => vouch.key.matches m).any fun vouch =>
        !hashable vouch.sha256) = false ↔ ∀ vouch ∈ vouches, vouch.key.matches m = true →
      hashable vouch.sha256 = true := by
    simp only [List.any_eq_false, List.mem_filter, Bool.not_eq_true', Bool.not_eq_false, and_imp]
  rw [hcountable, ← hunhashable]
  unfold crossCheckOne
  dsimp only
  split_ifs with hany
  · exact iff_of_false (not_returns_error _) fun h => nomatch hany.symm.trans h.1
  · rw [and_iff_right (Bool.eq_false_iff.mpr hany), ← returns_report]
    exact returns_bind_ok _

theorem returns_crossCheckAll (vouches : List Vouch) (paths : List Str)
    (hdecodes : ∀ path ∈ paths, ∀ raw, a.manifest path = some raw → Decodable a raw) :
    Returns (crossCheckAll a vouches paths) ↔ ∀ path ∈ paths, ∀ raw m, a.manifest path = some raw →
      parseForeignManifest a.loads raw = .ok m → Countable a vouches path raw m := by
  induction paths with
  | nil => exact iff_of_true (returns_ok _) fun _ hmem => nomatch hmem
  | cons path paths ih =>
      obtain ⟨hpath, hpaths⟩ := List.forall_mem_cons.mp hdecodes
      rw [List.forall_mem_cons, crossCheckAll]
      split
      next hread =>
        rw [ih hpaths, and_iff_right]
        intro raw m hraw
        exact nomatch hread.symm.trans hraw
      next raw hread =>
        split
        next hdeep => exact absurd ((parse_deep_iff a.loads).mp hdeep) (hpath raw hread)
        next hbroken =>
          rw [ih hpaths, and_iff_right]
          intro raw' m hraw hm
          obtain rfl := Option.some.inj (hread.symm.trans hraw)
          exact nomatch hbroken.symm.trans hm
        next m hm =>
          rw [returns_bind_const fun ok _ => returns_bind_ok fun rest => ok && rest,
            returns_crossCheckOne, ih hpaths]
          refine and_congr_left' ⟨fun h raw' m' hraw hm' => ?_, fun h => h raw m hread hm⟩
          obtain rfl := Option.some.inj (hread.symm.trans hraw)
          obtain rfl := Except.ok.inj (hm.symm.trans hm')
          exact h

/-- The other chain's directory can be asked for. Unless it is not there or cannot be listed, its
vouches can be compared with the manifests. -/
structure CrossCheckable (a : Archive) (w : WitnessChain) (files : List Str) : Prop where
  asked : w.isDir ≠ none
  compared : w.isDir = some true → ∀ paths, w.files = some paths → Comparable a w paths files

theorem returns_crossCheck (files : List Str)
    (hdecodes : ∀ path ∈ files, ∀ raw, a.manifest path = some raw → Decodable a raw) :
    Returns (crossCheck a w files) ↔ CrossCheckable a w files := by
  have hcheckable : CrossCheckable a w files ↔
      w.isDir ≠ none ∧
          (w.isDir = some true → ∀ paths, w.files = some paths → Comparable a w paths files) :=
    ⟨fun h => ⟨h.asked, h.compared⟩, fun h => ⟨h.1, h.2⟩⟩
  rw [hcheckable]
  unfold crossCheck
  cases w.isDir with
  | none => exact iff_of_false (not_returns_error _) fun h => h.1 rfl
  | some there =>
      rw [and_iff_right (Option.some_ne_none there)]
      cases there with
      | false => exact iff_of_true (returns_ok _) nofun
      | true =>
          rw [forall_prop_of_true rfl]
          cases w.files with
          | none => exact iff_of_true (returns_ok _) fun _ h => nomatch h
          | some paths =>
              have hpaths : (∀ found, some paths = some found → Comparable a w found files) ↔
                  (∀ path ∈ paths, Gatherable a w path) ∧ ∀ path ∈ files, ∀ raw m,
                      a.manifest path = some raw → parseForeignManifest a.loads raw = .ok m →
                      Countable a (vouchesOf a w paths) path raw m := by
                refine ⟨fun h => ⟨(h paths rfl).gathered, (h paths rfl).counted⟩,
                  fun h found heq => ?_⟩
                obtain rfl := Option.some.inj heq
                exact ⟨h.1, h.2⟩
              rw [hpaths, ← returns_gatherVouches, ← returns_crossCheckAll _ _ hdecodes]
              refine returns_bind_const fun found hgathered => ?_
              rw [← (gatherVouches_ok paths hgathered).1]
              exact returns_bind_ok fun ok => found.2 && ok

end Witness

/-! ## The whole -/

/-- All that the verifier reads has a shape that it can read, and all that it logs can be
printed. -/
def Checkable (a : Archive) (witness : Option WitnessChain) (skip : Bool) : Prop :=
  ∀ files, a.manifests = some files → files ≠ [] →
    Walkable a skip files ∧ ∀ w, witness = some w → CrossCheckable a w files

section Whole

variable {a : Archive} {skip : Bool} {files : List Str}

theorem Walkable.decodes (h : Walkable a skip files) :
    ∀ path ∈ files, ∀ raw, a.manifest path = some raw → Decodable a raw := by
  intro path hpath
  obtain ⟨front, rest, hsplit⟩ := List.append_of_mem hpath
  exact (h front path rest hsplit).decodes

theorem returns_verifyChain (a : Archive) (witness : Option WitnessChain) (skip : Bool) :
    Returns (verifyChain a witness skip) ↔ Checkable a witness skip := by
  unfold verifyChain Checkable
  split
  next hfiles =>
    refine iff_of_true (returns_ok _) fun files h => ?_
    cases hfiles.symm.trans h
  next hfiles =>
    refine iff_of_true (returns_ok _) fun files h hne => absurd ?_ hne
    exact (Option.some.inj (hfiles.symm.trans h)).symm
  next files hne hfiles =>
    have hchecked : (∀ files', a.manifests = some files' → files' ≠ [] →
        Walkable a skip files' ∧ ∀ w, witness = some w → CrossCheckable a w files') ↔
          Walkable a skip files ∧ ∀ w, witness = some w → CrossCheckable a w files := by
      refine ⟨fun h => h files hfiles hne, fun h files' heq _ => ?_⟩
      obtain rfl := Option.some.inj (hfiles.symm.trans heq)
      exact h
    rw [hchecked, ← returns_walk]
    cases witness with
    | none =>
        refine (returns_bind_ok fun s : Link => s.ok).trans (and_iff_left fun w h => ?_).symm
        exact absurd h.symm (Option.some_ne_none w)
    | some w =>
        refine returns_bind_const fun s hs => (returns_bind_ok fun ok => s.ok && ok).trans ?_
        have hdecodes := ((returns_walk files).mp ⟨s, hs⟩).decodes
        refine (returns_crossCheck files hdecodes).trans ⟨fun h _ heq => Option.some.inj heq ▸ h,
          fun h => h w rfl⟩

end Whole

end OtsServer.Selfstamp
