import OtsServer.Library.Traverse
import OtsServer.Selfstamp.Mispaired
import OtsServer.Selfstamp.Verify

/-!
# A chain is bound by its newest manifest

A chain that the verifier takes has its manifests in their order, each numbered by its place, named
by its period and linked to the one before by name and sha256. So the bytes of the newest manifest
fix every name and every byte before it, up to a collision of SHA-256.
-/

namespace OtsServer.Selfstamp

section Values

variable {v : JsonValue}

theorem equalsStr_iff {text : Str} : equalsStr v text = true ↔ v = .str text := by
  constructor
  · intro h
    unfold equalsStr at h
    split at h
    · rw [of_decide_eq_true h]
    · exact nomatch h
  · rintro rfl
    exact decide_eq_true rfl

theorem isNull_iff : isNull v = true ↔ v = .null := by
  cases v <;> simp [isNull]

end Values

/-! ## Chains -/

/-- A manifest of a chain, by what is before it. -/
structure Placed (a : Archive) (front : List Str) (path : Str) (raw : Bytes) (m : Items) :
    Prop where
  read : a.manifest path = some raw
  valid : parseForeignManifest a.loads raw = .ok m
  seq : equalsInt (JsonValue.item m keySeq) (front.length + 1) = true
  period : JsonValue.item m keyPeriod = .str (path.take (path.length - Str.json.length))
  genesis : front = [] → JsonValue.item m keyPrev = .null
  linked : ∀ name, front.getLast? = some name → ∃ items before, JsonValue.item m keyPrev =
    .obj items ∧ JsonValue.item items keyFile = .str name ∧ a.manifest name = some before ∧
    JsonValue.item items keySha256 = .str (sha256Text before)

/-- Every manifest of a chain is in its place. -/
def Unbroken (a : Archive) (files : List Str) : Prop :=
  ∀ front path rest, files = front ++ path :: rest → ∃ raw m, Placed a front path raw m

section Walk

variable {a : Archive} {skip : Bool} {s t : Link} {path : Str} {paths front : List Str}

/-- What the loop carries after it has come past `front` without a break. -/
structure Carries (a : Archive) (front : List Str) (s : Link) : Prop where
  none : front = [] → s.prev = none
  some : ∀ name, front.getLast? = some name → s.prev = some (name, a.manifest name)

/-- What verifying an object does: every check and every line of the log returns, and the link says
what was found. -/
theorem verifyObject_cases {index : Nat} {raw : Bytes} {m : Items} {valid : Bool}
    (h : verifyObject a skip index path raw m valid s = .ok t) :
    ∃ after state entries vouched, isAfter s.period (JsonValue.item m keyPeriod) = .ok after ∧
      describeBeside (a.manifestProof path) raw = .ok state ∧
      report a [.str path, JsonValue.item m keySeq] = .ok () ∧ genesisRecord a index m = .ok () ∧
      commissionedRecord a (JsonValue.item m keyCommissioning) = .ok () ∧
      membersOf (JsonValue.item m keyWitnessed) = .ok entries ∧
        verifyWitnessed a skip entries = .ok vouched ∧ t.prev = some (path, some raw) ∧
        t.period = JsonValue.item m keyPeriod ∧ t.label = s.label.or (label m) ∧ (t.ok = true ↔
        s.ok = true ∧ valid = true ∧ equalsInt (JsonValue.item m keySeq) (index + 1) = true ∧
        equalsStr (JsonValue.item m keyPeriod) (path.take (path.length - Str.json.length)) = true ∧
          after = true ∧
        prevHolds s.prev (JsonValue.item m keyPrev) = true ∧ labelHolds s.label (label m) = true ∧
        commissioningHolds index (JsonValue.item m keySchema) (JsonValue.item m keyCommissioning) =
          true ∧ state.good = true ∧ vouched = true) := by
  obtain ⟨after, hafter, h⟩ := Except.exists_of_bind_ok h
  obtain ⟨state, hstate, h⟩ := Except.exists_of_bind_ok h
  obtain ⟨_, hline, h⟩ := Except.exists_of_bind_ok h
  obtain ⟨_, hgenesis, h⟩ := Except.exists_of_bind_ok h
  obtain ⟨_, hcommissioned, h⟩ := Except.exists_of_bind_ok h
  obtain ⟨entries, hentries, h⟩ := Except.exists_of_bind_ok h
  obtain ⟨vouched, hvouched, h⟩ := Except.exists_of_bind_ok h
  obtain rfl := Except.ok.inj h
  refine ⟨after, state, entries, vouched, hafter, hstate, hline, hgenesis, hcommissioned,
    hentries, hvouched, rfl, rfl, rfl, ?_⟩
  simp only [Bool.and_eq_true, and_assoc]

theorem decodeManifest_valid {loads : Loads} {raw : Bytes} {m : Items}
    (h : decodeManifest loads raw = .ok (some (m, true))) :
    parseForeignManifest loads raw = .ok m := by
  unfold decodeManifest at h
  split at h
  next m' hparse =>
    obtain ⟨rfl, -⟩ := Prod.mk.inj (Option.some.inj (Except.ok.inj h))
    exact hparse
  · exact nomatch h
  · split at h
    · obtain ⟨-, hvalid⟩ := Prod.mk.inj (Option.some.inj (Except.ok.inj h))
      exact nomatch hvalid
    · exact nomatch Except.ok.inj h

/-- What a round does: a file that is no object is passed over, and an object is verified. -/
theorem verifyManifest_cases {index : Nat} (h : verifyManifest a skip index path s = .ok t) :
    (decoded a path = none ∧ t = { s with ok := false, prev := some (path, a.manifest path) }) ∨
      ∃ raw m valid, a.manifest path = some raw ∧ decodeManifest a.loads raw =
        .ok (some (m, valid)) ∧ verifyObject a skip index path raw m valid s = .ok t := by
  unfold verifyManifest at h
  unfold decoded
  split at h
  next hread =>
    obtain ⟨_, -, h⟩ := Except.exists_of_bind_ok h
    obtain rfl := Except.ok.inj h
    rw [hread]
    exact .inl ⟨rfl, rfl⟩
  next raw hread =>
    obtain ⟨found, hdecode, h⟩ := Except.exists_of_bind_ok h
    rw [hread]
    cases found with
    | none =>
        obtain ⟨_, -, h⟩ := Except.exists_of_bind_ok h
        obtain rfl := Except.ok.inj h
        rw [Option.map_some, hdecode]
        exact .inl ⟨rfl, rfl⟩
    | some found => exact .inr ⟨raw, found.1, found.2, rfl, hdecode, h⟩

theorem prev_of_verifyManifest {index : Nat} (h : verifyManifest a skip index path s = .ok t) :
    t.prev = some (path, a.manifest path) := by
  obtain ⟨-, rfl⟩ | ⟨raw, m, valid, hread, -, h⟩ := verifyManifest_cases h
  · rfl
  · obtain ⟨_, _, _, _, -, -, -, -, -, -, -, hprev, -⟩ := verifyObject_cases h
    rw [hread]
    exact hprev

theorem Carries.step {index : Nat} (h : verifyManifest a skip index path s = .ok t) :
    Carries a (front ++ [path]) t := by
  refine ⟨fun hnil => absurd hnil (List.append_ne_nil_of_right_ne_nil _ (List.cons_ne_nil _ _)),
    fun name hname => ?_⟩
  rw [List.getLast?_concat] at hname
  obtain rfl := Option.some.inj hname
  exact prev_of_verifyManifest h

/-- The link holds when it names the manifest before and has its sha256, or when neither is
there. -/
theorem prevHolds_iff (hs : Carries a front s) {prev : JsonValue} :
    prevHolds s.prev prev = true ↔ (front = [] → prev = .null) ∧ ∀ name,
      front.getLast? = some name → ∃ items before, prev = .obj items ∧
      JsonValue.item items keyFile = .str name ∧ a.manifest name = some before ∧
      JsonValue.item items keySha256 = .str (sha256Text before) := by
  rcases List.eq_nil_or_concat front with rfl | ⟨front, name, rfl⟩
  · rw [hs.none rfl, forall_prop_of_true rfl]
    exact isNull_iff.trans (and_iff_left fun _ hname => nomatch hname).symm
  · simp only [List.concat_eq_append] at hs ⊢
    rw [hs.some name List.getLast?_concat, and_iff_right fun hnil =>
      absurd hnil (List.append_ne_nil_of_right_ne_nil _ (List.cons_ne_nil _ _))]
    simp only [List.getLast?_concat, Option.some.injEq, forall_eq']
    unfold prevHolds
    dsimp only
    constructor
    · intro h
      split at h
      next items =>
        obtain ⟨hfile, hsha⟩ := (Bool.and_eq_true _ _).mp h
        split at hsha
        next before hbefore =>
          exact ⟨items, before, rfl, equalsStr_iff.mp hfile, hbefore, equalsStr_iff.mp hsha⟩
        · exact nomatch hsha
      · exact nomatch h
    · rintro ⟨items, before, rfl, hfile, hbefore, hsha⟩
      dsimp only
      rw [hbefore, equalsStr_iff.mpr hfile]
      exact equalsStr_iff.mpr hsha

/-- A round that finds no break has a manifest in its place. -/
theorem placed_of_verifyManifest (hs : Carries a front s)
    (h : verifyManifest a skip front.length path s = .ok t) (ht : t.ok = true) :
    s.ok = true ∧ ∃ raw m, Placed a front path raw m := by
  obtain ⟨-, rfl⟩ | ⟨raw, m, valid, hread, hdecode, h⟩ := verifyManifest_cases h
  · exact nomatch ht
  · obtain ⟨_, _, _, _, -, -, -, -, -, -, -, -, -, -, hiff⟩ := verifyObject_cases h
    obtain ⟨hok, rfl, hseq, hperiod, -, hprev, -⟩ := hiff.mp ht
    obtain ⟨hgenesis, hlinked⟩ := (prevHolds_iff hs).mp hprev
    exact ⟨hok, raw, m, hread, decodeManifest_valid hdecode, hseq, equalsStr_iff.mp hperiod,
      hgenesis, hlinked⟩

theorem placed_of_verifyManifests (paths : List Str) :
    ∀ (front : List Str) {s : Link}, Carries a front s →
    verifyManifests a skip front.length paths s = .ok t → t.ok = true →
    s.ok = true ∧ ∀ middle path rest, paths = middle ++ path :: rest →
      ∃ raw m, Placed a (front ++ middle) path raw m := by
  induction paths with
  | nil =>
      intro front s _ h ht
      obtain rfl := Except.ok.inj h
      exact ⟨ht, fun middle _ _ hsplit => by cases middle <;> exact nomatch hsplit⟩
  | cons path paths ih =>
      intro front s hs h ht
      obtain ⟨u, hu, h⟩ := Except.exists_of_bind_ok h
      have hlength : front.length + 1 = (front ++ [path]).length := by
        rw [List.length_append, List.length_singleton]
      rw [hlength] at h
      obtain ⟨huok, hrest⟩ := ih _ (Carries.step hu) h ht
      obtain ⟨hsok, hplaced⟩ := placed_of_verifyManifest hs hu huok
      exact ⟨hsok, (Traverse.forall_behind_cons (P := fun front path => ∃ raw m,
            Placed a front path raw m)).mpr ⟨hplaced, hrest⟩⟩

/-- A chain that the verifier takes is unbroken. -/
theorem unbroken_of_verifyChain {witness : Option WitnessChain}
    (h : verifyChain a witness skip = .ok true) :
    ∃ files, a.manifests = some files ∧ files ≠ [] ∧ Unbroken a files := by
  unfold verifyChain at h
  split at h
  · exact nomatch h
  · exact nomatch h
  next files hnonempty hfiles =>
    obtain ⟨t, hwalk, h⟩ := Except.exists_of_bind_ok h
    have ht : t.ok = true := by
      cases witness with
      | none => exact Except.ok.inj h
      | some w =>
          obtain ⟨ok, -, h⟩ := Except.exists_of_bind_ok h
          exact ((Bool.and_eq_true _ _).mp (Except.ok.inj h)).1
    have hwalk := placed_of_verifyManifests files [] ⟨fun _ => rfl, fun _ hname =>
      nomatch hname⟩ hwalk ht
    exact ⟨files, hfiles, hnonempty, hwalk.2⟩

end Walk

/-! ## Two chains -/

theorem sha256Text_inj {x y : Bytes} (h : sha256Text x = sha256Text y) :
    Sha256.digest x = Sha256.digest y := by
  have hchars : Function.Injective (fun text : List Char => Str.ofChars text) :=
    List.map_injective_iff.mpr fun c d hcd => Char.toNat_inj.mp hcd
  exact Bytes.hexText_injective (hchars h)

/-- Two manifests of the archives have different bytes and one SHA-256. -/
def Collides (a b : Archive) : Prop :=
  ∃ name name' x y, a.manifest name = some x ∧ b.manifest name' = some y ∧ x ≠ y ∧
    Sha256.digest x = Sha256.digest y

section Two

variable {a b : Archive}

theorem Placed.path {front : List Str} {path : Str} {raw : Bytes} {m : Items}
    (h : Placed a front path raw m) (hpath : Str.endsWith Str.json path = true) :
    ∃ period, JsonValue.item m keyPeriod = .str period ∧ path = period ++ Str.json := by
  obtain ⟨stem, rfl⟩ := List.isSuffixOf_iff_suffix.mp hpath
  refine ⟨stem, ?_, rfl⟩
  rw [h.period, List.length_append, Nat.add_sub_cancel, List.take_left]

theorem equalsInt_unique {v : JsonValue} {n k : Int} (h : equalsInt v n = true)
    (h' : equalsInt v k = true) : n = k := by
  unfold equalsInt at h h'
  split at h
  · exact (of_decide_eq_true h).symm.trans (of_decide_eq_true h')
  · exact (of_decide_eq_true h).symm.trans (of_decide_eq_true h')
  · exact Rat.intCast_injective ((of_decide_eq_true h).symm.trans (of_decide_eq_true h'))
  · exact nomatch h

theorem Unbroken.before {files rest : List Str} (h : Unbroken a (files ++ rest)) :
    Unbroken a files := by
  intro front path rest' hsplit
  exact h front path (rest' ++ rest) (by rw [hsplit, List.append_assoc, List.cons_append])

/-- Manifests with the same bytes have the same place and name. -/
theorem Placed.same (hloads : a.loads = b.loads) {front front' : List Str} {path path' : Str}
    {raw : Bytes} {m m' : Items} (h : Placed a front path raw m) (h' : Placed b front' path' raw m')
    (hpath : Str.endsWith Str.json path = true) (hpath' : Str.endsWith Str.json path' = true) :
    m = m' ∧ front.length = front'.length ∧ path = path' := by
  have hvalid := h.valid
  rw [hloads, h'.valid] at hvalid
  obtain rfl := Except.ok.inj hvalid
  obtain ⟨period, hperiod, rfl⟩ := h.path hpath
  obtain ⟨period', hperiod', rfl⟩ := h'.path hpath'
  have hseq := equalsInt_unique h.seq h'.seq
  obtain rfl := JsonValue.str.inj (hperiod.symm.trans hperiod')
  exact ⟨rfl, by omega, rfl⟩

/-- The induction goes from the newest manifest back, along the links. -/
theorem Unbroken.same (hloads : a.loads = b.loads) (n : Nat) :
    ∀ {front front' : List Str} {path path' : Str} {raw : Bytes},
    front.length = n → (∀ file ∈ front ++ [path], Str.endsWith Str.json file = true) →
    (∀ file ∈ front' ++ [path'], Str.endsWith Str.json file = true) →
    Unbroken a (front ++ [path]) → Unbroken b (front' ++ [path']) → a.manifest path = some raw →
      b.manifest path' = some raw → (front ++ [path] = front' ++ [path'] ∧ ∀ file ∈ front ++ [path],
      a.manifest file = b.manifest file) ∨ Collides a b := by
  induction n with
  | zero =>
      intro front front' path path' raw hlength hnames hnames' ha hb hraw hraw'
      obtain ⟨x, m, hplaced⟩ := ha front path [] rfl
      obtain ⟨y, m', hplaced'⟩ := hb front' path' [] rfl
      obtain rfl := Option.some.inj (hplaced.read.symm.trans hraw)
      obtain rfl := Option.some.inj (hplaced'.read.symm.trans hraw')
      obtain ⟨-, hsame, rfl⟩ :=
        hplaced.same hloads hplaced' (hnames path (by simp)) (hnames' path' (by simp))
      obtain rfl := List.length_eq_zero_iff.mp hlength
      obtain rfl := List.length_eq_zero_iff.mp hsame.symm
      refine .inl ⟨rfl, fun file hfile => ?_⟩
      obtain rfl := List.mem_singleton.mp hfile
      exact hraw.trans hraw'.symm
  | succ n ih =>
      intro front front' path path' raw hlength hnames hnames' ha hb hraw hraw'
      obtain ⟨x, m, hplaced⟩ := ha front path [] rfl
      obtain ⟨y, m', hplaced'⟩ := hb front' path' [] rfl
      obtain rfl := Option.some.inj (hplaced.read.symm.trans hraw)
      obtain rfl := Option.some.inj (hplaced'.read.symm.trans hraw')
      obtain ⟨rfl, hsame, rfl⟩ :=
        hplaced.same hloads hplaced' (hnames path (by simp)) (hnames' path' (by simp))
      obtain ⟨front, name, rfl⟩ := (List.eq_nil_or_concat front).resolve_left fun hnil => by
        rw [hnil] at hlength
        exact nomatch hlength
      obtain ⟨front', name', rfl⟩ := (List.eq_nil_or_concat front').resolve_left fun hnil => by
        rw [hnil, hlength] at hsame
        exact nomatch hsame
      simp only [List.concat_eq_append] at *
      obtain ⟨items, before, hprev, hfile, hread, hsha⟩ := hplaced.linked name List.getLast?_concat
      obtain ⟨items', before', hprev', hfile', hread', hsha'⟩ :=
        hplaced'.linked name' List.getLast?_concat
      obtain rfl := JsonValue.obj.inj (hprev.symm.trans hprev')
      obtain rfl := JsonValue.str.inj (hfile.symm.trans hfile')
      have hdigest := sha256Text_inj (JsonValue.str.inj (hsha.symm.trans hsha'))
      by_cases hbytes : before = before'
      · subst hbytes
        have hlength : front.length = n := by simpa using hlength
        refine (ih hlength (fun file hfile => hnames file (List.mem_append_left _ hfile))
          (fun file hfile => hnames' file (List.mem_append_left _ hfile)) ha.before
            hb.before hread hread').imp_left ?_
        rintro ⟨hfront, hall⟩
        refine ⟨by rw [hfront], fun file hfile => ?_⟩
        obtain hfile | hfile := List.mem_append.mp hfile
        · exact hall file hfile
        · obtain rfl := List.mem_singleton.mp hfile
          exact hraw.trans hraw'.symm
      · exact .inr ⟨name, name, before, before', hread, hread', hbytes, hdigest⟩

/-- Two directories that the verifier takes, whose newest manifests have the same bytes, hold the
same manifests under the same names, or exhibit a collision of SHA-256. -/
theorem chain_bound_by_newest (a b : Archive) (hloads : a.loads = b.loads)
    {witness witness' : Option WitnessChain} {skip skip' : Bool} {files files' : List Str}
    (ha : verifyChain a witness skip = .ok true) (hb : verifyChain b witness' skip' = .ok true)
    (hfiles : a.manifests = some files) (hfiles' : b.manifests = some files')
    (hnewest : files.getLast?.map a.manifest = files'.getLast?.map b.manifest) :
    (files = files' ∧ ∀ file ∈ files, a.manifest file = b.manifest file) ∨ Collides a b := by
  obtain ⟨found, hfound, hne, hchain⟩ := unbroken_of_verifyChain ha
  obtain rfl := Option.some.inj (hfound.symm.trans hfiles)
  obtain ⟨found', hfound', hne', hchain'⟩ := unbroken_of_verifyChain hb
  obtain rfl := Option.some.inj (hfound'.symm.trans hfiles')
  obtain ⟨front, path, rfl⟩ := (List.eq_nil_or_concat found).resolve_left hne
  obtain ⟨front', path', rfl⟩ := (List.eq_nil_or_concat found').resolve_left hne'
  simp only [List.concat_eq_append] at *
  obtain ⟨raw, m, hplaced⟩ := hchain front path [] rfl
  obtain ⟨raw', m', hplaced'⟩ := hchain' front' path' [] rfl
  rw [List.getLast?_concat, List.getLast?_concat, Option.map_some, Option.map_some,
    hplaced.read, hplaced'.read] at hnewest
  obtain rfl := Option.some.inj (Option.some.inj hnewest)
  exact Unbroken.same hloads front.length rfl (a.named _ hfiles)
    (b.named _ hfiles') hchain hchain' hplaced.read hplaced'.read

end Two

/-! ## A chain of two days -/

namespace TwoDays

def genesis : Bytes :=
  Mispaired.bytes
    "\x7b\"schema\":\"selfstamp/3\",\"chain\":\"0f0f0f0f0f0f0f0f0f0f0f0f0f0f0f0f\"," ++
  Mispaired.bytes "\"period\":\"2026-01-01\",\"seq\":1,\"prev\":null\x7d"

def second : Bytes :=
  Mispaired.bytes
    "\x7b\"schema\":\"selfstamp/3\",\"chain\":\"0f0f0f0f0f0f0f0f0f0f0f0f0f0f0f0f\"," ++
  Mispaired.bytes "\"period\":\"2026-01-02\",\"seq\":2," ++
  Mispaired.bytes "\"prev\":\x7b\"file\":\"2026-01-01.json\",\"sha256\":\"" ++
  Mispaired.bytes "9bac1ca57163694a26708ff05f37be5813bb696b9c5225af6a1f522cd4219be3\"\x7d\x7d"

def chainLabel : Str := Str.ofString "0f0f0f0f0f0f0f0f0f0f0f0f0f0f0f0f"

def genesisItems : Items :=
  [(keySchema, .str schema3), (keyChain, .str chainLabel),
    (keyPeriod, .str (Str.ofString "2026-01-01")), (keySeq, .int 1), (keyPrev, .null)]

def secondItems : Items :=
  [(keySchema, .str schema3), (keyChain, .str chainLabel),
    (keyPeriod, .str (Str.ofString "2026-01-02")), (keySeq, .int 2), (keyPrev, .obj
      [(keyFile, .str (Str.ofString "2026-01-01.json")), (keySha256, .str (sha256Text genesis))])]

def loads : Loads := fun raw =>
  if raw = genesis then .ok (.obj genesisItems) else if raw = second then .ok (.obj secondItems)
  else .error (.valueError "Expecting value: line 1 column 1 (char 0)")

def names : List Str := [Str.ofString "2026-01-01.json", Str.ofString "2026-01-02.json"]

/-- The two manifests, without proofs. -/
def archive : Archive where
  loads := loads
  prints := encodable
  manifests := some names
  named files hfiles := by
    obtain rfl := Option.some.inj hfiles
    decide
  manifest name := names.zip [genesis, second] |>.lookup name
  manifestProof _ := .missing
  copy _ := .missing
  copyProof _ := .missing
  copyForeign _ := .missing

theorem verified (skip : Bool) : verifyChain archive none skip = .ok true := by
  cases skip <;> decide +kernel

end TwoDays

/-- Two copies of one directory, the one checked with its vouches and the other without. -/
theorem two_days_bound : (TwoDays.names = TwoDays.names ∧
    ∀ file ∈ TwoDays.names, TwoDays.archive.manifest file = TwoDays.archive.manifest file) ∨
      Collides TwoDays.archive TwoDays.archive :=
  chain_bound_by_newest TwoDays.archive TwoDays.archive rfl (TwoDays.verified false)
    (TwoDays.verified true) rfl rfl rfl

end OtsServer.Selfstamp
