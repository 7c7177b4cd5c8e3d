import OtsServer.Selfstamp.Binding
import OtsServer.Selfstamp.Vouched

/-!
# What the verifier accepts

`verify_chain` carries a link from one manifest to the next. It finds no break exactly in a chain of
manifests that are each in their place, and then in any archive that has the same manifests and
copies with good proofs, or none.
-/

namespace OtsServer.Selfstamp

/-! ## What the validator asks -/

/-- What the validator asks of an object. -/
structure WellFormed (m : Items) : Prop where
  schema : ∃ schema, JsonValue.item m keySchema = .str schema ∧
    schema ∈ schemas ∧ (schema = schema3 → label m ≠ none) ∧
    (schema ≠ schema3 → ∃ host, JsonValue.item m keyHost = .str host)
  seq : ∃ seq, JsonValue.item m keySeq = .int seq ∧ 1 ≤ seq
  period : ∃ period, JsonValue.item m keyPeriod = .str period ∧ period.length = 10 ∧
    isDate period = true

theorem parseForeignManifest_ok_iff {loads : Loads} {raw : Bytes} {m : Items} :
    parseForeignManifest loads raw = .ok m ↔ loads raw = .ok (.obj m) ∧ WellFormed m := by
  constructor
  · intro h
    unfold parseForeignManifest at h
    split at h
    · cases h
    next m' hloads =>
      split at h
      next schema hschema =>
        by_cases hin : schema ∈ schemas
        swap
        · rw [if_pos hin] at h
          cases h
        rw [if_neg (not_not.mpr hin)] at h
        split at h
        next seq hseq =>
          by_cases hpositive : seq < 1
          · rw [if_pos hpositive] at h
            cases h
          rw [if_neg hpositive] at h
          split at h
          next period hperiod =>
            by_cases hdate : (decide (period.length ≠ 10) || !isDate period) = true
            · rw [if_pos hdate] at h
              cases h
            rw [if_neg hdate] at h
            rw [Bool.or_eq_true, not_or, decide_eq_true_eq, not_not, Bool.not_eq_true',
              Bool.not_eq_false] at hdate
            have hrest : m' = m ∧ (schema = schema3 → label m' ≠ none) ∧
                (schema ≠ schema3 → ∃ host, JsonValue.item m' keyHost = .str host) := by
              by_cases hthird : schema = schema3
              · rw [if_pos hthird] at h
                by_cases hlabel : label m' = none
                · rw [if_pos hlabel] at h
                  cases h
                · rw [if_neg hlabel] at h
                  exact ⟨Except.ok.inj h, fun _ => hlabel, fun hnot => absurd hthird hnot⟩
              · rw [if_neg hthird] at h
                split at h
                next host hhost =>
                  exact ⟨Except.ok.inj h, fun h => absurd h hthird, fun _ => ⟨host, hhost⟩⟩
                next => cases h
            obtain ⟨rfl, hlabel, hhost⟩ := hrest
            exact ⟨hloads, ⟨schema, hschema, hin, hlabel, hhost⟩, ⟨seq, hseq, not_lt.mp hpositive⟩,
              period, hperiod, hdate.1, hdate.2⟩
          next => cases h
        next => cases h
      next => cases h
    next => cases h
  · rintro ⟨hloads, ⟨schema, hschema, hin, hthird, hother⟩, ⟨seq, hseq, hpositive⟩,
      period, hperiod, hlength, hdate⟩
    rw [parseForeignManifest, hloads]
    dsimp only
    rw [hschema]
    dsimp only
    rw [if_neg (not_not.mpr hin), hseq]
    dsimp only
    rw [if_neg (not_lt.mpr hpositive), hperiod]
    dsimp only
    rw [if_neg]
    · by_cases hschema3 : schema = schema3
      · rw [if_pos hschema3, if_neg (hthird hschema3)]
      · obtain ⟨host, hhost⟩ := hother hschema3
        rw [if_neg hschema3, hhost]
    · rw [hdate]
      simp [hlength]

/-! ## What the verifier accepts -/

/-- What the loop carries past a manifest that it accepts. -/
def Link.after (s : Link) (path : Str) (raw : Bytes) (m : Items) : Link where
  prev := some (path, some raw)
  period := JsonValue.item m keyPeriod
  label := s.label.or (Selfstamp.label m)
  ok := true

/-- Every check of a manifest holds. -/
structure Accepted (a : Archive) (skip : Bool) (index : Nat) (path : Str) (raw : Bytes)
    (m : Items) (s : Link) : Prop where
  ok : s.ok = true
  valid : parseForeignManifest a.loads raw = .ok m
  seq : equalsInt (JsonValue.item m keySeq) (index + 1) = true
  period : JsonValue.item m keyPeriod = .str (path.take (path.length - Str.json.length))
  after : isAfter s.period (JsonValue.item m keyPeriod) = .ok true
  prev : prevHolds s.prev (JsonValue.item m keyPrev) = true
  label : labelHolds s.label (label m) = true
  commissioning :
    commissioningHolds index (JsonValue.item m keySchema) (JsonValue.item m keyCommissioning) = true
  line : report a [.str path, JsonValue.item m keySeq] = .ok ()
  genesis : genesisRecord a index m = .ok ()
  commissioned : commissionedRecord a (JsonValue.item m keyCommissioning) = .ok ()
  proof : ∃ state, describeBeside (a.manifestProof path) raw = .ok state ∧ state.good = true
  vouched : ∃ entries, membersOf (JsonValue.item m keyWitnessed) = .ok entries ∧
    verifyWitnessed a skip entries = .ok true

/-- The manifests of a chain that the verifier accepts, and what the loop carries past the last. -/
inductive Chains (a : Archive) (skip : Bool) : List Str → Link → Prop
  | start : Chains a skip [] ⟨none, .null, none, true⟩
  | more {files : List Str} {s : Link}
      {path : Str} {raw : Bytes} {m : Items} (h : Chains a skip files s)
      (hread : a.manifest path = some raw) (haccepted : Accepted a skip files.length path raw m s) :
      Chains a skip (files ++ [path]) (s.after path raw m)

section Accepted

variable {a : Archive} {skip : Bool} {index : Nat} {path : Str} {raw : Bytes}
  {m : Items} {s t : Link} {files : List Str}

theorem Accepted.verifyObject (h : Accepted a skip index path raw m s) :
    verifyObject a skip index path raw m true s = .ok (s.after path raw m) := by
  obtain ⟨state, hstate, hgood⟩ := h.proof
  obtain ⟨entries, hentries, hvouched⟩ := h.vouched
  have hperiod :
      equalsStr (JsonValue.item m keyPeriod) (path.take (path.length - Str.json.length)) = true :=
    equalsStr_iff.mpr h.period
  rw [Selfstamp.verifyObject, h.after, hstate, h.line, h.genesis, h.commissioned, hentries]
  change (Selfstamp.verifyWitnessed a skip entries >>= _) = _
  rw [hvouched]
  change Except.ok _ = Except.ok _
  rw [h.ok, h.seq, hperiod, h.prev, h.label, h.commissioning, hgood]
  rfl

theorem Accepted.of_verifyObject {valid : Bool}
    (hdecode : decodeManifest a.loads raw = .ok (some (m, valid)))
    (h : Selfstamp.verifyObject a skip index path raw m valid s = .ok t) (ht : t.ok = true) :
    Accepted a skip index path raw m s ∧ t = s.after path raw m := by
  obtain ⟨after, state, entries, vouched, hafter, hstate, hline, hgenesis, hcommissioned,
    hentries, hvouched, hprevious, hlast, hfirst, hiff⟩ := verifyObject_cases h
  obtain ⟨hok, rfl, hseq, hperiod, rfl, hprev, hlabel, hcommissioning, hgood, rfl⟩ := hiff.mp ht
  refine ⟨⟨hok, decodeManifest_valid hdecode, hseq,
    equalsStr_iff.mp hperiod, hafter, hprev, hlabel, hcommissioning, hline,
    hgenesis, hcommissioned, ⟨state, hstate, hgood⟩, entries, hentries, hvouched⟩, ?_⟩
  cases t
  simp_all [Link.after]

theorem verifyManifest_ok_iff :
    verifyManifest a skip index path s = .ok t ∧ t.ok = true ↔ ∃ raw m,
      a.manifest path = some raw ∧ Accepted a skip index path raw m s ∧ t = s.after path raw m := by
  constructor
  · rintro ⟨h, ht⟩
    obtain ⟨-, rfl⟩ | ⟨raw, m, valid, hread, hdecode, h⟩ := verifyManifest_cases h
    · exact nomatch ht
    · obtain ⟨haccepted, hafter⟩ := Accepted.of_verifyObject hdecode h ht
      exact ⟨raw, m, hread, haccepted, hafter⟩
  · rintro ⟨raw, m, hread, haccepted, rfl⟩
    refine ⟨?_, rfl⟩
    have hdecode : decodeManifest a.loads raw = .ok (some (m, true)) := by
      rw [decodeManifest, haccepted.valid]
    rw [verifyManifest, hread]
    dsimp only
    rw [hdecode]
    exact haccepted.verifyObject

theorem verifyManifests_append (a : Archive) (skip : Bool) (paths : List Str) (path : Str) :
    ∀ index s, verifyManifests a skip index (paths ++ [path]) s = verifyManifests
        a skip index paths s >>= verifyManifest a skip (index + paths.length) path := by
  induction paths with
  | nil =>
      intro index s
      change (verifyManifest a skip index path s >>= fun s => Except.ok s) =
        verifyManifest a skip index path s
      cases verifyManifest a skip index path s <;> rfl
  | cons first paths ih =>
      intro index s
      rw [List.cons_append, verifyManifests, verifyManifests]
      cases verifyManifest a skip index first s with
      | error e => rfl
      | ok u =>
          change verifyManifests a skip (index + 1) (paths ++ [path]) u =
            verifyManifests a skip (index + 1) paths u >>=
              verifyManifest a skip (index + (paths.length + 1)) path
          rw [ih, Nat.add_assoc, Nat.add_comm 1]

theorem Chains.ok (h : Chains a skip files s) : s.ok = true := by
  cases h <;> rfl

theorem Chains.nil (h : Chains a skip [] s) : s = ⟨none, .null, none, true⟩ := by
  generalize hnil : ([] : List Str) = files at h
  cases h with
  | start => rfl
  | more => exact absurd hnil.symm (List.append_ne_nil_of_right_ne_nil _ (List.cons_ne_nil _ _))

/-- The loop finds no break exactly in a chain; the induction is on the manifests from the last
back. -/
theorem verifyManifests_ok_iff (files : List Str) :
    ∀ t, verifyManifests a skip 0 files ⟨none, .null, none, true⟩ = .ok t ∧ t.ok = true ↔
      Chains a skip files t := by
  induction files using List.reverseRecOn with
  | nil =>
      intro t
      constructor
      · rintro ⟨h, -⟩
        obtain rfl := Except.ok.inj h
        exact .start
      · intro h
        obtain rfl := h.nil
        exact ⟨rfl, rfl⟩
  | append_singleton files path ih =>
      intro t
      rw [verifyManifests_append, Nat.zero_add]
      constructor
      · rintro ⟨h, ht⟩
        obtain ⟨u, hu, h⟩ := Except.exists_of_bind_ok h
        obtain ⟨raw, m, hread, haccepted, rfl⟩ := verifyManifest_ok_iff.mp ⟨h, ht⟩
        exact .more ((ih u).mp ⟨hu, haccepted.ok⟩) hread haccepted
      · intro h
        generalize hlist : files ++ [path] = all at h
        cases h with
        | start => exact absurd hlist (List.append_ne_nil_of_right_ne_nil _ (List.cons_ne_nil _ _))
        | @more files' u path' raw m h hread haccepted =>
            obtain ⟨rfl, hpath⟩ := List.append_inj' hlist rfl
            obtain rfl := List.singleton_inj.mp hpath
            rw [((ih u).mpr h).1]
            exact verifyManifest_ok_iff.mpr ⟨raw, m, hread, haccepted, rfl⟩

end Accepted

/-! ## Another view of the same directories -/

/-- The files beside manifests and copies are good proofs, or there are none. -/
structure GoodProofs (a : Archive) : Prop where
  own : ∀ path raw, a.manifest path = some raw → ∃ state,
    describeBeside (a.manifestProof path) raw = .ok state ∧ state.good = true
  copies : ∀ copy raw, a.copy copy = .held raw →
    (∃ state, describeBeside (a.copyProof copy) raw = .ok state ∧ state.good = true) ∧
      foreignBeside (a.copyForeign copy) = .ok ()

/-- One archive has what another has of some manifests, and its copies, and the log takes every line
about them. -/
structure Covers (a a' : Archive) (files : List Str) : Prop where
  loads : a'.loads = a.loads
  prints : ∀ v, a'.prints v = true
  manifests : ∀ path ∈ files, a'.manifest path = a.manifest path
  copies : ∀ copy raw, a.copy copy = .held raw → a'.copy copy = .held raw
  proofs : GoodProofs a'

section Covers

variable {a a' : Archive} {files : List Str} {s : Link}

theorem verifyCopy_ok_iff {file : Str} {sha256 : JsonValue} :
    verifyCopy a file sha256 = .ok true ↔ ∃ raw, a.copy file = .held raw ∧
      (∃ state, describeBeside (a.copyProof file) raw = .ok state ∧ state.good = true) ∧
      foreignBeside (a.copyForeign file) = .ok () ∧ equalsStr sha256 (sha256Text raw) = true := by
  constructor
  · intro h
    unfold verifyCopy at h
    split at h
    · cases h
    · cases h
    · cases h
    next raw hcopy =>
      obtain ⟨state, hstate, h⟩ := Except.exists_of_bind_ok h
      obtain ⟨_, hforeign, h⟩ := Except.exists_of_bind_ok h
      obtain ⟨hsha, hgood⟩ := (Bool.and_eq_true _ _).mp (Except.ok.inj h)
      exact ⟨raw, hcopy, ⟨state, hstate, hgood⟩, hforeign, hsha⟩
  · rintro ⟨raw, hcopy, ⟨state, hstate, hgood⟩, hforeign, hsha⟩
    rw [verifyCopy, hcopy]
    dsimp only
    rw [hstate, hforeign]
    change Except.ok (_ && _) = Except.ok true
    rw [hsha, hgood]
    rfl

theorem verifyWitnessed_ok_iff {skip : Bool} {entries : List JsonValue} :
    verifyWitnessed a skip entries = .ok true ↔ ∀ entry ∈ entries,
      verifyEntry a skip entry = .ok true := by
  induction entries with
  | nil => exact iff_of_true rfl fun _ h => absurd h List.not_mem_nil
  | cons entry entries ih =>
      rw [List.forall_mem_cons, ← ih]
      constructor
      · intro h
        obtain ⟨ok, hok, h⟩ := Except.exists_of_bind_ok h
        obtain ⟨rest, hrest, h⟩ := Except.exists_of_bind_ok h
        obtain ⟨rfl, rfl⟩ := (Bool.and_eq_true _ _).mp (Except.ok.inj h)
        exact ⟨hok, hrest⟩
      · rintro ⟨hok, hrest⟩
        rw [verifyWitnessed, hok]
        change (verifyWitnessed a skip entries >>= _) = _
        rw [hrest]
        rfl

theorem verifyVouch_ok_iff {items : Items} : verifyVouch a false items = .ok true ↔
    ∃ file, JsonValue.item items keyFile = .str file ∧ (JsonValue.str file).truthy = true ∧
      verifyCopy a file (JsonValue.item items keySha256) = .ok true := by
  rw [verifyVouch, if_neg Bool.false_ne_true]
  dsimp only
  constructor
  · intro h
    split_ifs at h with htruthy
    · cases Except.ok.inj h
    · split at h
      next file hitem =>
        rw [hitem, Bool.not_eq_true', Bool.not_eq_false] at htruthy
        exact ⟨file, hitem, htruthy, h⟩
      next => exact nomatch h
  · rintro ⟨file, hitem, htruthy, h⟩
    rw [hitem, htruthy, Bool.not_true, if_neg Bool.false_ne_true]
    exact h

theorem verifyEntry_ok_iff {skip : Bool} {entry : JsonValue} :
    verifyEntry a skip entry = .ok true ↔ ∃ items, entry = .obj items ∧
      verifyVouch a skip items = .ok true ∧ report a (entryShown items) = .ok () := by
  constructor
  · intro h
    cases entry with
    | obj items =>
        obtain ⟨ok, hvouch, h⟩ := Except.exists_of_bind_ok h
        obtain ⟨_, hline, h⟩ := Except.exists_of_bind_ok h
        obtain rfl := Except.ok.inj h
        exact ⟨items, rfl, hvouch, hline⟩
    | _ => cases h
  · rintro ⟨items, rfl, hvouch, hline⟩
    rw [verifyEntry, hvouch]
    change (report a (entryShown items) >>= _) = _
    rw [hline]
    rfl

theorem report_ok (hprints : ∀ v, a.prints v = true) (shown : List JsonValue) :
    report a shown = .ok () :=
  if_pos (List.all_eq_true.mpr fun v _ => hprints v)

theorem Covers.genesisRecord (h : Covers a a' files) {index : Nat} {m : Items}
    (hgenesis : genesisRecord a index m = .ok ()) : genesisRecord a' index m = .ok () := by
  unfold Selfstamp.genesisRecord at hgenesis ⊢
  split_ifs at hgenesis ⊢
  · obtain ⟨commit, hcommit, hgenesis⟩ := Except.exists_of_bind_ok hgenesis
    obtain ⟨config, hconfig, -⟩ := Except.exists_of_bind_ok hgenesis
    rw [hcommit, hconfig]
    exact report_ok h.prints _
  · rfl

theorem Covers.commissionedRecord (h : Covers a a' files) {commissioning : JsonValue}
    (hcommissioned : commissionedRecord a commissioning = .ok ()) :
    commissionedRecord a' commissioning = .ok () := by
  cases commissioning with
  | obj items =>
      obtain ⟨config, hconfig, -⟩ := Except.exists_of_bind_ok hcommissioned
      rw [Selfstamp.commissionedRecord, hconfig]
      exact report_ok h.prints _
  | _ => rfl

theorem Covers.verifyEntry (h : Covers a a' files) {entry : JsonValue}
    (hentry : verifyEntry a false entry = .ok true) : verifyEntry a' false entry = .ok true := by
  obtain ⟨items, rfl, hvouch, -⟩ := verifyEntry_ok_iff.mp hentry
  obtain ⟨file, hitem, htruthy, hverified⟩ := verifyVouch_ok_iff.mp hvouch
  obtain ⟨raw, hcopy, -, -, hsha⟩ := verifyCopy_ok_iff.mp hverified
  obtain ⟨hstate, hforeign⟩ := h.proofs.copies file raw (h.copies file raw hcopy)
  have hverified : verifyCopy a' file (JsonValue.item items keySha256) = .ok true :=
    verifyCopy_ok_iff.mpr ⟨raw, h.copies file raw hcopy, hstate, hforeign, hsha⟩
  exact verifyEntry_ok_iff.mpr
    ⟨items, rfl, verifyVouch_ok_iff.mpr ⟨file, hitem, htruthy, hverified⟩, report_ok h.prints _⟩

theorem Covers.chains (h : Covers a a' files) (hchain : Chains a false files s) :
    Chains a' false files s := by
  induction hchain with
  | start => exact .start
  | @more files s path raw m _ hread haccepted ih =>
      have hpath : path ∈ files ++ [path] := List.mem_append_right _ (List.mem_singleton_self _)
      have hread' : a'.manifest path = some raw := (h.manifests path hpath).trans hread
      refine .more (ih ⟨h.loads, h.prints, fun path' hpath' =>
          h.manifests path' (List.mem_append_left _ hpath'), h.copies, h.proofs⟩) hread' ?_
      obtain ⟨entries, hentries, hvouched⟩ := haccepted.vouched
      exact { haccepted with
        valid := h.loads ▸ haccepted.valid
        line := report_ok h.prints _
        genesis := h.genesisRecord haccepted.genesis
        commissioned := h.commissionedRecord haccepted.commissioned
        proof := h.proofs.own path raw hread'
        vouched := ⟨entries, hentries, verifyWitnessed_ok_iff.mpr fun entry hentry =>
          h.verifyEntry (verifyWitnessed_ok_iff.mp hvouched entry hentry)⟩ }

end Covers

/-! ## The directories of a chain -/

/-- The names of the manifests, in order. -/
def World.bookNames (w : World) : List Str :=
  (w.files .manifests).names.filter fun name => Str.endsWith Str.json name && !name.isDot

/-- The manifests of a chain and the copies, without proofs, under a log that takes every line. -/
def plain (env : Surroundings) (w : World) : Archive where
  loads := env.loads
  prints _ := true
  manifests := some w.bookNames
  named files hfiles file hfile := by
    obtain rfl := Option.some.inj hfiles
    exact ((Bool.and_eq_true _ _).mp (List.mem_filter.mp hfile).2).1
  manifest := w.books
  manifestProof _ := .missing
  copy file := if isBook file then (w.get .witnessed file).elim .missing .held else .missing
  copyProof _ := .missing
  copyForeign _ := .missing

/-- What the verifier finds of the directories, with proofs that are good if there are any, under a
log that takes every line. -/
structure Views (env : Surroundings) (w : World) (a : Archive) : Prop where
  loads : a.loads = env.loads
  prints : ∀ v, a.prints v = true
  names : a.manifests = some w.bookNames
  manifests : ∀ name ∈ w.bookNames, a.manifest name = w.books name
  copies : ∀ copy raw, isBook copy = true → w.get .witnessed copy = some raw →
    a.copy copy = .held raw
  proofs : GoodProofs a

section Directories

variable {env : Surroundings} {w t : World} {a : Archive} {files : List Str}
  {s : Link} {name : Str} {raw : Bytes}

theorem mem_bookNames : name ∈ w.bookNames ↔ ∃ raw, w.books name = some raw := by
  rw [World.bookNames, List.mem_filter, Directory.mem_names_iff, World.books, isBook]
  constructor
  · rintro ⟨⟨raw, hraw⟩, hbook⟩
    exact ⟨raw, by rw [if_pos hbook]; exact hraw⟩
  · rintro ⟨raw, hraw⟩
    split_ifs at hraw with hbook
    exact ⟨⟨raw, hraw⟩, hbook⟩

theorem bookNames_sorted (w : World) : w.bookNames.Pairwise (· < ·) :=
  (Directory.names_sorted _).filter _

/-- Names in order are determined by which they are. -/
theorem bookNames_unique (hsorted : files.Pairwise (· < ·))
    (hmem : ∀ name, name ∈ files ↔ ∃ raw, w.books name = some raw) : w.bookNames = files := by
  have hnodup : ∀ {l : List Str}, l.Pairwise (· < ·) → l.Nodup :=
    fun hl => hl.imp fun hlt heq => (heq ▸ hlt).false
  have hperm : w.bookNames.Perm files :=
    (List.perm_ext_iff_of_nodup (hnodup (bookNames_sorted w)) (hnodup hsorted)).mpr fun name =>
      mem_bookNames.trans (hmem name).symm
  exact hperm.eq_of_pairwise (fun x y _ _ hxy hyx => (hxy.asymm hyx).elim)
    (bookNames_sorted w) hsorted

theorem copy_plain (hcopy : (plain env w).copy name = .held raw) :
    isBook name = true ∧ w.get .witnessed name = some raw := by
  dsimp only [plain] at hcopy
  split_ifs at hcopy with hbook
  cases hraw : w.get .witnessed name with
  | none =>
      rw [hraw] at hcopy
      cases hcopy
  | some raw' =>
      rw [hraw] at hcopy
      exact ⟨hbook, congrArg some (Lookup.held.inj hcopy)⟩

theorem plain_copy (hbook : isBook name = true) (hraw : w.get .witnessed name = some raw) :
    (plain env w).copy name = .held raw := by
  dsimp only [plain]
  rw [if_pos hbook, hraw]
  rfl

theorem goodProofs_plain (env : Surroundings) (w : World) : GoodProofs (plain env w) where
  own _ _ _ := ⟨.missing, rfl, rfl⟩
  copies _ _ _ := ⟨⟨.missing, rfl, rfl⟩, rfl⟩

theorem Views.covers (h : Views env w a) : Covers (plain env w) a w.bookNames where
  loads := h.loads
  prints := h.prints
  manifests := h.manifests
  copies copy raw hcopy := by
    obtain ⟨hbook, hraw⟩ := copy_plain hcopy
    exact h.copies copy raw hbook hraw
  proofs := h.proofs

end Directories

end OtsServer.Selfstamp
