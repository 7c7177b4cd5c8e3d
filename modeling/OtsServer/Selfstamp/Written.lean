import OtsServer.Selfstamp.Chained
import OtsServer.Selfstamp.Rescued

/-!
# What a run writes, the verifier accepts

A run goes by the newest manifest, the verifier by each manifest's place among all; a run refuses,
the verifier finds a break. From no manifest or from a chain that the verifier takes, whatever is
delivered, fails or stops, the manifests stay a chain that it takes: each in its place and linked,
one label, every vouch for a copy that is held.
-/

namespace OtsServer.Selfstamp

open Prog (Keeps)

/-! ## The newest manifest -/

/-- The last of the manifests by name, with its bytes, which decode. -/
structure Newest (loads : Loads) (b : Str → Option Bytes) (name : Str) (raw : Bytes) (m : Items) :
    Prop where
  held : b name = some raw
  valid : parseForeignManifest loads raw = .ok m
  greatest : ∀ name' raw', b name' = some raw' → name' ≤ name

/-- What `latest_manifest` finds. -/
inductive Latest (loads : Loads) (b : Str → Option Bytes) : Option (Str × Bytes × Items) → Prop
  | none (h : ∀ name, b name = none) : Latest loads b none
  | some {name : Str} {raw : Bytes} {m : Items} (h : Newest loads b name raw m) :
      Latest loads b (some (name, raw, m))

/-- The newest manifest lets a manifest of the period follow. -/
inductive Admitted (loads : Loads) (b : Str → Option Bytes) (period : Str) : Prop
  | first (h : ∀ name, b name = none)
  | later {name : Str} {raw : Bytes} {m : Items} (h : Newest loads b name raw m)
      (hlater : Selfstamp.period m < period)

section Newest

variable {env : Surroundings} {b : Str → Option Bytes} {w : World}

theorem wp_listBooks {I : World → Prop} (hI : Still env.toEnv I) (w : World) (hw : I w) :
    Prog.wp (listFiles env.toEnv .manifests Str.json) (fun names t => I t ∧ names = t.bookNames)
      (fun _ => I) w := by
  rw [listFiles, Prog.wp_bind]
  exact Prog.wp_mono (hI.fileCall w hw) (fun _ t ht => ⟨ht, rfl⟩) fun _ _ ht => ht

theorem bookNames_last {name : Str} (h : w.bookNames.getLast? = some name) :
    ∃ raw, w.books name = some raw ∧ ∀ name' raw', w.books name' = some raw' → name' ≤ name := by
  obtain ⟨front, hfront⟩ := List.getLast?_eq_some_iff.mp h
  have hmem : name ∈ w.bookNames := hfront ▸ List.mem_append_right _ (List.mem_singleton_self _)
  obtain ⟨raw, hraw⟩ := mem_bookNames.mp hmem
  refine ⟨raw, hraw, fun name' raw' hraw' => ?_⟩
  have hmem' : name' ∈ w.bookNames := mem_bookNames.mpr ⟨raw', hraw'⟩
  have hsorted := bookNames_sorted w
  rw [hfront] at hmem' hsorted
  obtain hin | hin := List.mem_append.mp hmem'
  · exact ((List.pairwise_append.mp hsorted).2.2 name' hin name (List.mem_singleton_self _)).le
  · exact (List.mem_singleton.mp hin).le

theorem wp_latestManifest (w : World) (hw : w.books = b) :
    Prog.wp (latestManifest env) (fun latest t => t.books = b ∧ Latest env.loads b latest)
      (fun _ t => t.books = b) w := by
  have hstill : Still env.toEnv fun t => t.books = b := (bookless_books env.toEnv b).toStill
  rw [latestManifest, Prog.wp_bind]
  refine Prog.wp_mono (wp_listBooks hstill w hw) ?_ fun _ _ h => h
  rintro names t ⟨ht, rfl⟩
  cases hlast : t.bookNames.getLast? with
  | none =>
      refine ⟨ht, .none fun name => ?_⟩
      by_contra hsome
      obtain ⟨raw, hraw⟩ := Option.ne_none_iff_exists'.mp hsome
      have hmem : name ∈ t.bookNames := mem_bookNames.mpr ⟨raw, ht ▸ hraw⟩
      rw [List.getLast?_eq_none_iff.mp hlast] at hmem
      exact List.not_mem_nil hmem
  | some name =>
      obtain ⟨raw, hraw, hgreatest⟩ := bookNames_last hlast
      dsimp only
      rw [Prog.wp_bind]
      refine Prog.wp_mono (wp_readBytes env (p := .manifests) nofun (get_of_books hraw)) ?_ ?_
      · rintro data u ⟨rfl, rfl⟩
        have hu : (t.next env.toEnv).books = b := hstill.next t ht
        rw [Prog.wp_bind]
        refine Prog.wp_ofExcept (fun m hm => ?_) fun e _ => hu
        have hvalid : parseForeignManifest env.loads data = .ok m := by
          cases hparse : parseForeignManifest env.loads data with
          | error e =>
              rw [hparse] at hm
              cases hm
          | ok m' =>
              rw [hparse] at hm
              exact congrArg Except.ok (Except.ok.inj hm)
        exact ⟨hu, .some ⟨ht ▸ hraw, hvalid, fun name' raw' h =>
          hgreatest name' raw' (ht.symm ▸ h)⟩⟩
      · rintro _ u ⟨rfl, -⟩
        exact hstill.next t ht

theorem wp_admits (period : Str) (w : World) (hw : w.books = b) :
    Prog.wp (admits env period) (fun admitted t => t.books = b ∧
        (admitted = true → Admitted env.loads b period)) (fun _ t => t.books = b) w := by
  have hstill : Still env.toEnv fun t => t.books = b := (bookless_books env.toEnv b).toStill
  rw [admits, Prog.wp_bind]
  refine wp_attempt (Prog.wp_mono (wp_latestManifest w hw) ?_ fun e t ht => ?_)
  · rintro latest t ⟨ht, hlatest⟩
    cases hlatest with
    | none hnone => exact ⟨ht, fun _ => .first hnone⟩
    | @some name raw m hnewest =>
        dsimp only
        rw [Prog.wp_ite]
        refine ⟨fun _ => ⟨ht, fun h => by cases h⟩, fun hlater => ?_⟩
        have hadmitted : Admitted env.loads b period := .later hnewest (not_le.mp hlater)
        rw [Prog.wp_ite]
        refine ⟨fun _ => ⟨ht, fun _ => hadmitted⟩, fun _ => ?_⟩
        rw [Prog.wp_bind]
        refine Prog.wp_mono (keeps_attempt
            (.bind (hstill.listFiles _ _) fun paths => hstill.labelledBefore paths) t ht)
          (fun labelled u hu => ⟨hu, fun _ => hadmitted⟩) fun _ _ h => h
  · split
    · exact ⟨ht, fun h => by cases h⟩
    · exact ht

/-- A run that comes to its manifest was admitted by the newest. -/
theorem wp_arrive_admitted (env : Surroundings) (cfg : Settings) (w : World) (hw : w.books = b) :
    Prog.wp (arrive env cfg) (fun stage t => t.books = b ∧ ∀ n, stage = .build n →
        Admitted env.loads b cfg.period) (fun _ t => t.books = b) w := by
  have hbookless : Bookless env.toEnv fun t => t.books = b := bookless_books env.toEnv b
  have hrest : ∀ (report : Report) t, t.books = b → Prog.wp (do
      if ← pathExists env.toEnv .manifests cfg.manifest then pure (Stage.noop report.failures)
      else if ← admits env cfg.period then pure (Stage.build report.failures)
      else pure (Stage.ends 1) : M Stage)
      (fun stage t => t.books = b ∧ ∀ n, stage = .build n → Admitted env.loads b cfg.period)
          (fun _ t => t.books = b) t := by
    intro report t ht
    rw [Prog.wp_bind]
    refine Prog.wp_mono (hbookless.toStill.pathExists _ _ t ht)
      (fun there u hu => ?_) fun _ _ h => h
    rw [Prog.wp_ite]
    refine ⟨fun _ => ⟨hu, fun _ h => by cases h⟩, fun _ => ?_⟩
    rw [Prog.wp_bind]
    refine Prog.wp_mono (wp_admits cfg.period u hu) (fun admitted v hv => ?_) fun _ _ h => h
    cases admitted with
    | false => exact ⟨hv.1, fun _ h => by cases h⟩
    | true => exact ⟨hv.1, fun _ _ => hv.2 rfl⟩
  rw [arrive, Prog.wp_ite]
  refine ⟨fun _ => ⟨hw, fun _ h => by cases h⟩, fun _ => ?_⟩
  rw [Prog.wp_bind]
  refine Prog.wp_mono (keeps_attempt hbookless.mkdirDurable w hw)
    (fun made t ht => ?_) fun _ _ h => h
  cases made with
  | none => exact ⟨ht, fun _ h => by cases h⟩
  | some _ =>
      dsimp only
      rw [Prog.wp_ite]
      refine ⟨fun _ => ?_, fun _ => hrest .none t ht⟩
      rw [Prog.wp_bind]
      exact Prog.wp_mono (hbookless.witnessInbox env.loads t ht)
        (fun report u hu => hrest report u hu) fun _ _ h => h

end Newest

/-! ## The next manifest -/

/-- The entries record copies as they are held. -/
def Recorded (d : Dir) (entries : List Items) : Prop :=
  ∀ entry ∈ entries, ∃ m copy raw modified foreign,
    entry = entryItems m copy (Sha256.digest raw) modified foreign ∧ isBook copy = true ∧
      d.get copy = some raw

/-- `git_head` gives an object or is not asked, and the fingerprint is in an object. -/
structure Shaped (seen : Observed) : Prop where
  forkHead : seen.forkHead = .null ∨ ∃ items, seen.forkHead = .obj items
  config : ∃ items, seen.config = .obj items

/-- What the surroundings say of the books has its shape, and what they draw as a label is one. -/
structure Observes (env : Surroundings) : Prop where
  label : ∀ n, isLabel (env.freshLabel n) = true
  seen : ∀ n seen, env.observe n = .ok seen → Shaped seen

/-- A manifest that begins the chain, or goes on from the newest. -/
inductive Continues (loads : Loads) (b : Str → Option Bytes) (period : Str) (entries : List Items) :
    Items → Prop
  | first {seen : Observed} {fresh : Str} (hseen : Shaped seen)
      (hfresh : isLabel fresh = true) (h : ∀ name, b name = none) :
      Continues loads b period entries (manifestItems seen fresh period .null (.int 1) entries)
  | next {seen : Observed} {fresh name : Str} {raw : Bytes} {m : Items}
      (hseen : Shaped seen) (hfresh : isLabel fresh = true) (h : Newest loads b name raw m) :
      Continues loads b period entries
        (manifestItems seen ((label m).getD fresh) period (.obj (prevItems name raw))
            (nextSeq m) entries)

section Next

variable {env : Surroundings} {b : Str → Option Bytes} {d : Dir} {I : World → Prop}

/-- What the surroundings answer to a question. -/
theorem Still.wp_ask {env : Env} (hI : Still env I) {α : Type} (answer : Nat → Except Fault α)
    (w : World) (hw : I w) :
    Prog.wp (Selfstamp.ask env answer) (fun a t => I t ∧ ∃ n, answer n = .ok a) (fun _ => I) w := by
  cases h : answer w.calls with
  | ok a => exact Prog.wp_of_ok (congrArg (·, w.next env) h) ⟨hI.next w hw, w.calls, h⟩
  | error e => exact Prog.wp_of_error (congrArg (·, w.next env) h) (hI.next w hw)

theorem wp_foldCopy_recorded {copy : Str} {found : Found} (hbook : isBook copy = true)
    (hfound : Recorded d found.entries) (w : World) (hw : w.files .witnessed = d) :
    Prog.wp (foldCopy env copy found) (fun found' t => t.files .witnessed = d ∧
        Recorded d found'.entries) (fun _ t => t.files .witnessed = d) w := by
  have hstill := still_copies env.toEnv d
  rw [foldCopy, Prog.wp_bind, Prog.wp_gets, Prog.wp_bind]
  refine wp_attempt ?_
  rw [Prog.wp_bind]
  refine Prog.wp_mono (hstill.wp_readBytes .witnessed copy w hw) ?_ fun e t ht => ?_
  · rintro raw t ⟨ht, hraw⟩
    have hheld : d.get copy = some raw := by rwa [← ht]
    rw [Prog.wp_bind]
    refine Prog.wp_ofExcept (fun m hm => ?_) fun e he => ?_
    · dsimp only
      rw [Prog.wp_pure, Prog.wp_bind]
      refine Prog.wp_mono (hstill.ask _ t ht) (fun modified u hu => ?_) fun _ _ h => h
      rw [Prog.wp_bind]
      refine Prog.wp_mono (hstill.foreignState _ _ u hu)
        (fun foreign v hv => ⟨hv, fun entry hentry => ?_⟩) fun _ _ h => h
      obtain hentry | hentry := List.mem_append.mp hentry
      · exact hfound entry hentry
      · obtain rfl := List.mem_singleton.mp hentry
        exact ⟨m, copy, raw, modified, foreign, rfl, hbook, hheld⟩
    · split
      · exact ⟨ht, hfound⟩
      · exact ht
  · split
    · exact ⟨ht, hfound⟩
    · exact ht

theorem wp_foldCopies_recorded (folded copies : List Str) :
    ∀ found w, (∀ copy ∈ copies, isBook copy = true) →
    Recorded d found.entries → w.files .witnessed = d → Prog.wp (foldCopies env folded found copies)
      (fun found' t => t.files .witnessed = d ∧ Recorded d found'.entries)
      (fun _ t => t.files .witnessed = d) w := by
  induction copies with
  | nil => exact fun found w _ hfound hw => ⟨hw, hfound⟩
  | cons copy copies ih =>
      intro found w hcopies hfound hw
      obtain ⟨hcopy, hcopies⟩ := List.forall_mem_cons.mp hcopies
      rw [foldCopies, Prog.wp_ite]
      refine ⟨fun _ => ih found w hcopies hfound hw, fun _ => ?_⟩
      rw [Prog.wp_bind]
      refine Prog.wp_mono (wp_foldCopy_recorded hcopy hfound w hw)
        (fun found' t ht => ?_) fun _ _ h => h
      exact ih found' t hcopies ht.2 ht.1

theorem wp_witnessedEntries_recorded (w : World) (hw : w.files .witnessed = d) :
    Prog.wp (witnessedEntries env) (fun found t => t.files .witnessed = d ∧
        Recorded d found.entries) (fun _ t => t.files .witnessed = d) w := by
  have hstill := still_copies env.toEnv d
  rw [witnessedEntries, Prog.wp_bind]
  refine Prog.wp_mono (hstill.foldedFiles w hw) (fun folded t ht => ?_) fun _ _ h => h
  rw [Prog.wp_bind]
  refine Prog.wp_mono (hstill.wp_listFiles .witnessed Str.json t ht) ?_ fun _ _ h => h
  rintro copies u ⟨hu, -, hcopies⟩
  exact wp_foldCopies_recorded folded copies ⟨[], []⟩ u
    (fun copy hcopy => ((hcopies copy).mp hcopy).1) (fun _ h => absurd h List.not_mem_nil) hu

theorem wp_buildManifest_continues (henv : Observes env) (period : Str) (entries : List Items)
    (w : World) (hw : w.books = b) :
    Prog.wp (buildManifest env period entries) (fun items t => t.books = b ∧
        Continues env.loads b period entries items) (fun _ t => t.books = b) w := by
  have hstill : Still env.toEnv fun t => t.books = b := (bookless_books env.toEnv b).toStill
  rw [buildManifest, Prog.wp_bind]
  refine Prog.wp_mono (wp_latestManifest w hw) ?_ fun _ _ h => h
  rintro latest t ⟨ht, hlatest⟩
  rw [Prog.wp_bind]
  refine Prog.wp_mono (hstill.wp_ask _ t ht) ?_ fun _ _ h => h
  rintro fresh u ⟨hu, n, hfresh⟩
  obtain rfl := Except.ok.inj hfresh
  rw [Prog.wp_bind]
  refine Prog.wp_mono (hstill.wp_ask _ u hu) ?_ fun _ _ h => h
  rintro seen v ⟨hv, n', hseen⟩
  have hshaped := henv.seen n' seen hseen
  cases hlatest with
  | none hnone => exact ⟨hv, .first hshaped (henv.label n) hnone⟩
  | some hnewest => exact ⟨hv, .next hshaped (henv.label n) hnewest⟩

end Next

/-! ## The verifier at the next manifest -/

section Place

variable {a : Archive} {skip : Bool} {index : Nat} {path name period : Str}
  {raw : Bytes} {m : Items} {s : Link} {files : List Str} {b : Str → Option Bytes}
  {entries : List Items} {items : Items}

theorem isLabel_of_label {text : Str} (h : label m = some text) : isLabel text = true := by
  unfold label at h
  split at h
  next chain _ =>
    split_ifs at h with hlabel
    exact Option.some.inj h ▸ hlabel
  next => cases h

/-- The label of the chain is the label of its last manifest. -/
theorem Accepted.label_after (h : Accepted a skip index path raw m s) :
    (s.after path raw m).label = Selfstamp.label m := by
  have hholds := h.label
  change s.label.or (Selfstamp.label m) = Selfstamp.label m
  cases hs : s.label with
  | none => exact Option.none_or
  | some text =>
      rw [hs] at hholds
      cases hm : Selfstamp.label m with
      | none =>
          rw [hm] at hholds
          cases hholds
      | some text' =>
          rw [hm] at hholds
          exact congrArg some (of_decide_eq_true hholds).symm

theorem Accepted.seq_eq (h : Accepted a skip index path raw m s) :
    JsonValue.item m keySeq = .int (index + 1) := by
  obtain ⟨-, ⟨seq, hseq, -⟩, -⟩ := (parseForeignManifest_ok_iff.mp h.valid).2
  have hequals := h.seq
  rw [hseq] at hequals ⊢
  exact congrArg JsonValue.int (of_decide_eq_true hequals)

theorem Newest.unique {loads : Loads} {name' : Str} {raw' : Bytes} {m' : Items}
    (h : Newest loads b name raw m) (h' : Newest loads b name' raw' m') :
    name = name' ∧ raw = raw' ∧ m = m' := by
  obtain rfl : name = name' :=
    (h'.greatest name raw h.held).antisymm (h.greatest name' raw' h'.held)
  obtain rfl := Option.some.inj (h.held.symm.trans h'.held)
  exact ⟨rfl, rfl, Except.ok.inj (h.valid.symm.trans h'.valid)⟩

/-- The files of a chain are the manifests, in order. -/
structure Files (a : Archive) (b : Str → Option Bytes) (files : List Str) : Prop where
  sorted : files.Pairwise (· < ·)
  named : ∀ name ∈ files, Str.endsWith Str.json name = true
  mem : ∀ name, name ∈ files ↔ ∃ raw, b name = some raw
  held : ∀ name ∈ files, a.manifest name = b name

theorem take_json (h : Str.endsWith Str.json name = true) :
    name = name.take (name.length - Str.json.length) ++ Str.json := by
  obtain ⟨stem, rfl⟩ := List.isSuffixOf_iff_suffix.mp h
  rw [List.take_left' (by rw [List.length_append, Nat.add_sub_cancel])]

/-- The newest manifest is the last of the chain, and what the loop carries is what it says. -/
theorem Newest.last (h : Newest a.loads b name raw m) (hfiles : Files a b files)
    (hchain : Chains a skip files s) :
    ∃ front, files = front ++ [name] ∧ s.prev = some (name, some raw) ∧
      s.period = .str (Selfstamp.period m) ∧
      name = Selfstamp.period m ++ Str.json ∧ (Selfstamp.period m).length = 10 ∧ s.label = label m ∧
      JsonValue.item m keySeq = .int files.length := by
  have hname : name ∈ files := (hfiles.mem name).mpr ⟨raw, h.held⟩
  cases hchain with
  | start => exact absurd hname List.not_mem_nil
  | @more front s path raw' m' _ hread haccepted =>
      have hpath : path ∈ front ++ [path] := List.mem_append_right _ (List.mem_singleton_self _)
      obtain ⟨raw'', hraw''⟩ := (hfiles.mem path).mp hpath
      have hle : name ≤ path := by
        obtain hin | hin := List.mem_append.mp hname
        · exact ((List.pairwise_append.mp hfiles.sorted).2.2 name hin path
              (List.mem_singleton_self _)).le
        · exact (List.mem_singleton.mp hin).le
      obtain rfl : name = path := hle.antisymm (h.greatest path raw'' hraw'')
      obtain rfl : raw = raw' :=
        Option.some.inj (h.held.symm.trans ((hfiles.held name hname).symm.trans hread))
      obtain rfl : m = m' := Except.ok.inj (h.valid.symm.trans haccepted.valid)
      obtain ⟨-, -, p, hp, hlength, -⟩ := (parseForeignManifest_ok_iff.mp h.valid).2
      have hperiod : Selfstamp.period m = p := by rw [Selfstamp.period, hp]
      have htake : name.take (name.length - Str.json.length) = p :=
        JsonValue.str.inj (haccepted.period.symm.trans hp)
      refine ⟨front, rfl, rfl, ?_, ?_, ?_, haccepted.label_after, ?_⟩
      · rw [hperiod]
        exact hp
      · rw [hperiod, ← htake]
        exact take_json (hfiles.named name hname)
      · rw [hperiod, hlength]
      · rw [haccepted.seq_eq, List.length_append]
        rfl

theorem labelHolds_none (found : Option Str) : labelHolds none found = true := by
  cases found <;> rfl

theorem label_manifestItems {seen : Observed} {prev seq : JsonValue} {chain : Str}
    (h : isLabel chain = true) :
    label (manifestItems seen chain period prev seq entries) = some chain := by
  have hitem : JsonValue.item (manifestItems seen chain period prev seq entries) keyChain =
    .str chain := rfl
  rw [label, hitem]
  exact if_pos h

/-- The validator takes what a run writes. -/
theorem parse_manifestItems {loads : Loads}
    {seen : Observed} {prev : JsonValue} {seq : Int} {chain : Str}
    (hloads : loads raw = .ok (.obj (manifestItems seen chain period prev (.int seq) entries)))
    (hlabel : isLabel chain = true) (hseq : 1 ≤ seq) (hlength : period.length = 10)
    (hdate : isDate period = true) :
    parseForeignManifest loads raw =
      .ok (manifestItems seen chain period prev (.int seq) entries) := by
  refine parseForeignManifest_ok_iff.mpr
    ⟨hloads, ⟨schema3, rfl, by decide, fun _ => ?_, fun h => absurd rfl h⟩, ⟨seq, rfl, hseq⟩,
    period, rfl, hlength, hdate⟩
  rw [label_manifestItems hlabel]
  exact Option.some_ne_none _

theorem genesisRecord_manifestItems {seen : Observed} {prev seq : JsonValue}
    {chain : Str} (h : Shaped seen) (hprints : ∀ v, a.prints v = true) :
    genesisRecord a index (manifestItems seen chain period prev seq entries) = .ok () := by
  have hforkHead : JsonValue.item (manifestItems seen chain period prev seq entries) keyForkHead =
    seen.forkHead := rfl
  have hconfig : JsonValue.item (manifestItems seen chain period prev seq entries) keyConfig =
    seen.config := rfl
  have hgetOf : ∀ items key, ∃ v, getOf (.obj items) key = .ok v := by
    intro items key
    rw [getOf]
    split_ifs
    · exact ⟨_, rfl⟩
    · exact ⟨_, rfl⟩
  obtain ⟨commit, hcommit⟩ : ∃ v, getOf seen.forkHead keyCommit = .ok v := by
    obtain hnull | ⟨items, hitems⟩ := h.forkHead
    · rw [hnull]
      exact ⟨_, rfl⟩
    · rw [hitems]
      exact hgetOf items keyCommit
  obtain ⟨config, hitems⟩ := h.config
  obtain ⟨sha256, hsha256⟩ := hgetOf config keySha256
  rw [genesisRecord, hforkHead, hconfig, hcommit, hitems, hsha256]
  split_ifs
  · exact report_ok hprints _
  · rfl

/-- Every check of the verifier holds of a manifest that goes on from the last of a chain. -/
theorem Continues.accepted (h : Continues a.loads b period entries items)
    (hadmitted : Admitted a.loads b period) (hfiles : Files a b files)
    (hchain : Chains a false files s) (hlength : period.length = 10) (hdate : isDate period = true)
    (hloads : a.loads raw = .ok (.obj items)) (hprints : ∀ v, a.prints v = true) (hproof : ∃ state,
      describeBeside (a.manifestProof (period ++ Str.json)) raw = .ok state ∧ state.good = true)
    (hentries : ∀ entry ∈ entries, verifyEntry a false (.obj entry) = .ok true) :
    Accepted a false files.length (period ++ Str.json) raw items s := by
  have htake : period =
      (period ++ Str.json).take ((period ++ Str.json).length - Str.json.length) := by
    rw [List.take_left' (by rw [List.length_append, Nat.add_sub_cancel])]
  have hvouched : verifyWitnessed a false (entries.map .obj) = .ok true :=
    verifyWitnessed_ok_iff.mpr fun entry hentry => by
      obtain ⟨items, hitems, rfl⟩ := List.mem_map.mp hentry
      exact hentries items hitems
  have hmembers : membersOf (.arr (entries.map .obj)) = .ok (entries.map .obj) := by
    cases entries <;> rfl
  cases h with
  | @first seen fresh hseen hfresh hnone =>
      have hnil : files = [] := by
        refine List.eq_nil_iff_forall_not_mem.mpr fun name hname => ?_
        obtain ⟨raw', hraw'⟩ := (hfiles.mem name).mp hname
        cases (hnone name).symm.trans hraw'
      subst hnil
      obtain rfl := hchain.nil
      exact ⟨rfl, parse_manifestItems hloads hfresh le_rfl hlength hdate, rfl,
        congrArg JsonValue.str htake, rfl, rfl, labelHolds_none _, rfl, report_ok hprints _,
        genesisRecord_manifestItems hseen hprints, rfl, hproof, _, hmembers, hvouched⟩
  | @next seen fresh name raw' m hseen hfresh hnewest =>
      obtain ⟨front, rfl, hprev, hperiod, -, -, hlabel, hseq⟩ := hnewest.last hfiles hchain
      have hchained : isLabel ((label m).getD fresh) = true := by
        cases hm : label m with
        | none => exact hfresh
        | some text => exact isLabel_of_label hm
      have hnextSeq : nextSeq m = .int ((front ++ [name]).length + 1) := by rw [nextSeq, hseq]
      have hlater : Selfstamp.period m < period := by
        cases hadmitted with
        | first hnone => cases (hnone name).symm.trans hnewest.held
        | later hnewest' hlater =>
            obtain ⟨-, -, rfl⟩ := hnewest.unique hnewest'
            exact hlater
      rw [hnextSeq] at hloads ⊢
      refine ⟨hchain.ok, parse_manifestItems hloads hchained (by omega) hlength hdate,
        decide_eq_true rfl, congrArg JsonValue.str htake, ?_, ?_, ?_, rfl, report_ok hprints _,
        genesisRecord_manifestItems hseen hprints, rfl, hproof, _, hmembers, hvouched⟩
      · rw [hperiod]
        exact congrArg Except.ok (decide_eq_true hlater)
      · rw [hprev]
        exact (Bool.and_eq_true _ _).mpr ⟨decide_eq_true rfl, decide_eq_true rfl⟩
      · rw [label_manifestItems hchained, hlabel]
        cases label m with
        | none => rfl
        | some text => exact decide_eq_true rfl

end Place

/-! ## Runs -/

/-- The period of a run is a date. -/
structure Dated (cfg : Settings) : Prop where
  length : cfg.period.length = 10
  date : isDate cfg.period = true

/-- What a run encodes as its manifest decodes to it. -/
def Decodes (env : Surroundings) (cfg : Settings) (w : World) : Prop :=
  ∀ n t built u, arrive env cfg w = (.ok (.build n), t) → compose env cfg t = (.ok built, u) →
    env.loads (env.dumps (.obj built.items)) = .ok (.obj built.items)

/-- What happens to the state directory and the inbox: a run, to its end or to where it stops, the
`upgrade` command, and between them whatever leaves the manifests, the claims, the copies and what
was rejected. -/
inductive Diary.Step (env : Surroundings) (seen : Set Bytes) : World → World → Prop
  | run {w : World} (cfg : Settings) (hunused : DrawsUnused env.toEnv w) (hdated : Dated cfg)
      (hdecodes : Decodes env cfg w) : Diary.Step env seen w (heartbeat env cfg w).2
  | upgrade {w : World} : Diary.Step env seen w (upgradeOnly env w).2
  | elsewhere {w t : World} (hbooks : t.books = w.books)
      (hclaims : ∀ name, name.isDot = true → t.get .inbox name = w.get .inbox name)
      (hinbox : ∀ name data, t.get .inbox name = some data → data ∈ seen)
      (hcopies : ∀ copy, isBook copy = true → t.get .witnessed copy = w.get .witnessed copy)
      (hrejected : ∀ name, t.get .rejected name = w.get .rejected name) : Diary.Step env seen w t

/-- From no manifest, or from a chain that the verifier accepts. -/
def diary (env : Surroundings) (seen : Set Bytes) : Transition.System World where
  init w := Tidy env.loads seen w ∧
    (w.bookNames = [] ∨ verifyChain (plain env w) none false = .ok true)
  step := Diary.Step env seen

section Runs

variable {env : Surroundings} {seen : Set Bytes} {cfg : Settings} {w t : World}
  {b : Str → Option Bytes}

theorem verifyChain_ok_iff {a : Archive} {skip : Bool} : verifyChain a none skip = .ok true ↔
    ∃ files s, a.manifests = some files ∧ files ≠ [] ∧ Chains a skip files s := by
  constructor
  · intro h
    unfold verifyChain at h
    split at h
    · cases h
    · cases h
    next files hnonempty hfiles =>
      obtain ⟨s, hs, h⟩ := Except.exists_of_bind_ok h
      have hok : s.ok = true := Except.ok.inj h
      exact ⟨files, s, hfiles, hnonempty, (verifyManifests_ok_iff files s).mp ⟨hs, hok⟩⟩
  · rintro ⟨files, s, hfiles, hnonempty, hchain⟩
    obtain ⟨hs, hok⟩ := (verifyManifests_ok_iff files s).mpr hchain
    unfold verifyChain
    split
    next hnone => cases hnone.symm.trans hfiles
    next hnil => exact absurd (Option.some.inj (hfiles.symm.trans hnil)) hnonempty
    next files' _ hfiles' =>
      obtain rfl := Option.some.inj (hfiles.symm.trans hfiles')
      rw [hs]
      exact congrArg Except.ok hok

theorem Copyless.proceed {I : World → Prop} (hI : Copyless env.toEnv I) (cfg : Settings)
    (stage : Stage) : Keeps I (proceed env cfg stage) := by
  have hpasses : ∀ failures, Keeps I (Selfstamp.passesOf env failures) := fun failures w hw =>
    Prog.wp_mono (hI.passesOf (Loose.of_place (.inl rfl)) (Loose.of_place (.inr rfl)) failures w hw)
      (fun _ _ h => h.1) fun _ _ h => h
  cases stage with
  | ends code => exact .pure _
  | noop failures => exact hpasses failures
  | build failures =>
      refine .bind (hI.toStill.compose cfg) fun built =>
        .bind (keeps_attempt (hI.writeAtomic (Loose.of_place (.inl rfl)) (.inl rfl) _))
          fun written => ?_
      cases written with
      | none => exact .pure _
      | some _ => exact hpasses _

/-- Among periods of one length the names are in the order of the periods. -/
theorem append_lt_append {p q : Str} (suffix : Str) (hlength : p.length = q.length) (h : p < q) :
    p ++ suffix < q ++ suffix := by
  induction p generalizing q with
  | nil =>
      obtain rfl := List.length_eq_zero_iff.mp hlength.symm
      exact absurd h (lt_irrefl _)
  | cons x p ih =>
      cases q with
      | nil => cases hlength
      | cons y q =>
          rw [List.cons_append, List.cons_append, List.cons_lt_cons_iff]
          exact (List.cons_lt_cons_iff.mp h).imp_right fun hsame =>
            ⟨hsame.1, ih (Nat.succ.inj hlength) hsame.2⟩

theorem files_plain (env : Surroundings) (w : World) : Files (plain env w) w.books w.bookNames where
  sorted := bookNames_sorted w
  named _ hname := ((Bool.and_eq_true _ _).mp (List.mem_filter.mp hname).2).1
  mem _ := mem_bookNames
  held _ _ := rfl

/-- The names of the manifests with a later one. -/
theorem bookNames_withBook {name : Str} {data : Bytes}
    (hbooks : t.books = withBook w.books name data) (hbook : isBook name = true)
    (hlast : ∀ name' ∈ w.bookNames, name' < name) : t.bookNames = w.bookNames ++ [name] := by
  refine bookNames_unique
    (List.pairwise_append.mpr ⟨bookNames_sorted w, List.pairwise_singleton _ _, ?_⟩) fun name' => ?_
  · intro name' hname' last hlast'
    rw [List.mem_singleton.mp hlast']
    exact hlast name' hname'
  · rw [List.mem_append, List.mem_singleton, mem_bookNames, hbooks, withBook]
    constructor
    · rintro (hheld | rfl)
      · obtain ⟨raw, hraw⟩ := hheld
        split_ifs
        · exact ⟨data, rfl⟩
        · exact ⟨raw, hraw⟩
      · rw [if_pos ⟨hbook, rfl⟩]
        exact ⟨data, rfl⟩
    · rintro ⟨raw, hraw⟩
      split_ifs at hraw with hname
      · exact .inr hname.2
      · exact .inl ⟨raw, hraw⟩

/-- What was accepted stays accepted where the manifests and the copies stay. -/
theorem covers_plain (hbooks : ∀ name ∈ w.bookNames, t.books name = w.books name)
    (hcopies : ∀ copy raw, isBook copy = true → w.get .witnessed copy = some raw →
      t.get .witnessed copy = some raw) : Covers (plain env w) (plain env t) w.bookNames where
  loads := rfl
  prints _ := rfl
  manifests := hbooks
  copies copy raw hcopy := by
    obtain ⟨hbook, hraw⟩ := copy_plain hcopy
    exact plain_copy hbook (hcopies copy raw hbook hraw)
  proofs := goodProofs_plain env t

theorem Recorded.verifyEntry {d : Dir} {entries : List Items} (h : Recorded d entries) (hcopies :
      ∀ copy raw, isBook copy = true → d.get copy = some raw → w.get .witnessed copy = some raw) :
    ∀ entry ∈ entries, verifyEntry (plain env w) false (.obj entry) = .ok true := by
  intro entry hentry
  obtain ⟨m, copy, raw, modified, foreign, rfl, hbook, hraw⟩ := h entry hentry
  have htruthy : (JsonValue.str copy).truthy = true := by
    refine decide_eq_true ?_
    rintro rfl
    exact Bool.false_ne_true hbook
  have hverified : verifyCopy (plain env w) copy (.str (sha256Text raw)) = .ok true :=
    verifyCopy_ok_iff.mpr ⟨raw, plain_copy hbook (hcopies copy raw hbook hraw),
      ⟨.missing, rfl, rfl⟩, rfl, decide_eq_true rfl⟩
  exact verifyEntry_ok_iff.mpr ⟨_, rfl, verifyVouch_ok_iff.mpr ⟨copy, rfl, htruthy, hverified⟩,
    report_ok (fun _ => rfl) _⟩

theorem wp_compose_continues {d : Dir} (henv : Observes env) (cfg : Settings)
    (w : World) (hbooks : w.books = b) (hcopies : w.files .witnessed = d) :
    Prog.wp (compose env cfg) (fun built _ => ∃ entries, Recorded d entries ∧
        Continues env.loads b cfg.period entries built.items) (fun _ _ => True) w := by
  have hstill : Still env.toEnv fun t => t.books = b := (bookless_books env.toEnv b).toStill
  rw [compose, Prog.wp_bind]
  refine Prog.wp_mono (hstill.witnessedEntries.wp_and hbooks
      (wp_witnessedEntries_recorded w hcopies)) ?_ fun _ _ _ => trivial
  rintro found t ⟨ht, -, hrecorded⟩
  rw [Prog.wp_bind]
  refine Prog.wp_mono (wp_buildManifest_continues henv cfg.period found.entries t ht)
    ?_ fun _ _ _ => trivial
  exact fun items u hu => ⟨found.entries, hrecorded, hu.2⟩

/-- The manifests of a run's beginning are as they were, at its end or where it stops. -/
theorem heartbeat_keeps (env : Surroundings) (cfg : Settings) (w : World) :
    ∀ name ∈ w.bookNames, (heartbeat env cfg w).2.books name = w.books name := by
  intro name hname
  obtain hbooks | ⟨_, _, built, _, -, -, -, hfree, hbooks⟩ := heartbeat_books env cfg w
  · rw [hbooks]
  · obtain ⟨raw, hraw⟩ := mem_bookNames.mp hname
    rw [hbooks, withBook, if_neg]
    rintro ⟨-, rfl⟩
    cases hfree.symm.trans hraw

/-- The manifests are a chain that the verifier accepts. -/
def Sound (env : Surroundings) (w : World) : Prop := ∃ s, Chains (plain env w) false w.bookNames s

theorem Sound.stays (h : Sound env w) (hbooks : t.books = w.books) (hcopies : ∀ copy raw,
      isBook copy = true → w.get .witnessed copy = some raw → t.get .witnessed copy = some raw) :
    Sound env t := by
  obtain ⟨s, hchain⟩ := h
  have hnames : t.bookNames = w.bookNames :=
    bookNames_unique (bookNames_sorted w) fun name => by rw [mem_bookNames, hbooks]
  refine ⟨s, ?_⟩
  rw [hnames]
  exact (covers_plain (fun name _ => congrFun hbooks name) hcopies).chains hchain

/-- A run puts the next manifest of a chain, at its end or before it stops. -/
theorem Sound.heartbeat (henv : Observes env) (hd : Distinct env.toEnv seen)
    (htidy : Tidy env.loads seen w) (hunused : DrawsUnused env.toEnv w) (hdated : Dated cfg)
    (hdecodes : Decodes env cfg w) (h : Sound env w) : Sound env (heartbeat env cfg w).2 := by
  have htouches := heartbeat_touches hd htidy hunused cfg
  have hcopies : ∀ copy raw, isBook copy = true → w.get .witnessed copy = some raw →
      (Selfstamp.heartbeat env cfg w).2.get .witnessed copy = some raw :=
    fun copy raw hbook hraw => htidy.copies_stay hd htouches hbook hraw
  obtain hbooks | ⟨n, u, built, v, harrive, hcompose, hu, hfree,
    hbooks⟩ := heartbeat_books env cfg w
  · exact h.stays hbooks hcopies
  -- the copies that the manifest lists are those of the world `u`, where it is composed
  have hadmitted : Admitted env.loads w.books cfg.period := by
    have hwp := wp_arrive_admitted env cfg w rfl
    rw [Prog.wp, harrive] at hwp
    exact hwp.2 n rfl
  obtain ⟨entries, hrecorded, hcontinues⟩ : ∃ entries, Recorded (u.files .witnessed) entries ∧
      Continues env.loads w.books cfg.period entries built.items := by
    have hwp := wp_compose_continues henv cfg u hu rfl
    rwa [Prog.wp, hcompose] at hwp
  have htidy' : Tidy env.loads seen u := by
    have hwp := wp_arrive_touches hd htidy hunused cfg
    rw [Prog.wp, harrive] at hwp
    exact htidy.touches hd hwp.1
  have hafter : Touches env.toEnv env.loads u (Selfstamp.heartbeat env cfg w).2 := by
    rw [Selfstamp.heartbeat, Prog.bind_of_ok harrive]
    exact ((copyless_touches u).proceed cfg (.build n)).apply (.refl u)
  obtain ⟨s, hchain⟩ := h
  by_cases hbook : isBook cfg.manifest = true
  swap
  · refine Sound.stays ⟨s, hchain⟩ ?_ hcopies
    rw [hbooks]
    exact funext fun name => if_neg fun hname => hbook hname.1
  have hlater : ∀ name ∈ w.bookNames, name < cfg.manifest := by
    intro name hname
    obtain ⟨raw, hraw⟩ := mem_bookNames.mp hname
    cases hadmitted with
    | first hnone => cases (hnone name).symm.trans hraw
    | @later last raw' m hnewest hlater =>
        obtain ⟨-, -, -, -, hlast, hlength, -, -⟩ := hnewest.last (files_plain env w) hchain
        refine (hnewest.greatest name raw hraw).trans_lt ?_
        rw [hlast]
        exact append_lt_append Str.json (hlength.trans hdated.length.symm) hlater
  have hcovers : Covers (plain env w) (plain env (Selfstamp.heartbeat env cfg w).2) w.bookNames :=
    covers_plain (heartbeat_keeps env cfg w) hcopies
  have hchain' := hcovers.chains hchain
  have hread : (Selfstamp.heartbeat env cfg w).2.books cfg.manifest =
      some (env.dumps (.obj built.items)) := by
    rw [hbooks]
    exact if_pos ⟨hbook, rfl⟩
  have hfiles : Files (plain env (Selfstamp.heartbeat env cfg w).2) w.books w.bookNames :=
    { files_plain env w with held := heartbeat_keeps env cfg w }
  have haccepted := hcontinues.accepted hadmitted hfiles hchain' hdated.length hdated.date
    (hdecodes n u built v harrive hcompose) (fun _ => rfl) ⟨.missing, rfl, rfl⟩
    (hrecorded.verifyEntry fun copy raw hbook hraw => htidy'.copies_stay hd hafter hbook hraw)
  refine ⟨s.after cfg.manifest (env.dumps (.obj built.items)) built.items, ?_⟩
  rw [bookNames_withBook hbooks hbook hlater]
  exact hchain'.more hread haccepted

theorem Diary.Step.tidy (hd : Distinct env.toEnv seen) (hw : Tidy env.loads seen w)
    (h : Diary.Step env seen w t) : Tidy env.loads seen t := by
  cases h with
  | run cfg hunused => exact hw.step hd (.run cfg hunused)
  | upgrade => exact hw.step hd .upgrade
  | elsewhere _ hclaims hinbox hcopies hrejected =>
      exact hw.step hd (.elsewhere hclaims hinbox hcopies hrejected)

theorem Sound.step (henv : Observes env) (hd : Distinct env.toEnv seen)
    (htidy : Tidy env.loads seen w) (h : Sound env w) (hstep : Diary.Step env seen w t) :
    Sound env t := by
  cases hstep with
  | run cfg hunused hdated hdecodes => exact h.heartbeat henv hd htidy hunused hdated hdecodes
  | upgrade =>
      exact h.stays ((bookless_books env.toEnv _).upgradeOnly.apply rfl) fun copy raw hbook hraw =>
        htidy.copies_stay hd (upgradeOnly_touches env w) hbook hraw
  | elsewhere hbooks _ _ hcopies _ =>
      exact h.stays hbooks fun copy raw hbook hraw => (hcopies copy hbook).trans hraw

theorem sound_of_reachable (henv : Observes env) (hd : Distinct env.toEnv seen)
    (h : (diary env seen).Reachable w) : Tidy env.loads seen w ∧ Sound env w := by
  refine Transition.System.Inductive.reachable (I := fun w => Tidy env.loads seen w ∧
      Sound env w) ⟨?_, ?_⟩ h
  · rintro w ⟨htidy, hnil | haccepted⟩
    · exact ⟨htidy, ⟨none, .null, none, true⟩, hnil ▸ .start⟩
    · obtain ⟨files, s, hfiles, -, hchain⟩ := verifyChain_ok_iff.mp haccepted
      exact ⟨htidy, s, Option.some.inj hfiles ▸ hchain⟩
  · exact fun w t _ hw hstep => ⟨hstep.tidy hd hw.1, hw.2.step henv hd hw.1 hstep⟩

theorem Diary.Step.keeps (h : Diary.Step env seen w t) :
    ∀ name raw, w.books name = some raw → t.books name = some raw := by
  intro name raw hraw
  cases h with
  | run cfg => exact (heartbeat_keeps env cfg w name (mem_bookNames.mpr ⟨raw, hraw⟩)).trans hraw
  | upgrade =>
      have hkept : (upgradeOnly env w).2.books = w.books :=
        (bookless_books env.toEnv _).upgradeOnly.apply rfl
      exact (congrFun hkept name).trans hraw
  | elsewhere hbooks => exact (congrFun hbooks name).trans hraw

/-- What the runs write, the verifier accepts: from no manifest or from a chain that it accepts,
whatever is delivered, fails or stops, the manifests are a chain that it accepts with all its
vouches, as long as no proof beside a file is a bad one; and the chain only grows. -/
theorem written_chain_verifies (env : Surroundings)
    (henv : Observes env) {seen : Set Bytes} (hd : Distinct env.toEnv seen)
    {w t : World} (hw : (diary env seen).Reachable w) (hrun : (diary env seen).Run w t) :
    (∀ a, Views env t a → t.bookNames ≠ [] → verifyChain a none false = .ok true) ∧
      ∀ name raw, w.books name = some raw → t.books name = some raw := by
  refine ⟨fun a hviews hnonempty => ?_, fun name raw hraw => ?_⟩
  · obtain ⟨-, s, hchain⟩ := sound_of_reachable henv hd (hw.run hrun)
    exact verifyChain_ok_iff.mpr ⟨t.bookNames, s, hviews.names, hnonempty,
      hviews.covers.chains hchain⟩
  · exact hrun.keeps (P := fun u => u.books name = some raw)
      (fun _ _ _ h hstep => Diary.Step.keeps hstep name raw h) hw hraw

end Runs

namespace FirstCopy

theorem views_plain (env : Surroundings) (w : World) : Views env w (plain env w) where
  loads := rfl
  prints _ := rfl
  names := rfl
  manifests _ _ := rfl
  copies _ _ hbook hraw := plain_copy hbook hraw
  proofs := goodProofs_plain env w

theorem observes : Observes env where
  label _ := (by decide : isLabel chainLabel = true)
  seen n seen hseen := by
    obtain rfl := Except.ok.inj hseen
    exact ⟨.inl rfl, _, rfl⟩

def seen : Set Bytes := {copyBytes}

theorem distinct : Distinct env.toEnv seen where
  apart := Set.injOn_singleton _ _
  delivered _ _ hd := absurd hd List.not_mem_nil

theorem tidy_start : Tidy env.loads seen start where
  inbox _ _ h := by cases h
  copies name raw _ h := by
    have hentries : (start.files .witnessed).entries = [(copy, copyBytes)] := by decide +kernel
    have hmem := Interrupted.mem_entries_of_get h
    rw [hentries] at hmem
    obtain ⟨rfl, rfl⟩ := Prod.mk.inj (List.mem_singleton.mp hmem)
    exact ⟨rfl, copyItems, by rfl, by decide +kernel⟩
  rejected _ _ h := by cases h

theorem dated : Dated cfg := ⟨rfl, by decide⟩

theorem bookNames_start : start.bookNames = [] := by decide +kernel

/-- The verifier accepts the first manifest, with its vouch for the copy. -/
theorem first_manifest_verifies :
    verifyChain (plain env (heartbeat env cfg start).2) none false = .ok true := by
  have hrun : (diary env seen).Run start (heartbeat env cfg start).2 :=
    .single (.run cfg (fun _ => rfl) dated undisturbed.decodes)
  have hbook : (heartbeat env cfg start).2.books cfg.manifest = some manifestBytes := by
    decide +kernel
  refine (written_chain_verifies env observes distinct (.init ⟨tidy_start, .inl bookNames_start⟩)
      hrun).1 _ (views_plain env _) ?_
  exact List.ne_nil_of_mem (mem_bookNames.mpr ⟨manifestBytes, hbook⟩)

end FirstCopy

end OtsServer.Selfstamp
