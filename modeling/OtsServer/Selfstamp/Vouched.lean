import OtsServer.Library.Transition
import OtsServer.Selfstamp.Books
import OtsServer.Selfstamp.Mispaired

/-!
# Every copy is vouched for once

The copies that are listed already are read from the manifests at each run. A run writes one
manifest at most, under a name that was free, and lists in it the copies that no manifest lists;
nothing else touches a manifest. So over any runs, and wherever they stop, no copy is listed twice.
-/

namespace OtsServer.Selfstamp

open Prog (Keeps)

/-! ## What is listed -/

/-- The copies that a manifest lists. -/
def listed (loads : Loads) (raw : Bytes) : List Str :=
  match loads raw with
  | .ok manifest => (foldManifest manifest).1
  | .error _ => []

/-- The copies that the manifest of a name lists. -/
def vouchedIn (loads : Loads) (books : Str → Option Bytes) (name : Str) : List Str :=
  (books name).elim [] (listed loads)

/-- A manifest that decodes, with entries that can be walked to the last. -/
def Walks (loads : Loads) (raw : Bytes) : Prop :=
  ∃ manifest, loads raw = .ok manifest ∧ (foldManifest manifest).2 = .done

/-- No copy is in two entries of the chain's manifests, and each manifest can be read. -/
structure VouchedOnce (loads : Loads) (books : Str → Option Bytes) : Prop where
  walks : ∀ name raw, books name = some raw → Walks loads raw
  once : ∀ name, (vouchedIn loads books name).Nodup
  apart : ∀ name name', name ≠ name' →
    (vouchedIn loads books name).Disjoint (vouchedIn loads books name')

/-! ## Entries -/

section Entries

theorem foldEntries_append {es es' : List JsonValue} {files : List Str}
    (h : foldEntries es = (files, .done)) :
    foldEntries (es ++ es') = (files ++ (foldEntries es').1, (foldEntries es').2) := by
  induction es generalizing files with
  | nil =>
      obtain rfl : [] = files := (Prod.mk.inj h).1
      rfl
  | cons e es ih =>
      cases e with
      | obj items =>
          rw [foldEntries] at h
          rw [List.cons_append, foldEntries]
          split at h
          · exact nomatch h
          · exact nomatch h
          · obtain ⟨rfl, hwalk⟩ := Prod.mk.inj h
            dsimp only
            rw [ih (Prod.ext rfl hwalk)]
            rfl
          · exact ih h
      | _ => exact nomatch h

/-- The entries of a new manifest are what is listed in it. -/
theorem foldManifest_manifestItems (seen : Observed) (chain period : Str) (prev seq : JsonValue)
    (entries : List Items) :
    foldManifest (.obj (manifestItems seen chain period prev seq entries)) =
      foldEntries (entries.map .obj) := by
  have hitem : JsonValue.item (manifestItems seen chain period prev seq entries) keyWitnessed =
      .arr (entries.map .obj) :=
    rfl
  rw [foldManifest, hitem]
  cases entries <;> rfl

end Entries

/-! ## The runs -/

section Runs

variable (env : Surroundings)

/-- Each of the manifests can be read when the run comes to it. -/
def Opens : List Str → World → Prop
  | [], _ => True
  | path :: paths, w =>
      (loadManifest env path w).1 ≠ .error .osError ∧ Opens paths (loadManifest env path w).2

/-- A run that can read every manifest when it looks for what is listed, and whose manifest decodes
to what was encoded. -/
structure Undisturbed (cfg : Settings) (w : World) : Prop where
  opens : ∀ n t paths u, arrive env cfg w = (.ok (.build n), t) →
    listFiles env.toEnv .manifests Str.json t = (.ok paths, u) → Opens env paths u
  decodes : ∀ n t built u, arrive env cfg w = (.ok (.build n), t) → compose env cfg t =
    (.ok built, u) → env.loads (env.dumps (.obj built.items)) = .ok (.obj built.items)

/-- What happens to the state directory: a run, to its end or to where it stops, the `upgrade`
command, and between them whatever is not a manifest's. -/
inductive Chain.Step : World → World → Prop
  | run {w : World} (cfg : Settings) (h : Undisturbed env cfg w) :
      Chain.Step w (heartbeat env cfg w).2
  | upgrade {w : World} : Chain.Step w (upgradeOnly env w).2
  | elsewhere {w w' : World} (h : w'.books = w.books) : Chain.Step w w'

/-- The life of a chain from before its first manifest. -/
def chain : Transition.System World where
  init w := w.books = fun _ => none
  step := Chain.Step env

end Runs

/-! ## The manifests are read -/

section Reads

variable {env : Surroundings} {b : Str → Option Bytes}

theorem get_of_books {w : World} {name : Str} {raw : Bytes} (h : w.books name = some raw) :
    w.get .manifests name = some raw := by
  rw [World.books] at h
  split_ifs at h
  exact h

/-- A file that is there is read, unless the call fails. -/
theorem wp_readBytes (env : Surroundings) {p : Place} (hp : p ≠ .inbox) {name : Str}
    {raw : Bytes} {w : World} (h : w.get p name = some raw) :
    Prog.wp (readBytes env.toEnv p name) (fun data t => data = raw ∧ t = w.next env.toEnv)
      (fun e t => t = w.next env.toEnv ∧
        (env.file w.calls = .raises ∧ e = .osError ∨ e = .stop)) w := by
  rw [readBytes, Prog.wp_bind]
  cases hcall : env.file w.calls with
  | done =>
      refine Prog.wp_of_ok (congrArg (fun a => (FileAnswer.result a, w.next env.toEnv)) hcall) ?_
      rw [Prog.wp_bind, Prog.wp_gets, get_next _ _ hp, h]
      exact ⟨rfl, rfl⟩
  | raises =>
      exact Prog.wp_of_error (congrArg (fun a => (FileAnswer.result a, w.next env.toEnv)) hcall)
        ⟨rfl, .inl ⟨rfl, rfl⟩⟩
  | stops =>
      exact Prog.wp_of_error (congrArg (fun a => (FileAnswer.result a, w.next env.toEnv)) hcall)
        ⟨rfl, .inr rfl⟩

theorem wp_loadManifest {w : World} {path : Str} {raw : Bytes} {manifest : JsonValue}
    (h : w.books path = some raw) (hloads : env.loads raw = .ok manifest) :
    Prog.wp (loadManifest env path) (fun v t => v = manifest ∧ t = w.next env.toEnv)
      (fun e t => t = w.next env.toEnv ∧ (e = .osError ∨ e = .stop)) w := by
  rw [loadManifest, Prog.wp_bind]
  have hread := wp_readBytes env (p := .manifests) nofun (get_of_books h)
  refine Prog.wp_mono hread ?_ fun _ _ he => ⟨he.1, he.2.imp_left And.right⟩
  rintro _ _ ⟨rfl, rfl⟩
  rw [hloads]
  exact ⟨rfl, rfl⟩

/-- What is listed already, when every manifest is read: what some manifest lists. -/
theorem wp_foldFiles (hwalks : ∀ name raw, b name = some raw → Walks env.loads raw)
    (paths : List Str) :
    ∀ folded w, w.books = b → (∀ path ∈ paths, ∃ raw, b path = some raw) → Opens env paths w →
      Prog.wp (foldFiles env folded paths) (fun files _ => ∀ file, file ∈ files ↔ file ∈ folded ∨
          ∃ path ∈ paths, file ∈ vouchedIn env.loads b path) (fun _ _ => True) w := by
  induction paths with
  | nil => exact fun folded w _ _ _ file => by simp
  | cons path paths ih =>
      intro folded w hb hpaths hopens
      obtain ⟨raw, hraw⟩ := hpaths path (List.mem_cons_self ..)
      obtain ⟨manifest, hloads, hwalk⟩ := hwalks path raw hraw
      have hvouched : vouchedIn env.loads b path = (foldManifest manifest).1 := by
        rw [vouchedIn, hraw, Option.elim_some, listed, hloads]
      have hload := wp_loadManifest (hb ▸ hraw) hloads
      rw [foldFiles, Prog.wp_bind]
      rcases hstep : loadManifest env path w with ⟨e | v, t⟩
      · rw [Opens, hstep] at hopens
        rw [Prog.wp, hstep] at hload
        obtain ⟨-, rfl | rfl⟩ := hload
        · exact absurd rfl hopens.1
        · exact wp_attempt (Prog.wp_of_error hstep trivial)
      · rw [Opens, hstep] at hopens
        rw [Prog.wp, hstep] at hload
        obtain ⟨rfl, rfl⟩ := hload
        refine wp_attempt (Prog.wp_of_ok hstep ?_)
        have hnext := ih (folded ++ (foldManifest v).1) _ (books_next.trans hb)
          (fun path' hpath' => hpaths path' (List.mem_cons_of_mem _ hpath')) hopens.2
        dsimp only
        rw [show foldManifest v = ((foldManifest v).1, .done) from Prod.ext rfl hwalk]
        refine Prog.wp_mono hnext (fun files t hfiles file => ?_) fun _ _ h => h
        rw [hfiles, List.mem_append, List.exists_mem_cons_iff, hvouched, or_assoc]

/-! ## The copies are read -/

/-- The entries so far list these copies. -/
def Found.Lists (found : Found) (files : List Str) : Prop :=
  foldEntries (found.entries.map .obj) = (files, .done)

/-- What a round finds in a copy: an entry, or a problem, which a copy that is valid has only when
it could not be read. -/
inductive Folds (env : Surroundings) (copy : Str) (raw : Bytes) (found : Found) : Found → Prop
  | entry (m : Items) (digest : Bytes) (modified : Str) (foreign : JsonValue) :
      Folds env copy raw found
        { found with entries := found.entries ++ [entryItems m copy digest modified foreign] }
  | problem (n : Nat) (h : ∀ m, parseForeignManifest env.loads raw = .ok m → env.file n = .raises) :
      Folds env copy raw found { found with problems := found.problems ++ [⟨copy, n⟩] }

variable {d : Dir}

theorem still_copies (env : Env) (d : Dir) : Still env fun w => w.files .witnessed = d where
  next w hw := by
    have hplace : Place.witnessed ≠ .inbox := nofun
    simp only [World.next, World.deliver]
    rw [Function.update_of_ne hplace, hw]

theorem wp_foldCopy {copy : Str} {raw : Bytes} {found : Found} {w : World}
    (hw : w.files .witnessed = d) (hraw : d.get copy = some raw) :
    Prog.wp (foldCopy env copy found) (fun found' t => t.files .witnessed = d ∧
        Folds env copy raw found found') (fun _ _ => True) w := by
  have hget : w.get .witnessed copy = some raw := by rw [World.get, hw, hraw]
  have hread := wp_readBytes env (p := .witnessed) nofun hget
  have hstill := still_copies env.toEnv d
  rw [foldCopy, Prog.wp_bind, Prog.wp_gets, Prog.wp_bind]
  refine wp_attempt ?_
  rw [Prog.wp_bind]
  refine Prog.wp_mono hread ?_ ?_
  · rintro data _ ⟨hdata, rfl⟩
    subst hdata
    rw [Prog.wp_bind]
    refine Prog.wp_ofExcept (fun m hm => ?_) fun e he => ?_
    · dsimp only
      rw [Prog.wp_pure, Prog.wp_bind]
      refine Prog.wp_mono (hstill.ask _ _ (hstill.next w hw))
        (fun modified t ht => ?_) fun _ _ _ => trivial
      rw [Prog.wp_bind]
      refine Prog.wp_mono (hstill.foreignState _ _ t ht)
        (fun foreign u hu => ?_) fun _ _ _ => trivial
      exact ⟨hu, .entry m _ modified foreign⟩
    · have hinvalid : ∀ m, parseForeignManifest env.loads data ≠ .ok m := by
        intro m hm
        rw [hm] at he
        exact nomatch he
      split
      · exact ⟨hstill.next w hw, .problem w.calls fun m hm => absurd hm (hinvalid m)⟩
      · trivial
  · rintro e _ ⟨rfl, ⟨hraises, rfl⟩ | rfl⟩
    · exact ⟨hstill.next w hw, .problem w.calls fun _ _ => hraises⟩
    · trivial

/-- What has been found after some copies: they are listed in their order, and those that no
manifest lists are in it or have a problem. -/
structure Gathered (env : Surroundings) (d : Dir) (folded copies : List Str)
    (found : Found) (files : List Str) (found' : Found) (more : List Str) : Prop where
  lists : found'.Lists (files ++ more)
  sublist : more.Sublist copies
  fresh : ∀ file ∈ more, file ∉ folded
  problems : ∀ problem ∈ found.problems, problem ∈ found'.problems
  all : ∀ copy ∈ copies, copy ∉ folded → ∀ raw m, d.get copy = some raw →
    parseForeignManifest env.loads raw = .ok m →
    copy ∈ more ∨ ∃ n, ⟨copy, n⟩ ∈ found'.problems ∧ env.file n = .raises

theorem wp_foldCopies (folded copies : List Str) :
    ∀ found files w, w.files .witnessed = d → found.Lists files →
    (∀ copy ∈ copies, ∃ raw, d.get copy = some raw) → Prog.wp (foldCopies env folded found copies)
      (fun found' _ => ∃ more, Gathered env d folded copies found files found' more)
        (fun _ _ => True) w := by
  induction copies with
  | nil =>
      intro found files w _ hlists _
      exact ⟨[], by rwa [List.append_nil], .slnil, nofun, fun _ h => h, nofun⟩
  | cons copy copies ih =>
      intro found files w hw hlists hcopies
      have hrest : ∀ copy ∈ copies, ∃ raw, d.get copy = some raw := fun copy' hcopy' =>
        hcopies copy' (List.mem_cons_of_mem _ hcopy')
      rw [foldCopies, Prog.wp_ite]
      refine ⟨fun hfolded => ?_, fun hfresh => ?_⟩
      · refine Prog.wp_mono (ih found files w hw hlists hrest) ?_ fun _ _ h => h
        rintro found' t ⟨more, hmore⟩
        refine ⟨more, hmore.lists, hmore.sublist.cons _, hmore.fresh, hmore.problems,
          fun copy' hcopy' hnot => ?_⟩
        obtain rfl | hcopy' := List.mem_cons.mp hcopy'
        · exact absurd hfolded hnot
        · exact hmore.all copy' hcopy' hnot
      · obtain ⟨raw, hraw⟩ := hcopies copy (List.mem_cons_self ..)
        rw [Prog.wp_bind]
        refine Prog.wp_mono (wp_foldCopy hw hraw) ?_ fun _ _ h => h
        rintro _ t ⟨ht, ⟨m, digest, modified, foreign⟩ | ⟨n, hn⟩⟩
        · have hlists' : Found.Lists
              { found with entries := found.entries ++ [entryItems m copy digest modified foreign] }
              (files ++ [copy]) := by
            rw [Found.Lists, List.map_append, foldEntries_append hlists]
            rfl
          refine Prog.wp_mono (ih _ _ t ht hlists' hrest) ?_ fun _ _ h => h
          rintro found' u ⟨more, hmore⟩
          refine ⟨copy :: more, ?_, hmore.sublist.cons_cons _, ?_, hmore.problems, ?_⟩
          · rw [List.append_cons]
            exact hmore.lists
          · exact List.forall_mem_cons.mpr ⟨hfresh, hmore.fresh⟩
          · intro copy' hcopy' hnot raw' m' hraw' hm'
            obtain rfl | hcopy' := List.mem_cons.mp hcopy'
            · exact .inl (List.mem_cons_self ..)
            · exact (hmore.all copy' hcopy' hnot raw' m' hraw' hm').imp_left
                (List.mem_cons_of_mem _)
        · refine Prog.wp_mono (ih _ _ t ht hlists hrest) ?_ fun _ _ h => h
          rintro found' u ⟨more, hmore⟩
          have hproblems := fun problem => hmore.problems problem ∘ List.mem_append.mpr
          refine ⟨more, hmore.lists, hmore.sublist.cons _, hmore.fresh,
            fun problem hp => hproblems problem (.inl hp), ?_⟩
          intro copy' hcopy' hnot raw' m' hraw' hm'
          obtain rfl | hcopy' := List.mem_cons.mp hcopy'
          · obtain rfl : raw = raw' := Option.some.inj (hraw.symm.trans hraw')
            exact .inr ⟨n, hproblems _ (.inr (List.mem_singleton_self _)), hn m' hm'⟩
          · exact hmore.all copy' hcopy' hnot raw' m' hraw' hm'

/-- The entries of a run that can read every manifest. -/
theorem wp_witnessedEntries (hwalks : ∀ name raw, b name = some raw → Walks env.loads raw)
    (w : World) (hb : w.books = b) (hw : w.files .witnessed = d) (hopens : ∀ paths u,
      listFiles env.toEnv .manifests Str.json w = (.ok paths, u) → Opens env paths u) :
    Prog.wp (witnessedEntries env) (fun found _ => ∃ folded copies more,
        Gathered env d folded copies ⟨[], []⟩ [] found more ∧ copies.Nodup ∧
        (∀ file, file ∈ folded ↔ ∃ name, file ∈ vouchedIn env.loads b name) ∧
        ∀ copy, copy ∈ copies ↔ isBook copy = true ∧ ∃ raw, d.get copy = some raw)
      (fun _ _ => True) w := by
  have hstill : Still env.toEnv fun w => w.books = b ∧ w.files .witnessed = d :=
    (bookless_books env.toEnv b).toStill.and (still_copies env.toEnv d)
  rw [witnessedEntries, Prog.wp_bind, foldedFiles, Prog.wp_bind]
  have hlist := hstill.wp_listFiles .manifests Str.json w ⟨hb, hw⟩
  rcases hstep : listFiles env.toEnv .manifests Str.json w with ⟨e | paths, t⟩
  · exact Prog.wp_of_error hstep trivial
  refine Prog.wp_of_ok hstep ?_
  rw [Prog.wp, hstep] at hlist
  obtain ⟨⟨htb, htd⟩, -, hpaths⟩ := hlist
  have hthere : ∀ path ∈ paths, ∃ raw, b path = some raw := by
    intro path hpath
    obtain ⟨hbook, raw, hraw⟩ := (hpaths path).mp hpath
    exact ⟨raw, by rw [← htb, World.books, isBook, hbook, if_pos rfl, hraw]⟩
  refine Prog.wp_mono ((hstill.foldFiles paths []).wp_and ⟨htb, htd⟩
    (wp_foldFiles hwalks paths [] t htb hthere (hopens paths t hstep))) ?_ fun _ _ _ => trivial
  rintro folded u ⟨⟨hub, hud⟩, hfolded⟩
  rw [Prog.wp_bind]
  refine Prog.wp_mono (hstill.wp_listFiles .witnessed Str.json u ⟨hub, hud⟩) ?_ fun _ _ _ => trivial
  rintro copies v ⟨⟨-, hvd⟩, hnodup, hcopies⟩
  have hcopies : ∀ copy, copy ∈ copies ↔ isBook copy = true ∧ ∃ raw, d.get copy = some raw := by
    intro copy
    rw [hcopies, World.get, hvd, isBook]
  refine Prog.wp_mono (wp_foldCopies folded copies ⟨[], []⟩ [] v hvd rfl fun copy hcopy =>
      ((hcopies copy).mp hcopy).2) ?_ fun _ _ h => h
  rintro found - ⟨more, hmore⟩
  refine ⟨folded, copies, more, hmore, hnodup, fun file => ?_, hcopies⟩
  rw [hfolded]
  constructor
  · rintro (h | ⟨path, -, h⟩)
    · cases h
    · exact ⟨path, h⟩
  · rintro ⟨name, h⟩
    refine .inr ⟨name, (hpaths name).mpr ?_, h⟩
    cases hname : b name with
    | none =>
        rw [vouchedIn, hname] at h
        cases h
    | some raw =>
        rw [← htb, World.books] at hname
        split_ifs at hname with hbook
        exact ⟨hbook, raw, hname⟩

/-- What a manifest lists, that was built over the manifests `b` and the copies `d`: the copies that
no manifest lists, but for those that could not be read. -/
structure Composed (env : Surroundings) (b : Str → Option Bytes) (d : Dir) (built : Built)
    (files : List Str) : Prop where
  lists : foldManifest (.obj built.items) = (files, .done)
  nodup : files.Nodup
  fresh : ∀ file ∈ files, ∀ name, file ∉ vouchedIn env.loads b name
  all : ∀ copy raw m, isBook copy = true → d.get copy = some raw →
    parseForeignManifest env.loads raw = .ok m → (∀ name, copy ∉ vouchedIn env.loads b name) →
    copy ∈ files ∨ ∃ n, ⟨copy, n⟩ ∈ built.problems ∧ env.file n = .raises

theorem wp_buildManifest (period : Str) (entries : List Items) (w : World) :
    Prog.wp (buildManifest env period entries) (fun items _ =>
        foldManifest (.obj items) = foldEntries (entries.map .obj)) (fun _ _ => True) w := by
  have htrue : Still env.toEnv fun _ => True := ⟨fun _ h => h⟩
  rw [buildManifest, Prog.wp_bind]
  refine Prog.wp_mono (htrue.latestManifest w trivial) (fun latest t _ => ?_) fun _ _ _ => trivial
  rw [Prog.wp_bind]
  refine Prog.wp_mono (htrue.ask _ t trivial) (fun fresh u _ => ?_) fun _ _ _ => trivial
  rw [Prog.wp_bind]
  refine Prog.wp_mono (htrue.ask _ u trivial) (fun seen v _ => ?_) fun _ _ _ => trivial
  cases latest <;> exact foldManifest_manifestItems ..

theorem wp_compose (cfg : Settings) (hwalks : ∀ name raw, b name = some raw → Walks env.loads raw)
    (w : World) (hb : w.books = b) (hw : w.files .witnessed = d) (hopens : ∀ paths u,
      listFiles env.toEnv .manifests Str.json w = (.ok paths, u) → Opens env paths u) :
    Prog.wp (compose env cfg) (fun built _ => ∃ files, Composed env b d built files)
      (fun _ _ => True) w := by
  rw [compose, Prog.wp_bind]
  refine Prog.wp_mono (wp_witnessedEntries hwalks w hb hw hopens) ?_ fun _ _ h => h
  rintro found t ⟨folded, copies, files, hfound, hnodup, hfolded, hcopies⟩
  rw [Prog.wp_bind]
  refine Prog.wp_mono (wp_buildManifest cfg.period found.entries t)
    (fun items u hitems => ?_) fun _ _ h => h
  refine ⟨files, hitems.trans hfound.lists, hfound.sublist.nodup hnodup,
    fun file hfile name hin => ?_, ?_⟩
  · exact hfound.fresh file hfile ((hfolded file).mpr ⟨name, hin⟩)
  · intro copy raw m hbook hraw hm hnot
    refine hfound.all copy ((hcopies copy).mpr ⟨hbook, raw, hraw⟩) (fun hin => ?_) raw m hraw hm
    obtain ⟨name, hname⟩ := (hfolded copy).mp hin
    exact hnot name hname

end Reads

/-! ## What a run does to the manifests -/

section Chain

variable {env : Surroundings}

/-- The manifests with one more. -/
def withBook (b : Str → Option Bytes) (name : Str) (data : Bytes) : Str → Option Bytes :=
  fun name' =>
  if isBook name ∧ name' = name then some data else b name'

theorem books_put_manifest (w : World) (name : Str) (data : Bytes) :
    (w.put .manifests name data).books = withBook w.books name data := by
  funext name'
  unfold World.books withBook
  rw [get_put]
  by_cases h : name' = name
  · subst h
    by_cases hbook : isBook name' = true <;> simp [hbook]
  · simp [h]

/-- A run leaves the manifests as they are, or puts the one that it composed under a name that was
free. -/
theorem heartbeat_books (env : Surroundings) (cfg : Settings) (w : World) :
    (heartbeat env cfg w).2.books = w.books ∨
      ∃ n t built u, arrive env cfg w = (.ok (.build n), t) ∧ compose env cfg t = (.ok built, u) ∧
        t.books = w.books ∧ w.books cfg.manifest = none ∧ (heartbeat env cfg w).2.books =
          withBook w.books cfg.manifest (env.dumps (.obj built.items)) := by
  have hbooks := bookless_books env.toEnv
  have harrive := wp_arrive (hbooks w.books) cfg w rfl
  rcases hstep : arrive env cfg w with ⟨e | stage, t⟩
  · rw [Prog.wp, hstep] at harrive
    rw [heartbeat, Prog.bind_of_error hstep]
    exact .inl harrive
  rw [Prog.wp, hstep] at harrive
  obtain ⟨ht, hfree⟩ := harrive
  rw [heartbeat, Prog.bind_of_ok hstep]
  cases stage with
  | ends code => exact .inl ht
  | noop n => exact .inl ((hbooks _).passesOf n |>.apply ht)
  | build n =>
      have hfree : w.books cfg.manifest = none := ht ▸ hfree n rfl
      have hcompose := (hbooks w.books).toStill.compose cfg t ht
      rcases hbuilt : compose env cfg t with ⟨e | built, u⟩
      · rw [Prog.wp, hbuilt] at hcompose
        rw [proceed, Prog.bind_of_error hbuilt]
        exact .inl hcompose
      · rw [Prog.wp, hbuilt] at hcompose
        rw [proceed, Prog.bind_of_ok hbuilt]
        have hafter := hbooks (withBook w.books cfg.manifest (env.dumps (.obj built.items)))
        have hwrite : Prog.wp
            (writeAtomic env.toEnv .manifests cfg.manifest (env.dumps (.obj built.items))) _ _ u :=
          (hbooks w.books).wp_writeAtomic hafter (fun _ h => .inr h) _
            (fun v hv => by rw [books_put_manifest, hv]) u hcompose
        refine (Prog.of_wp (P := fun v : World => v.books = w.books ∨
              v.books = withBook w.books cfg.manifest _) ?_).imp_right
          fun hv => ⟨n, t, built, u, rfl, hbuilt, ht, hfree, hv⟩
        rw [Prog.wp_bind]
        refine wp_attempt (Prog.wp_mono hwrite (fun _ v hv => ?_) fun e v hv => ?_)
        · exact Prog.wp_mono (hafter.passesOf _ v hv) (fun _ _ h => .inr h) fun _ _ h => .inr h
        · split
          · exact hv
          · exact hv

theorem vouchedIn_withBook (loads : Loads) (b : Str → Option Bytes) (name : Str) (data : Bytes)
    (name' : Str) : vouchedIn loads (withBook b name data) name' =
      if isBook name ∧ name' = name then listed loads data else vouchedIn loads b name' := by
  unfold vouchedIn withBook
  split_ifs <;> rfl

/-- A manifest that lists what was listed nowhere. -/
theorem VouchedOnce.withBook {loads : Loads} {b : Str → Option Bytes} (h : VouchedOnce loads b)
    {name : Str} {data : Bytes} {files : List Str} {manifest : JsonValue}
    (hloads : loads data = .ok manifest) (hlists : foldManifest manifest = (files, .done))
    (hnodup : files.Nodup) (hfresh : ∀ file ∈ files, ∀ name, file ∉ vouchedIn loads b name) :
    VouchedOnce loads (withBook b name data) := by
  have hlisted : listed loads data = files := by
    rw [listed, hloads]
    exact congrArg Prod.fst hlists
  refine ⟨fun name' raw hraw => ?_, fun name' => ?_, fun name₁ name₂ hne => ?_⟩
  · unfold Selfstamp.withBook at hraw
    split_ifs at hraw
    · exact Option.some.inj hraw ▸ ⟨manifest, hloads, congrArg Prod.snd hlists⟩
    · exact h.walks name' raw hraw
  · rw [vouchedIn_withBook]
    split_ifs
    · rwa [hlisted]
    · exact h.once name'
  · rw [vouchedIn_withBook, vouchedIn_withBook, hlisted]
    split_ifs with h₁ h₂ h₂
    · exact absurd (h₁.2.trans h₂.2.symm) hne
    · exact fun file hfile => hfresh file hfile name₂
    · exact fun file hfile hin => hfresh file hin name₁ hfile
    · exact h.apart name₁ name₂ hne

/-- What a run that goes on to its manifest composes. -/
theorem Undisturbed.composed {cfg : Settings} {w : World} (h : Undisturbed env cfg w)
    (hw : VouchedOnce env.loads w.books) {n : Nat} {t : World} {built : Built} {u : World}
    (ht : arrive env cfg w = (.ok (.build n), t)) (hbuilt : compose env cfg t = (.ok built, u)) :
    ∃ files, Composed env w.books (t.files .witnessed) built files := by
  have harrive := wp_arrive (bookless_books env.toEnv w.books) cfg w rfl
  rw [Prog.wp, ht] at harrive
  have hcompose := wp_compose cfg hw.walks t harrive.1 rfl fun paths v => h.opens n t paths v ht
  rw [Prog.wp, hbuilt] at hcompose
  exact hcompose

/-- Wherever a run stops, its manifest vouches for no copy again. -/
theorem Undisturbed.vouchedOnce {cfg : Settings} {w : World} (h : Undisturbed env cfg w)
    (hw : VouchedOnce env.loads w.books) : VouchedOnce env.loads (heartbeat env cfg w).2.books := by
  obtain hbooks | ⟨n, t, built, u, ht, hbuilt, -, -, hbooks⟩ := heartbeat_books env cfg w
  · rwa [hbooks]
  · obtain ⟨files, hfiles⟩ := h.composed hw ht hbuilt
    rw [hbooks]
    exact hw.withBook (h.decodes n t built u ht hbuilt) hfiles.lists hfiles.nodup hfiles.fresh

theorem vouchedOnce_of_reachable {w : World} (h : (chain env).Reachable w) :
    VouchedOnce env.loads w.books := by
  refine Transition.System.Inductive.reachable (I := fun w => VouchedOnce env.loads w.books)
    ⟨fun w hw => ?_, ?_⟩ h
  · rw [show w.books = fun _ => none from hw]
    exact ⟨nofun, fun _ => List.nodup_nil, fun _ _ _ _ h => nomatch h⟩
  · intro w w' _ hw hstep
    cases hstep with
    | run cfg hrun => exact hrun.vouchedOnce hw
    | upgrade =>
        have hkept : (upgradeOnly env w).2.books = w.books :=
          (bookless_books env.toEnv _).upgradeOnly.apply rfl
        rwa [hkept]
    | elsewhere hkept => rwa [hkept]

/-- Over any runs from a chain's beginning, with copies that cannot be read or parsed in some of
them and stops anywhere, as long as the runs can read the manifests: no copy is in two entries of
the manifests, and a manifest that a run puts in place lists every valid copy that was not listed
before, but for one that could not be read. -/
theorem every_copy_vouched_for_once (env : Surroundings) {w : World} (h : (chain env).Reachable w) :
    VouchedOnce env.loads w.books ∧
    ∀ cfg n t built u manifest, Undisturbed env cfg w →
      arrive env cfg w = (.ok (.build n), t) → compose env cfg t = (.ok built, u) →
      (heartbeat env cfg w).2.books cfg.manifest = some manifest →
      ∀ copy raw m, isBook copy = true → t.get .witnessed copy = some raw →
        parseForeignManifest env.loads raw = .ok m →
        (∀ name, copy ∉ vouchedIn env.loads w.books name) →
          copy ∈ listed env.loads manifest ∨
          ∃ call, ⟨copy, call⟩ ∈ built.problems ∧ env.file call = .raises := by
  refine ⟨vouchedOnce_of_reachable h, ?_⟩
  intro cfg n t built u manifest hrun ht hbuilt hmanifest copy raw m hbook hraw hm hnot
  obtain ⟨files, hfiles⟩ := hrun.composed (vouchedOnce_of_reachable h) ht hbuilt
  have harrive := wp_arrive (bookless_books env.toEnv w.books) cfg w rfl
  rw [Prog.wp, ht] at harrive
  have hfree : w.books cfg.manifest = none := harrive.1 ▸ harrive.2 n rfl
  obtain hbooks | ⟨n', t', built', u', ht', hbuilt', -, -, hbooks⟩ := heartbeat_books env cfg w
  · rw [hbooks, hfree] at hmanifest
    cases hmanifest
  · obtain ⟨-, rfl⟩ := Prod.mk.inj (ht.symm.trans ht')
    obtain ⟨hsame, -⟩ := Prod.mk.inj (hbuilt.symm.trans hbuilt')
    obtain rfl := Except.ok.inj hsame
    rw [hbooks, Selfstamp.withBook] at hmanifest
    have hdata : env.dumps (.obj built.items) = manifest := by
      split_ifs at hmanifest with hname
      · exact Option.some.inj hmanifest
      · cases hfree.symm.trans hmanifest
    have hlisted : listed env.loads manifest = files := by
      rw [← hdata, listed, hrun.decodes n t built u ht hbuilt]
      exact congrArg Prod.fst hfiles.lists
    rw [hlisted]
    exact hfiles.all copy raw m hbook hraw hm hnot

end Chain

namespace FirstCopy

def copy : Str := Str.ofString "legacy-2026-01-01-01e457f4b865.json"

def copyBytes : Bytes := Mispaired.bytes
  "\x7b\"schema\":\"selfstamp/1\",\"seq\":1,\"period\":\"2026-01-01\",\"host\":\"a\"\x7d"

def copyItems : Items :=
  [(keySchema, .str schema1), (keySeq, .int 1), (keyPeriod, .str (Str.ofString "2026-01-01")),
    (keyHost, .str (Str.ofString "a"))]

def cfg : Settings := ⟨Str.ofString "2026-01-02", Str.ofString "2026-01-03", false⟩

def chainLabel : Str := Str.ofString "0f0f0f0f0f0f0f0f0f0f0f0f0f0f0f0f"

def observed : Observed where
  auditLogs := .null
  books := .obj []
  config := .obj [(Str.ofString "sha256",
      .str (Str.ofString "0000000000000000000000000000000000000000000000000000000000000000"))]
  createdAt := .str (Str.ofString "2026-01-03T00:05:00Z")
  float := .null
  forkHead := .null
  journal := .null

/-- The manifest of the day, with the one copy. -/
def manifest : Items :=
  manifestItems observed chainLabel cfg.period .null (.int 1)
    [entryItems copyItems copy (Sha256.digest copyBytes)
      (Str.ofString "2026-01-02T12:00:00Z") .null]

def manifestBytes : Bytes :=
  Mispaired.bytes "\x7b\n  \"audit_logs\": null,\n  \"books\": \x7b\x7d,\n" ++
  Mispaired.bytes "  \"chain\": \"0f0f0f0f0f0f0f0f0f0f0f0f0f0f0f0f\",\n  \"config\": \x7b\n" ++
  Mispaired.bytes "    \"sha256\": " ++
  Mispaired.bytes "\"0000000000000000000000000000000000000000000000000000000000000000\"\n" ++
  Mispaired.bytes "  \x7d,\n" ++
  Mispaired.bytes
    "  \"created_at\": \"2026-01-03T00:05:00Z\",\n  \"float\": null,\n  \"fork_head\": null,\n" ++
  Mispaired.bytes "  \"journal\": null,\n  \"period\": \"2026-01-02\",\n  \"prev\": null,\n" ++
  Mispaired.bytes "  \"schema\": \"selfstamp/3\",\n" ++
  Mispaired.bytes "  \"seq\": 1,\n  \"witnessed\": [\n    \x7b\n      \"chain\": null,\n" ++
  Mispaired.bytes
    "      \"file\": \"legacy-2026-01-01-01e457f4b865.json\",\n      \"foreign_proof\": null,\n" ++
  Mispaired.bytes "      \"period\": \"2026-01-01\",\n      \"seq\": 1,\n" ++
  Mispaired.bytes
    "      \"sha256\": \"01e457f4b865d00a30923732571abdfc9ad47cd8a24c28856610d41552b456f6\",\n" ++
  Mispaired.bytes "      \"witnessed_at\": \"2026-01-02T12:00:00Z\"\n    \x7d\n  ]\n\x7d\n"

def loads : Loads := fun raw =>
  if raw = copyBytes then .ok (.obj copyItems) else if raw = manifestBytes then .ok (.obj manifest)
  else .error (.valueError "Expecting value: line 1 column 1 (char 0)")

/-- The process ends once the manifest is in place. -/
def env : Surroundings where
  file n := if n < 19 then .done else .stops
  landed _ := 0
  token _ := []
  submit _ _ := .error .osError
  fetch _ _ := .error .osError
  deliveries _ := []
  observe _ := .ok observed
  modified _ _ := .ok (Str.ofString "2026-01-02T12:00:00Z")
  freshLabel _ := chainLabel
  loads := loads
  dumps _ := manifestBytes

/-- One copy, and no manifest. -/
def start : World :=
  ⟨fun p => if p = .witnessed then Directory.empty.put copy copyBytes else .empty, 0, []⟩

/-- The world before the manifest. -/
def arrived : World := (arrive env cfg start).2

theorem arrive_eq : arrive env cfg start = (.ok (.build 0), arrived) := Prod.ext rfl rfl

theorem compose_eq : compose env cfg arrived = (.ok ⟨manifest, []⟩, (compose env cfg arrived).2) :=
  Prod.ext rfl rfl

theorem loads_manifest : loads manifestBytes = .ok (.obj manifest) := by
  rw [loads, if_neg (by decide +kernel), if_pos rfl]

theorem listed_manifest : listed loads manifestBytes = [copy] := by
  rw [listed, loads_manifest]
  rfl

theorem undisturbed : Undisturbed env cfg start := by
  refine ⟨fun n t paths u ht hlist => ?_, fun n t built u ht hbuilt => ?_⟩
  · obtain ⟨-, rfl⟩ := Prod.mk.inj (arrive_eq.symm.trans ht)
    have hnone : (listFiles env.toEnv .manifests Str.json arrived).1 = .ok [] := rfl
    obtain rfl := Except.ok.inj ((congrArg Prod.fst hlist).symm.trans hnone)
    trivial
  · obtain ⟨-, rfl⟩ := Prod.mk.inj (arrive_eq.symm.trans ht)
    obtain rfl := Except.ok.inj (Prod.mk.inj (compose_eq.symm.trans hbuilt)).1
    dsimp only [env]
    exact loads_manifest

theorem start_books : start.books = fun _ => none := funext fun _ => ite_self _

/-- A copy that was there at the first manifest is in it. -/
theorem listed_in_first_manifest :
    VouchedOnce env.loads (heartbeat env cfg start).2.books ∧
    vouchedIn env.loads (heartbeat env cfg start).2.books cfg.manifest = [copy] ∧
      copy ∈ listed env.loads manifestBytes := by
  have hinit : (chain env).Reachable start := .init start_books
  have hbook : (heartbeat env cfg start).2.books cfg.manifest = some manifestBytes := by
    decide +kernel
  have hunlisted : ∀ name, copy ∉ vouchedIn env.loads start.books name := by
    rw [start_books]
    exact fun _ => List.not_mem_nil
  refine ⟨(every_copy_vouched_for_once env (.step hinit (.run cfg undisturbed))).1, ?_, ?_⟩
  · rw [vouchedIn, hbook, Option.elim_some]
    exact listed_manifest
  · obtain hlisted | ⟨call, hcall,
      -⟩ := (every_copy_vouched_for_once env hinit).2 cfg 0 arrived ⟨manifest, []⟩ _
      manifestBytes undisturbed arrive_eq compose_eq hbook copy copyBytes copyItems
        rfl rfl rfl hunlisted
    · exact hlisted
    · exact absurd hcall List.not_mem_nil

end FirstCopy

end OtsServer.Selfstamp
