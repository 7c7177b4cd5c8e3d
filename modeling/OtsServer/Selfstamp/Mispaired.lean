import OtsServer.Selfstamp.Handled

/-!
# Proofs taken by the wrong manifest

A claimed manifest takes a proof for its companion by the name it was delivered under when none
is claimed beside it. A pass keeps every proof with the copy it is of exactly when no manifest
takes one that is not of it, and none is nested too deeply to be decoded: the claim that an earlier
run left of one manifest takes the proof delivered later, under the same name, with another.
-/

namespace OtsServer.Selfstamp

section Run

variable (env : Env) (loads : Loads)

/-- What `witness_inbox` does before it consumes anything: the number of claims that failed, and
the claimed manifests. -/
def openInbox : M (Nat × List Claim) := do
  mkdirDurable env
  let failures ← claim env
  let manifests ← claims env Str.json
  pure (failures, manifests)

variable {env loads} {w w₁ w' : World} {r : Except Fault Report} {report : Report}
  {failures : Nat} {manifests proofs : List Claim}

theorem attempt_of_ok {α : Type} {m : M α} {a : α} {t : World} (catches : Fault → Bool)
    (h : m w = (.ok a, t)) : attempt catches m w = (.ok (some a), t) := by
  have hbind : (m >>= fun a => pure (some a)) w = (.ok (some a), t) := Prog.bind_of_ok h
  rw [attempt, Prog.handle, hbind]

theorem attempt_of_error {α : Type} {m : M α} {e : Fault} {t : World} (catches : Fault → Bool)
    (h : m w = (.error e, t)) :
    attempt catches m w = (if catches e then .ok none else .error e, t) := by
  have hbind : (m >>= fun a => pure (some a)) w = (.error e, t) := Prog.bind_of_error h
  rw [attempt, Prog.handle, hbind]
  dsimp only
  cases catches e <;> rfl

theorem witnessInbox_of_open (h : openInbox env w = (.ok (failures, manifests), w₁)) :
    witnessInbox env loads w =
      (consumeInbox env loads manifests >>= fun report => pure (report.fail failures)) w₁ := by
  obtain ⟨_, u, hmkdir, h⟩ := Prog.exists_of_bind_ok h
  obtain ⟨n, v, hclaim, h⟩ := Prog.exists_of_bind_ok h
  obtain ⟨found, x, hclaims, h⟩ := Prog.exists_of_bind_ok h
  obtain ⟨heq, rfl⟩ := Prod.mk.inj h
  obtain ⟨rfl, rfl⟩ := Prod.mk.inj (Except.ok.inj heq)
  have hboth : (claim env >>= fun failures =>
        claims env Str.json >>= fun manifests => pure (failures, manifests)) u =
      (.ok (n, found), x) := (Prog.bind_of_ok hclaim).trans (Prog.bind_of_ok hclaims)
  exact (Prog.bind_of_ok (attempt_of_ok _ hmkdir)).trans (Prog.bind_of_ok (attempt_of_ok _ hboth))

/-- A pass that cannot open the inbox does nothing else. -/
theorem witnessInbox_of_shut {e : Fault} (h : openInbox env w = (.error e, w₁)) :
    witnessInbox env loads w = (if e.isOsError then .ok ⟨1, []⟩ else .error e, w₁) := by
  have hend : ∀ {α : Type} {m : M α} {f : Option α → M Report} {u v : World} {e : Fault},
      m u = (.error e, v) → f none = pure ⟨1, []⟩ →
      (attempt Fault.isOsError m >>= f) u = (if e.isOsError then .ok ⟨1, []⟩ else .error e, v) := by
    intro α m f u v e hm hf
    have hresult := attempt_of_error Fault.isOsError hm
    cases hos : e.isOsError <;> rw [hos] at hresult
    · exact Prog.bind_of_error hresult
    · exact (Prog.bind_of_ok hresult).trans (congrFun hf v)
  cases hmkdir : mkdirDurable env w with
  | mk result u =>
      cases result with
      | error e' =>
          obtain ⟨heq, rfl⟩ := Prod.mk.inj ((Prog.bind_of_error hmkdir).symm.trans h)
          obtain rfl := Except.error.inj heq
          exact hend hmkdir rfl
      | ok _ =>
          have hrest : (do
              let failures ← claim env
              let manifests ← claims env Str.json
              pure (failures, manifests) : M (Nat × List Claim)) u = (.error e, w₁) :=
            (Prog.bind_of_ok hmkdir).symm.trans h
          exact (Prog.bind_of_ok (attempt_of_ok _ hmkdir)).trans (hend hrest rfl)

/-- What is claimed once the inbox was opened. -/
theorem lists_of_open (h : openInbox env w = (.ok (failures, manifests), w₁)) :
    Lists w₁.desk Str.json manifests := by
  obtain ⟨_, u, -, h⟩ := Prog.exists_of_bind_ok h
  obtain ⟨n, v, -, h⟩ := Prog.exists_of_bind_ok h
  obtain ⟨found, x, hclaims, h⟩ := Prog.exists_of_bind_ok h
  obtain ⟨heq, rfl⟩ := Prod.mk.inj h
  obtain ⟨rfl, rfl⟩ := Prod.mk.inj (Except.ok.inj heq)
  have hlists := (desk_claims env (s := v.desk) (Q := fun found t => Lists t Str.json found)
      (E := fun _ _ => True) (fun _ hfound => hfound) fun _ _ => trivial).out v rfl
  rw [Prog.wp, hclaims] at hlists
  exact hlists

theorem passed_of_run (hdone : ∀ n, env.file n = .done)
    (hopen : openInbox env w = (.ok (failures, manifests), w₁))
    (hproofs : claimsOf jsonOts (w₁.files .inbox).names = some proofs)
    (hrun : witnessInbox env loads w = (.ok report, w')) (hfailures : report.failures = 0)
    {digest : Bytes} (hapart : Apart loads digest w₁.desk manifests) :
    ∃ held held' between companions rejected rejected', Passed loads digest manifests
        proofs w₁.desk report w'.desk held held' between companions rejected rejected' := by
  rw [witnessInbox_of_open hopen] at hrun
  obtain ⟨report', t, hconsume, hrun⟩ := Prog.exists_of_bind_ok hrun
  obtain ⟨heq, rfl⟩ := Prod.mk.inj hrun
  obtain rfl := Except.ok.inj heq
  have hgives := (gives_consumeInbox env loads hdone (lists_of_open hopen)
      (lists_of_claimsOf hproofs) hapart).out w₁ rfl
  rw [Prog.wp, hconsume] at hgives
  obtain ⟨held, held', between, companions, rejected, rejected', h⟩ :=
    hgives (Nat.add_eq_zero_iff.mp hfailures).1
  exact ⟨held, held', between, companions, rejected, rejected', h.lookup_iff,
    h.walked, h.listed, h.swept, h.rejections⟩

theorem taken_of_open {digest : Bytes} (hopen : openInbox env w = (.ok (failures, manifests), w₁))
    (hapart : Apart loads digest w₁.desk manifests) : Taken loads digest w₁.desk manifests := by
  have hlists := lists_of_open hopen
  refine ⟨fun c hc => hlists.isManifest hc, ?_, hapart⟩
  refine hlists.sorted.imp_of_mem fun hc hd hlt hpath => ?_
  exact (hlists.eq_of_path hc hd hpath ▸ hlt).false

/-- What a pass rejected. -/
def rejections : Except Fault Report → List Rejected
  | .ok report => report.rejected
  | .error _ => []

/-- Where a pass that opened the inbox leaves a proof, whatever failed, and what ends it early. -/
theorem ended_of_run (hopen : openInbox env w = (.ok (failures, manifests), w₁))
    (hrun : witnessInbox env loads w = (r, w'))
    {p : Claim} {data : Bytes} {proof : Proof} (hp : IsProof p) (hparse : parseOts data = .ok proof)
    (hapart : Apart loads proof.digest w₁.desk manifests) :
    (Guarded loads p data proof.digest manifests w₁.desk →
      Ended loads p data proof.digest manifests w₁.desk (rejections r) w'.desk) ∧
    ∀ e, r = .error e → Calm env w₁.desk → ∃ c ∈ manifests, TooDeep loads w₁.desk c := by
  have hended := (ended_consumeInbox env hp hparse rfl (taken_of_open hopen hapart)).out w₁ rfl
  rw [witnessInbox_of_open hopen] at hrun
  rw [Prog.wp] at hended
  cases hconsume : consumeInbox env loads manifests w₁ with
  | mk result t =>
      rw [hconsume] at hended
      cases result with
      | error e =>
          obtain ⟨rfl, rfl⟩ := Prod.mk.inj ((Prog.bind_of_error hconsume).symm.trans hrun)
          exact ⟨hended.1, fun _ _ => hended.2⟩
      | ok report =>
          obtain ⟨rfl, rfl⟩ := Prod.mk.inj ((Prog.bind_of_ok hconsume).symm.trans hrun)
          exact ⟨hended, fun e h => by cases h⟩

/-- In a pass without errors a claimed proof that is wanted is kept with the copy it is of, or
superseded by one as strong, and never rejected, exactly when every claimed manifest is decoded or
refused with a `ValueError` and none that the proof is not of takes it for its companion. The
copies' names are taken to tell apart what has the proof's digest. -/
theorem wanted_proof_reached (hdone : ∀ n, env.file n = .done)
    (hopen : openInbox env w = (.ok (failures, manifests), w₁))
    (hproofs : claimsOf jsonOts (w₁.files .inbox).names = some proofs)
    (hrun : witnessInbox env loads w = (r, w'))
    (hfailures : ∀ report, r = .ok report → report.failures = 0) {p : Claim}
    (hp : p ∈ proofs) {data : Bytes} (hdata : w₁.get .inbox p.path = some data) {proof : Proof}
    (hparse : parseOts data = .ok proof) (hapart : Apart loads proof.digest w₁.desk manifests)
    (hwanted : Wanted loads proof.digest w₁.desk manifests) :
    (∃ report, r = .ok report ∧ Reached proof.digest p data report w'.desk) ↔
      (∀ c ∈ manifests, ∀ raw, w₁.get .inbox c.path = some raw →
        loads raw ≠ .error .recursionError) ∧
      ∀ c raw, (c, p) ∈ pairs manifests proofs → w₁.get .inbox c.path = some raw →
        Fits loads raw data := by
  have hmanifests := lists_of_open hopen
  have hlists := lists_of_claimsOf hproofs
  have hclaim : w₁.desk.claim p.path = some data := (claimed_of_dot w₁ (hlists.dot hp)).trans hdata
  have hsame : ∀ c ∈ manifests, w₁.desk.claim c.path = w₁.get .inbox c.path := fun c hc =>
    claimed_of_dot w₁ (hmanifests.dot hc)
  have hdeep : (∃ c ∈ manifests, TooDeep loads w₁.desk c) →
      ¬∀ c ∈ manifests, ∀ raw, w₁.get .inbox c.path = some raw →
          loads raw ≠ .error .recursionError := by
    rintro ⟨c, hc, raw, hraw, hdeep⟩ hall
    exact hall c hc raw ((hsame c hc).symm.trans hraw) hdeep
  cases r with
  | error e =>
      have hisproof : IsProof p := hlists.isProofs.1 p hp
      have hcalm : Calm env w₁.desk := ⟨hdone, hlists.named⟩
      refine iff_of_false (fun ⟨_, h, _⟩ => nomatch h) fun h => ?_
      exact hdeep ((ended_of_run hopen hrun hisproof hparse hapart).2 e rfl hcalm) h.1
  | ok report =>
      obtain ⟨held, held', between, companions, rejected, rejected', h⟩ :=
        passed_of_run hdone hopen hproofs hrun (hfailures report rfl) hapart
      have hdecodes : ∀ c ∈ manifests, ∀ raw, w₁.get .inbox c.path = some raw →
          loads raw ≠ .error .recursionError :=
        fun c hc raw hraw hdeep => h.walked.decodes c hc ⟨raw, (hsame c hc).trans hraw, hdeep⟩
      have hreached := h.reached_iff loads hmanifests hlists hp hclaim hparse rfl hwanted
      have hfits : (∀ c raw, (c, p) ∈ pairs manifests proofs → w₁.desk.claim c.path = some raw →
            Fits loads raw data) ↔ ∀ c raw, (c, p) ∈ pairs manifests proofs →
          w₁.get .inbox c.path = some raw → Fits loads raw data := by
        refine forall_congr' fun c => forall_congr' fun raw => forall_congr' fun hpair => ?_
        rw [hsame c (pairs_mem hpair).1]
      rw [hfits] at hreached
      constructor
      · rintro ⟨report', heq, h'⟩
        obtain rfl := Except.ok.inj heq
        exact ⟨hdecodes, hreached.mp h'⟩
      · exact fun hall => ⟨report, rfl, hreached.mpr hall.2⟩

end Run

namespace Mispaired

/-! ### A manifest's claim left by an earlier run, and another manifest with its proof -/

open Upgraded (env submitted)

def bytes (text : String) : Bytes := text.toList.map fun c => UInt8.ofNat c.toNat

def older : Bytes :=
  bytes "\x7b\"schema\":\"selfstamp/1\",\"seq\":1,\"period\":\"2026-09-16\",\"host\":\"a\"\x7d"

def later : Bytes :=
  bytes "\x7b\"schema\":\"selfstamp/1\",\"seq\":1,\"period\":\"2026-09-16\",\"host\":\"b\"\x7d"

def items (host : String) : Items :=
  [(keySchema, .str schema1), (keySeq, .int 1), (keyPeriod, .str (Str.ofString "2026-09-16")),
    (keyHost, .str (Str.ofString host))]

def loads : Loads := fun raw =>
  if raw = older then .ok (.obj (items "a")) else if raw = later then .ok (.obj (items "b"))
  else .error (.valueError "Expecting value: line 1 column 1 (char 0)")

/-- A pending proof of the later manifest. -/
def data : Bytes := magic ++ [0x01, 0x08] ++ Sha256.digest later ++ submitted

def proof : Proof :=
  ⟨Sha256.digest later, Sha256.digest later, .pending ['h', 't', 't', 'p', ':', '/', '/', 'a'], 65⟩

def left : Claim := ⟨Str.ofString ".claim-aaaaaaaa-x.json", Str.ofString "x.json"⟩

def fresh : Claim := ⟨Str.ofString ".claim-bbbbbbbb-x.json", Str.ofString "x.json"⟩

def companion : Claim := ⟨Str.ofString ".claim-bbbbbbbb-x.json.ots", Str.ofString "x.json.ots"⟩

/-- The later manifest and its proof, claimed. -/
def delivered : Dir := (Directory.empty.put fresh.path later).put companion.path data

/-- An inbox with `files`, and nothing else. -/
def start (files : Dir) : World := ⟨fun p => if p = .inbox then files else .empty, 0, []⟩

/-- The inbox once it was opened. -/
def opened (files : Dir) : World := (openInbox env (start files)).2

def last (files : Dir) : World := (witnessInbox env loads (start files)).2

theorem run_eq {files : Dir} {report : Report}
    (h : (witnessInbox env loads (start files)).1 = .ok report) :
    witnessInbox env loads (start files) = (.ok report, last files) :=
  Prod.ext h rfl

theorem open_eq {files : Dir} {manifests : List Claim}
    (h : (openInbox env (start files)).1 = .ok (0, manifests)) :
    openInbox env (start files) = (.ok (0, manifests), opened files) :=
  Prod.ext h rfl

theorem loads_older : loads older = .ok (.obj (items "a")) := if_pos rfl

theorem loads_later : loads later = .ok (.obj (items "b")) := by
  rw [loads, if_neg (by decide +kernel), if_pos rfl]

theorem parse_older : parseForeignManifest loads older = .ok (items "a") := by
  rw [parseForeignManifest, loads_older]
  rfl

theorem parse_later : parseForeignManifest loads later = .ok (items "b") := by
  rw [parseForeignManifest, loads_later]
  rfl

theorem parse_cases {raw : Bytes} {m : Items} (h : parseForeignManifest loads raw = .ok m) :
    raw = older ∧ m = items "a" ∨ raw = later ∧ m = items "b" := by
  by_cases holder : raw = older
  · subst holder
    exact .inl ⟨rfl, (Except.ok.inj (parse_older.symm.trans h)).symm⟩
  · by_cases hlater : raw = later
    · subst hlater
      exact .inr ⟨rfl, (Except.ok.inj (parse_later.symm.trans h)).symm⟩
    · rw [parseForeignManifest, loads, if_neg holder, if_neg hlater] at h
      cases h

theorem copyName_ne : copyName (items "a") older ≠ copyName (items "b") later := by decide +kernel

/-- Nothing is held, and the two manifests' copies have two names. -/
theorem apart {w : World} (hnone : (w.files .witnessed).names = []) (digest : Bytes)
    (manifests : List Claim) : Apart loads digest w.desk manifests := by
  refine ⟨fun _ _ m raw raw' _ hfile => ?_, fun _ _ _ _ m raw m' raw' hvalid hvalid' hname => ?_⟩
  · have hget : w.get .witnessed (copyName m raw) = w.shelf.file .witnessed (copyName m raw) :=
      (shelf_file (p := .witnessed) nofun (isDot_copyName m raw)).symm
    have hmem := Directory.mem_names_iff.mpr ⟨raw', hget.trans hfile⟩
    rw [hnone] at hmem
    exact nomatch hmem
  · obtain ⟨rfl, rfl⟩ | ⟨rfl, rfl⟩ := parse_cases hvalid.2 <;> obtain ⟨rfl,
      rfl⟩ | ⟨rfl, rfl⟩ := parse_cases hvalid'.2
    · rfl
    · exact absurd hname copyName_ne
    · exact absurd hname.symm copyName_ne
    · rfl

theorem companion_reached : ∃ report, (.ok .none : Except Fault Report) = .ok report ∧
    Reached proof.digest companion data report (last delivered).desk := by
  have hopen : openInbox env (start delivered) = (.ok (0, [fresh]), opened delivered) :=
    open_eq (by decide +kernel)
  have hrun : witnessInbox env loads (start delivered) = (.ok .none, last delivered) :=
    run_eq (by decide +kernel)
  have hfresh : (opened delivered).get .inbox fresh.path = some later := by decide +kernel
  have hwanted : Wanted loads proof.digest (opened delivered).desk [fresh] :=
    .inr ⟨fresh, List.mem_singleton_self _, items "b", later,
      ⟨(claimed_of_dot _ rfl).trans hfresh, parse_later⟩, rfl⟩
  have hproofs : claimsOf jsonOts ((opened delivered).files .inbox).names = some [companion] := by
    decide +kernel
  have hlater : ∀ c ∈ [fresh], ∀ raw, (opened delivered).get .inbox c.path = some raw →
      raw = later := fun c hc raw hraw => by
    obtain rfl := List.mem_singleton.mp hc
    exact Option.some.inj (hraw.symm.trans hfresh)
  refine (wanted_proof_reached (fun _ => rfl) hopen hproofs hrun
      (fun _ h => Except.ok.inj h ▸ rfl) (List.mem_singleton_self _)
      (by decide +kernel) (by decide +kernel) (apart (by decide +kernel) _ _) hwanted).mpr
    ⟨fun c hc raw hraw hdeep => ?_, fun c raw hpair hraw => ?_⟩
  · obtain rfl := hlater c hc raw hraw
    exact nomatch loads_later.symm.trans hdeep
  · obtain rfl := hlater c (pairs_mem hpair).1 raw hraw
    exact ⟨⟨items "b", parse_later⟩, proof, by decide +kernel, rfl⟩

/-- The proof of the later manifest, after a pass that began with both claimed. -/
def crossed : Dir := delivered.put left.path older

/-- The claim that the earlier run left takes the proof of the later manifest, which is rejected. -/
theorem proof_taken_and_rejected :
    ∃ report, witnessInbox env loads (start crossed) = (.ok report, last crossed) ∧
      report.failures = 0 ∧
    openInbox env (start crossed) = (.ok (0, [left, fresh]), opened crossed) ∧
    claimsOf jsonOts ((opened crossed).files .inbox).names = some [companion] ∧
    (opened crossed).get .inbox companion.path = some data ∧ parseOts data = .ok proof ∧
    Wanted loads proof.digest (opened crossed).desk [left, fresh] ∧
      Apart loads proof.digest (opened crossed).desk [left, fresh] ∧
    ¬Reached proof.digest companion data report (last crossed).desk := by
  have hfresh : (opened crossed).get .inbox fresh.path = some later := by decide +kernel
  have hwanted : Wanted loads proof.digest (opened crossed).desk [left, fresh] :=
    .inr ⟨fresh, by decide, items "b", later,
      ⟨(claimed_of_dot _ rfl).trans hfresh, parse_later⟩, rfl⟩
  refine ⟨⟨0, [⟨companion.path, .foreignProof, companion.name, data,
    "foreign proof is not of this manifest"⟩]⟩, run_eq (by decide +kernel),
    rfl, open_eq (by decide +kernel), by decide +kernel, by decide +kernel, by decide +kernel,
    hwanted, apart (by decide +kernel) _ _, fun hreached => ?_⟩
  exact hreached.unrejected _ (List.mem_singleton_self _) rfl

end Mispaired

end OtsServer.Selfstamp
