import OtsServer.Selfstamp.Orphans

/-!
# Where a delivered proof ends

What a pass over the inbox does with a claimed proof, when no call of it fails. A manifest that
takes the proof keeps it with its copy, or has it rejected when it is of another file; one that no
manifest takes is kept with the copy it is of, when that is held or was claimed in the pass.
-/

namespace OtsServer.Selfstamp

open Prog (Sees)

/-! ## Copies that are held -/

section Copies

variable (env : Env) {digest : Bytes} {s : Desk} {held : Held}

theorem desk_next (w : World) : (w.next env).desk = w.desk :=
  Desk.ext (shelf_next env w) (claimed_next env w) (refused_next env w)

/-- A call that does not fail. -/
theorem gives_done (hdone : ∀ n, env.file n = .done) {E : Fault → Desk → Prop}
    {Q : Unit → Desk → Prop} (hok : Q () s) : Sees World.desk (fileCall env) Q E s := by
  refine ⟨?_⟩
  rintro w rfl
  have hanswer : fileCall env w = (.ok (), w.next env) := by rw [fileCall, ask, hdone]; rfl
  exact Prog.wp_of_ok hanswer ((desk_next env w).symm ▸ hok)

/-- A copy is read, unless a call fails. -/
theorem desk_readCopy {name : Str} {data : Bytes} (hdot : name.isDot = false)
    (hdata : s.shelf.file .witnessed name = some data)
    {Q : Option Bytes → Desk → Prop} {E : Fault → Desk → Prop} (hok : Q (some data) s)
    (hmissed : ¬(∀ n, env.file n = .done) → Q none s)
    (herr : ∀ e, ¬(∀ n, env.file n = .done) → E e s) :
    Sees World.desk (attempt Fault.isOsError (readBytes env .witnessed name)) Q E s := by
  have hget : ∀ w : World, w.get .witnessed name = w.desk.shelf.file .witnessed name := fun w =>
    (shelf_file (p := .witnessed) nofun hdot).symm
  by_cases hdone : ∀ n, env.file n = .done
  · refine desk_attempt (.bind (gives_done env hdone
          (.bind (.gets (g := fun t : Desk => t.shelf.file .witnessed name) hget ?_))))
    rw [hdata]
    exact .pure hok
  · refine desk_attempt (.bind (desk_fileCall env
          (.bind (.gets (g := fun t : Desk => t.shelf.file .witnessed name) hget ?_)) fun e => ?_))
    · rw [hdata]
      exact .pure hok
    · split_ifs
      · exact hmissed hdone
      · exact herr e hdone

theorem desk_listCopies {Q : List Str → Desk → Prop} {E : Fault → Desk → Prop}
    (hok : ∀ names : List Str, (∀ name ∈ names, name.isDot = false) → (∀ name, name ∈ names ↔
        Str.endsWith Str.json name = true ∧ (s.shelf.file .witnessed name).isSome) → Q names s)
    (herr : ∀ e, ¬(∀ n, env.file n = .done) → E e s) :
    Sees World.desk (listFiles env .witnessed Str.json) Q E s := by
  refine .bind ((desk_call env s).mono ?_ fun e t he => he.2 ▸ herr e he.1)
  rintro _ _ rfl
  refine ⟨?_⟩
  rintro w rfl
  refine hok _ (fun name hname => ?_) fun name => ?_
  · have hends := (List.mem_filter.mp hname).2
    rw [Bool.and_eq_true, Bool.not_eq_true'] at hends
    exact hends.2
  · rw [List.mem_filter, Directory.mem_names_iff, Bool.and_eq_true, Bool.not_eq_true',
      and_left_comm]
    refine and_congr_right fun _ => ?_
    cases hdot : name.isDot with
    | true =>
        refine iff_of_false (fun h => nomatch h.2) fun hsome => ?_
        have hfile : w.desk.shelf.file .witnessed name = none := if_pos (.inr hdot)
        rw [hfile] at hsome
        exact nomatch hsome
    | false =>
        have hfile : w.desk.shelf.file .witnessed name = w.get .witnessed name :=
          shelf_file nofun hdot
        rw [hfile, Option.isSome_iff_exists]
        exact and_iff_left rfl

/-- What is found of copies that are on file: all of them, when no call fails. -/
theorem desk_readCopies {names : List Str} (hnames : ∀ name ∈ names, Str.endsWith Str.json name =
      true ∧ name.isDot = false ∧ (s.shelf.file .witnessed name).isSome)
    (h : HeldOn digest s.shelf held) {Q : Held → Desk → Prop} {E : Fault → Desk → Prop}
    (hok : ∀ held', HeldOn digest s.shelf held' → ((held'.lookup digest).isSome →
        (held.lookup digest).isSome ∨ ∃ name ∈ names, s.shelf.Copy digest name) →
      ((∀ n, env.file n = .done) → ((held.lookup digest).isSome ∨ ∃ name ∈ names,
        s.shelf.Copy digest name) → (held'.lookup digest).isSome) → Q held' s)
    (herr : ∀ e, ¬(∀ n, env.file n = .done) → E e s) :
    Sees World.desk (readCopies env held names) Q E s := by
  induction names generalizing held with
  | nil =>
      exact .pure (hok held h .inl fun _ => fun hor => hor.resolve_right fun ⟨_, hmem, _⟩ =>
          nomatch hmem)
  | cons name names ih =>
      obtain ⟨hjson, hdot, hsome⟩ := hnames name (List.mem_cons_self ..)
      obtain ⟨data, hdata⟩ := Option.isSome_iff_exists.mp hsome
      have hrest := fun n hn => hnames n (List.mem_cons_of_mem name hn)
      have hmine : s.shelf.Copy digest name ↔ Sha256.digest data = digest := by
        refine ⟨fun ⟨_, raw, hraw, hdigest⟩ => ?_, fun hdigest => ⟨hjson, data, hdata, hdigest⟩⟩
        rwa [Option.some.inj (hdata.symm.trans hraw)]
      have hadded : (((Sha256.digest data, name) :: held).lookup digest).isSome ↔
          (held.lookup digest).isSome ∨ s.shelf.Copy digest name := by
        rw [hmine, List.lookup_cons]
        split
        next heq => exact iff_of_true rfl (.inr (eq_of_beq heq).symm)
        next hne => exact (or_iff_left fun heq => ne_of_beq_false hne heq.symm).symm
      simp only [List.exists_mem_cons_iff] at hok
      refine .bind (desk_readCopy env hdot hdata ?_ (fun hfailed => ?_) herr)
      · refine ih hrest (h.read hjson hdot hdata) fun held' hheld' hfound hall =>
          hok held' hheld' (fun hsome => ?_) fun hdone hor => ?_
        · exact or_assoc.mp ((hfound hsome).imp_left hadded.mp)
        · exact hall hdone ((or_assoc.mpr hor).imp_left hadded.mpr)
      · refine ih hrest h fun held' hheld' hfound _ =>
          hok held' hheld' (fun hsome => ?_) fun hdone => absurd hdone hfailed
        exact (hfound hsome).imp_right .inr

/-- A copy of the digest is on file. -/
def OnFile (digest : Bytes) (s : Desk) : Prop := ∃ copy, s.shelf.Copy digest copy

/-- What `_copies_by_digest` finds is on file, and it finds every copy when no call fails. -/
theorem desk_copiesByDigest (digest : Bytes) {Q : Held → Desk → Prop} {E : Fault → Desk → Prop}
    (hok : ∀ held, HeldOn digest s.shelf held → ((held.lookup digest).isSome → OnFile digest s) →
      ((∀ n, env.file n = .done) → OnFile digest s → (held.lookup digest).isSome) → Q held s)
    (herr : ∀ e, ¬(∀ n, env.file n = .done) → E e s) :
    Sees World.desk (copiesByDigest env) Q E s := by
  have hempty : HeldOn digest s.shelf [] := ⟨nofun, nofun, nofun, nofun, nofun⟩
  refine .bind (desk_listCopies env (fun names hdots hnames => ?_) herr)
  have hcopies : (∃ name ∈ names, s.shelf.Copy digest name) ↔ OnFile digest s := by
    refine exists_congr fun name => and_iff_right_of_imp fun hcopy => (hnames name).mpr ?_
    exact ⟨hcopy.1, hcopy.2.elim fun raw hraw => Option.isSome_iff_exists.mpr ⟨raw, hraw.1⟩⟩
  refine desk_readCopies env (fun name hname => ?_) hempty
    (fun held hheld hfound hall => hok held hheld (fun hsome => ?_) ?_) herr
  · obtain ⟨hjson, hsome⟩ := (hnames name).mp hname
    exact ⟨hjson, hdots name hname, hsome⟩
  · exact hcopies.mp ((hfound hsome).resolve_left (nomatch ·))
  · exact fun hdone hon => hall hdone (.inr (hcopies.mpr hon))

end Copies

/-! ## A pass -/

section Pass

variable (env : Env) (loads : Loads) {digest : Bytes} {s t : Desk} {manifests proofs : List Claim}

/-- The two loops of a pass, one after the other. -/
structure Passed (digest : Bytes) (manifests proofs : List Claim) (s : Desk)
    (report : Report) (t : Desk) (held held' : Held) (between : Desk) (companions : List Claim)
    (rejected rejected' : List Rejected) : Prop where
  lookup_iff : (held.lookup digest).isSome ↔ OnFile digest s
  walked : Walked loads digest manifests proofs s held held' rejected between
  listed : Lists between jsonOts companions
  swept : Swept digest held' companions between rejected' t
  rejections : report.rejected = rejected ++ rejected'

theorem Walked.noManifest {held held' : Held} {rejected : List Rejected}
    (h : Walked loads digest manifests proofs s held held' rejected t)
    (hmanifests : Lists s Str.json manifests) (hproofs : Lists s jsonOts proofs) :
    NoManifest t := by
  intro path hpath
  by_cases hlisted : ∃ c ∈ manifests, path = c.path
  · obtain ⟨c, hc, rfl⟩ := hlisted
    exact h.gone c hc
  · have hsame : t.claim path = s.claim path := by
      refine h.others path (fun c hc heq => hlisted ⟨c, hc, heq⟩) fun c q hcq => ?_
      exact claim_ne hpath ((hproofs.mem_iff q).mp (pairs_mem hcq).2).1
    rw [hsame]
    by_contra hthere
    have hsome := Option.isSome_iff_ne_none.mpr hthere
    obtain ⟨name, hname⟩ := Option.isSome_iff_exists.mp (hmanifests.named path hpath hsome)
    exact hlisted ⟨⟨path, name⟩, (hmanifests.mem_iff _).mpr ⟨hpath, hname, hsome⟩, rfl⟩

/-- What a claim is, and that two of them are under two paths. -/
theorem Lists.isProofs (h : Lists s jsonOts proofs) :
    (∀ c ∈ proofs, IsProof c) ∧ proofs.Pairwise fun c d => c.path ≠ d.path := by
  refine ⟨fun c hc => ⟨((h.mem_iff c).mp hc).1, ((h.mem_iff c).mp hc).2.1⟩, ?_⟩
  refine h.sorted.imp_of_mem fun hc hd hlt hpath => ?_
  exact (h.eq_of_path hc hd hpath ▸ hlt).false

/-- Once a call has failed, the pass is not one without failures. -/
theorem gives_afterFailure {report : Report} (hfailures : report.failures ≠ 0)
    (held : Held) (s : Desk) :
    Gives (do
      match ← attempt Fault.isOsError (claims env jsonOts) with
      | none => pure (report.fail 1)
      | some companions => do
          let report' ← consumeProofs env held companions
          match ← attempt Fault.isOsError (fsyncDir env) with
          | none => pure ((report.and report').fail 1)
          | some _ => pure (report.and report')) (fun report _ => report.failures ≠ 0) s := by
  have hand : ∀ report' : Report, (report.and report').failures ≠ 0 :=
    fun report' hsum => hfailures (Nat.add_eq_zero_iff.mp hsum).1
  refine .bind ((gives_any _ s).mono (fun listed t _ => ?_) fun _ _ h => h)
  cases listed with
  | none => exact .pure (Nat.succ_ne_zero _)
  | some companions =>
      refine .bind ((gives_any _ t).mono (fun report' u _ => ?_) fun _ _ h => h)
      refine .bind ((gives_any _ u).mono (fun synced v _ => ?_) fun _ _ h => h)
      cases synced with
      | none => exact .pure (Nat.succ_ne_zero _)
      | some _ => exact .pure (hand report')

theorem gives_consumeInbox (hdone : ∀ n, env.file n = .done)
    (hmanifests : Lists s Str.json manifests)
    (hproofs : Lists s jsonOts proofs) (hapart : Apart loads digest s manifests) :
    Gives (consumeInbox env loads manifests) (fun report t => report.failures = 0 →
      ∃ held held' between companions rejected rejected', Passed loads digest
          manifests proofs s report t held held' between companions rejected rejected') s := by
  refine .bind (desk_copiesByDigest env digest (fun held hheld hfound hall =>
        ?_) fun _ _ => trivial)
  have hiff : (held.lookup digest).isSome ↔ OnFile digest s := ⟨hfound, hall hdone⟩
  refine .bind ((gives_consumeManifests env loads hmanifests hproofs hheld hapart).mono
      (fun r between hr => ?_) fun _ _ h => h)
  obtain ⟨held', report⟩ := r
  by_cases hfailures : report.failures = 0
  · have hwalked := hr hfailures
    refine .bind (desk_attempt (desk_claims env (fun companions hcompanions => ?_) fun e _ => ?_))
    · obtain ⟨hall, hne⟩ := hcompanions.isProofs
      refine .bind ((gives_consumeProofs env hall hne (hwalked.noManifest loads hmanifests hproofs)
            hwalked.heldOn).mono (fun report' t ht => ?_) fun _ _ h => h)
      refine .bind (desk_attempt (desk_fsyncDir env (.pure fun hsum => ?_) fun e => ?_))
      · exact ⟨held, held', between, companions, report.rejected, report'.rejected,
          hiff, hwalked, hcompanions, ht (Nat.add_eq_zero_iff.mp hsum).2, rfl⟩
      · split_ifs
        exact .pure fun hsum => nomatch hsum
    · split_ifs
      exact .pure fun hsum => nomatch hsum
  · refine (gives_afterFailure env hfailures held' between).mono
      (fun report' t hne hzero => absurd hzero hne) fun _ _ h => h

/-! ## Where a proof ends -/

/-- A copy of the digest is on file, or a manifest of it is claimed. -/
def Wanted (digest : Bytes) (s : Desk) (manifests : List Claim) : Prop :=
  OnFile digest s ∨ ∃ c ∈ manifests, ∃ m raw, Valid loads s c m raw ∧ Sha256.digest raw = digest

/-- A name that is in `rejected` once the claimed manifests are consumed. -/
def Refused (s : Desk) (manifests : List Claim) (n : Str) : Prop :=
  (s.refused n).isSome ∨ ∃ c ∈ manifests, Refusal loads s c n

/-- Such a name ends like that of the proof's manifest. -/
def Turned (s : Desk) (manifests : List Claim) (name : Str) : Prop :=
  ∃ n, Refused loads s manifests n ∧ Str.endsWith (dash :: stem name) n = true

/-- The proof was kept, its claim is gone, and it was not rejected. -/
structure Reached (digest : Bytes) (p : Claim) (data : Bytes) (report : Report) (t : Desk) :
    Prop where
  answered : Answered digest t.shelf data
  gone : t.claim p.path = none
  unrejected : ∀ r ∈ report.rejected, r.path ≠ p.path

section Passed

variable {report : Report} {held held' : Held} {between : Desk} {companions : List Claim}
  {rejected rejected' : List Rejected} {p : Claim} {data : Bytes} {proof : Proof}

theorem Passed.taken (h : Passed loads digest manifests
      proofs s report t held held' between companions rejected rejected')
    (hmanifests : Lists s Str.json manifests) (hproofs : Lists s jsonOts proofs)
    {c : Claim} {raw : Bytes} (hdata : s.claim p.path = some data)
    (hparse : parseOts data = .ok proof) (hdigest : proof.digest = digest)
    (hpair : (c, p) ∈ pairs manifests proofs) (hraw : s.claim c.path = some raw) :
    Reached digest p data report t ↔ Fits loads raw data := by
  have hp := (pairs_mem hpair).2
  have hgone : ∀ q ∈ companions, p.path ≠ q.path := fun q hq hpath => by
    have hsome := ((h.listed.mem_iff q).mp hq).2.2
    rw [← hpath, h.walked.taken c p hpair] at hsome
    exact nomatch hsome
  constructor
  · intro hreached
    by_contra hunfit
    obtain ⟨r, hr, hpath⟩ := h.walked.refused c p raw data hpair hraw hdata hunfit
    exact hreached.unrejected r (h.rejections ▸ List.mem_append_left _ hr) hpath
  · intro hfits
    have hraw' : Sha256.digest raw = digest := by
      obtain ⟨proof', hparse', hproof'⟩ := hfits.2
      obtain rfl := Except.ok.inj (hparse.symm.trans hparse')
      exact hproof'.symm.trans hdigest
    refine ⟨(h.walked.answered c p raw data hpair hraw hdata hfits hraw').better h.swept.better,
      ?_, fun r hr hpath => ?_⟩
    · exact (h.swept.others p.path hgone).trans (h.walked.taken c p hpair)
    · obtain hr | hr := List.mem_append.mp (h.rejections ▸ hr)
      · obtain ⟨c', hc', hpath'⟩ | ⟨c', q, raw', data', hpair', hpath', hraw',
          hdata', hunfit⟩ := h.walked.rejects r hr
        · exact claim_ne (hmanifests.isManifest hc').claim ((hproofs.mem_iff p).mp hp).1
            (hpath'.symm.trans hpath)
        · obtain rfl := hproofs.eq_of_path (pairs_mem hpair').2 hp (hpath'.symm.trans hpath)
          have hnodup : proofs.Nodup := hproofs.sorted.imp fun hlt heq => (heq ▸ hlt).false
          obtain rfl := pairs_unique hnodup hpair hpair'
          obtain rfl := Option.some.inj (hraw.symm.trans hraw')
          obtain rfl := Option.some.inj (hdata.symm.trans hdata')
          exact hunfit hfits
      · obtain ⟨q, hq, hpath'⟩ := h.swept.rejects r hr
        exact hgone q hq (hpath.symm.trans hpath')

/-- A proof that no manifest took is among those left alone. -/
theorem Passed.left (h : Passed loads digest manifests proofs
      s report t held held' between companions rejected rejected')
    (hmanifests : Lists s Str.json manifests) (hproofs : Lists s jsonOts proofs) (hp : p ∈ proofs)
    (hleft : ∀ c, (c, p) ∉ pairs manifests proofs) :
    between.claim p.path = s.claim p.path ∧ p ∈ companions ∧ ∀ r ∈ rejected, r.path ≠ p.path := by
  obtain ⟨hclaim, hname, hsome⟩ := (hproofs.mem_iff p).mp hp
  have hother : ∀ c q, (c, q) ∈ pairs manifests proofs → p.path ≠ q.path := fun c q hpair hpath =>
    hleft c (hproofs.eq_of_path hp (pairs_mem hpair).2 hpath ▸ hpair)
  have hsame : between.claim p.path = s.claim p.path :=
    h.walked.others p.path
      (fun c hc => (claim_ne (hmanifests.isManifest hc).claim hclaim).symm) hother
  refine ⟨hsame, (h.listed.mem_iff p).mpr ⟨hclaim, hname, hsame.symm ▸ hsome⟩, fun r hr hpath => ?_⟩
  obtain ⟨c', hc', hpath'⟩ | ⟨c', q, _, _, hpair, hpath', -⟩ := h.walked.rejects r hr
  · exact claim_ne (hmanifests.isManifest hc').claim hclaim (hpath'.symm.trans hpath)
  · exact hother c' q hpair (hpath.symm.trans hpath')

theorem Passed.lookup_wanted (h : Passed loads digest manifests proofs s report
      t held held' between companions rejected rejected') :
    (held'.lookup digest).isSome ↔ Wanted loads digest s manifests := by
  rw [h.walked.lookup_iff, h.lookup_iff, Wanted]

theorem Passed.wasRejected_iff (h : Passed loads digest manifests
      proofs s report t held held' between companions rejected rejected')
    (hclaim : isClaim jsonOts p.path = true) (hname : deliveredName p.path = some p.name) :
    WasRejected between p.name ↔ Turned loads s manifests p.name :=
  exists_congr fun n => and_congr_left fun hn =>
    h.walked.refused_iff n (endsWith_ots_of_stem hclaim hname hn)

/-- Where a proof that no manifest took ends. -/
theorem Passed.leftAlone (h : Passed loads digest manifests
      proofs s report t held held' between companions rejected rejected')
    (hmanifests : Lists s Str.json manifests) (hproofs : Lists s jsonOts proofs) (hp : p ∈ proofs)
    (hdata : s.claim p.path = some data) (hparse : parseOts data = .ok proof)
    (hdigest : proof.digest = digest) (hleft : ∀ c, (c, p) ∉ pairs manifests proofs) :
    (Wanted loads digest s manifests → Reached digest p data report t) ∧
      (¬Wanted loads digest s manifests → ¬Turned loads s manifests p.name →
        t.claim p.path = some data ∧ ∀ r ∈ report.rejected, r.path ≠ p.path) ∧
      (¬Wanted loads digest s manifests → Turned loads s manifests p.name →
        t.claim p.path = none ∧ ∃ r ∈ report.rejected, r.path = p.path) := by
  obtain ⟨hclaim, hname, -⟩ := (hproofs.mem_iff p).mp hp
  obtain ⟨hsame, hmem, hfirst⟩ := h.left loads hmanifests hproofs hp hleft
  have hbetween := hsame.trans hdata
  have hboth : (∀ r ∈ rejected', r.path ≠ p.path) → ∀ r ∈ report.rejected, r.path ≠ p.path :=
      fun hsecond r hr =>
    (List.mem_append.mp (h.rejections ▸ hr)).elim (hfirst r) (hsecond r)
  have hnone : ¬Wanted loads digest s manifests → held'.lookup digest = none := fun hnot =>
    Option.not_isSome_iff_eq_none.mp (mt h.lookup_wanted.mp hnot)
  rw [← h.wasRejected_iff loads hclaim hname]
  refine ⟨fun hwanted => ?_, fun hnot hwas => ?_, fun hnot hwas => ?_⟩
  · obtain ⟨hanswered, hgone, hr⟩ :=
      h.swept.kept p hmem data proof hbetween hparse hdigest (h.lookup_wanted.mpr hwanted)
    exact ⟨hanswered, hgone, hboth hr⟩
  · obtain ⟨hstays, hr⟩ := h.swept.waits p hmem data proof hbetween hparse hdigest (hnone hnot) hwas
    exact ⟨hstays, hboth hr⟩
  · obtain ⟨hgone, r, hr, hpath⟩ :=
      h.swept.turned p hmem data proof hbetween hparse hdigest (hnone hnot) hwas
    exact ⟨hgone, r, h.rejections ▸ List.mem_append_right _ hr, hpath⟩

/-- A proof that is wanted reaches its copy, unless a manifest of something else takes it. -/
theorem Passed.reached_iff (h : Passed loads digest manifests
      proofs s report t held held' between companions rejected rejected')
    (hmanifests : Lists s Str.json manifests) (hproofs : Lists s jsonOts proofs) (hp : p ∈ proofs)
    (hdata : s.claim p.path = some data) (hparse : parseOts data = .ok proof)
    (hdigest : proof.digest = digest) (hwanted : Wanted loads digest s manifests) :
    Reached digest p data report t ↔ ∀ c raw, (c, p) ∈ pairs manifests proofs →
        s.claim c.path = some raw → Fits loads raw data := by
  refine ⟨fun hreached c raw hpair hraw =>
    (h.taken loads hmanifests hproofs hdata hparse hdigest hpair hraw).mp hreached, fun hall => ?_⟩
  by_cases htaken : ∃ c, (c, p) ∈ pairs manifests proofs
  · obtain ⟨c, hpair⟩ := htaken
    obtain ⟨raw, hraw⟩ :=
      Option.isSome_iff_exists.mp ((hmanifests.mem_iff c).mp (pairs_mem hpair).1).2.2
    exact (h.taken loads hmanifests hproofs hdata hparse hdigest hpair hraw).mpr
      (hall c raw hpair hraw)
  · exact (h.leftAlone loads hmanifests hproofs hp hdata hparse hdigest fun c hpair =>
        htaken ⟨c, hpair⟩).1 hwanted

end Passed

end Pass

end OtsServer.Selfstamp
