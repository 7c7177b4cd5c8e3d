import OtsServer.Selfstamp.Mispaired

/-!
# Proofs that await their manifest

A proof of nothing that is held stays claimed, pass after pass, until its manifest is consumed:
also in passes in which calls fail, and in those that stop. It is rejected before that when some
rejected name ends like its manifest's: exactly right when one of those was delivered under that
very name, which an ending does not tell.
-/

namespace OtsServer.Selfstamp

open Prog (Sees)

/-- A file of `rejected` that was delivered under `name`: twelve hex digits, a dash, and the
name. -/
def DeliveredAs (n name : Str) : Prop :=
  ∃ hex : Str, hex.length = 12 ∧ (∀ c ∈ hex, (0x30 ≤ c ∧ c ≤ 0x39) ∨ (0x61 ≤ c ∧ c ≤ 0x66)) ∧
    n = hex ++ dash :: name

/-- Such a name ends in the delivered one. -/
theorem DeliveredAs.endsWith {n name : Str} (h : DeliveredAs n name) :
    Str.endsWith (dash :: name) n = true := by
  obtain ⟨hex, -, -, rfl⟩ := h
  exact List.isSuffixOf_iff_suffix.mpr (List.suffix_append hex (dash :: name))

/-! ## One call -/

section Call

variable (env : Env) {s : Desk} {p : Claim} {data : Bytes} {proof : Proof} {held : Held}

/-- A proof of nothing held is moved exactly when a rejected name ends like its manifest's; also a
call that fails moves no other. -/
theorem desk_orphan (hp : IsProof p) (hdata : s.claim p.path = some data)
    (hparse : parseOts data = .ok proof) (hnone : held.lookup proof.digest = none) :
    Sees World.desk (consumeOrphanProof env p held)
      (fun rejected t => WasRejected s p.name ∧ (∃ r ∈ rejected, r.path = p.path) ∧
        t.claim p.path = none ∨ ¬WasRejected s p.name ∧ rejected = [] ∧ t = s)
      (fun _ t => WasRejected s p.name ∨ t.claim p.path = some data) s := by
  have hdot := isDot_of_isClaim hp.claim
  refine .bind (desk_readClaim env hdot (fun data' hdata' => ?_) fun _ => .inr hdata)
  obtain rfl := Option.some.inj (hdata.symm.trans hdata')
  rw [hparse]
  dsimp only
  rw [hnone]
  refine .bind (desk_manifestWasRejected env (fun found hfound => .ite (fun hyes => ?_) fun hno =>
        .pure ?_) fun _ => .inr hdata)
  · have hwas := hfound.mp hyes
    refine .bind (desk_quarantine env hdot hdata (.pure ?_) (fun _ => .inl hwas) fun _ => .inl hwas)
    exact .inl ⟨hwas, ⟨_, List.mem_singleton_self _, rfl⟩, s.unclaim_self p.path⟩
  · exact .inr ⟨fun hwas => hno (hfound.mpr hwas), rfl, rfl⟩

end Call

/-! ## Claims that are left -/

section Open

variable {env : Env} {w w₁ : World} {path : Str} {data : Bytes}

/-- The token of a run is in no claim that it finds. -/
def Fresh (env : Env) (path : Str) : Prop := ∀ n name, path ≠ claimName (env.token n) name

theorem claimed_fileCall {Q : Unit → Option Bytes → Prop} {E : Fault → Option Bytes → Prop}
    {there : Option Bytes} (env : Env) (hok : Q () there) (herr : ∀ e, E e there) :
    Sees (fun w : World => w.claimed path) (fileCall env) Q E there := by
  refine ⟨?_⟩
  rintro w rfl
  have hsame : (w.next env).claimed path = w.claimed path := congrFun (claimed_next env w) path
  cases h : (env.file w.calls).result with
  | ok a => exact Prog.wp_of_ok (congrArg (·, w.next env) h) (hsame.symm ▸ hok)
  | error e => exact Prog.wp_of_error (congrArg (·, w.next env) h) (hsame.symm ▸ herr e)

/-- What a program leaves of a claim. -/
abbrev Leaves {α : Type} (path : Str) (m : M α) : Prop :=
  ∀ there, Sees (fun w : World => w.claimed path) m (fun _ => (· = there))
    (fun _ => (· = there)) there

theorem leaves_listFiles (env : Env) (suffix : Str) (there : Option Bytes) :
    Sees (fun w : World => w.claimed path) (listFiles env .inbox suffix) (fun names t =>
        (∀ name ∈ names, name.isDot = false) ∧ t = there) (fun _ => (· = there)) there := by
  refine .bind (claimed_fileCall env ⟨?_⟩ fun _ => rfl)
  rintro w rfl
  refine ⟨fun name hname => ?_, rfl⟩
  have hends := (List.mem_filter.mp hname).2
  rw [Bool.and_eq_true, Bool.not_eq_true'] at hends
  exact hends.2

theorem leaves_claimOne (hpath : path.isDot = true) {token : Str}
    (hfresh : ∀ name, path ≠ claimName token name) {name : Str} (hname : name.isDot = false) :
    Leaves path (claimOne env token name) := by
  intro there
  have hrename : Sees (fun w : World => w.claimed path)
      (rename env .inbox name .inbox (claimName token name)) (fun _ => (· = there))
      (fun _ => (· = there)) there := by
    refine .bind (claimed_fileCall env (.bind (.gets_any fun data => ?_)) fun _ => rfl)
    cases data with
    | none => exact .raise rfl
    | some data =>
        refine .modify (g := id) (fun w => ?_) rfl
        change World.claimed _ path = w.claimed path
        rw [claimed_of_dot _ hpath, claimed_of_dot w hpath, get_put, get_erase,
          if_neg fun h => hfresh name h.2, if_neg]
        rintro ⟨-, rfl⟩
        exact nomatch hpath.symm.trans hname
  refine .catching
    (.bind (hrename.mono (fun _ t ht => .pure ht) fun e t ht => ⟨fun n hn => ?_, fun _ => ht⟩))
  cases e with
  | fileNotFound => exact Option.some.inj hn ▸ .pure ht
  | osError => exact Option.some.inj hn ▸ .pure ht
  | _ => exact nomatch hn

theorem leaves_claim (hpath : path.isDot = true) (hfresh : Fresh env path) :
    Leaves path (claim env) := by
  intro there
  have htotal : ∀ (n : Nat) (names : List Str), (∀ name ∈ names, name.isDot = false) →
      Sees (fun w : World => w.claimed path) (Prog.total (claimOne env (env.token n)) names)
          (fun _ => (· = there)) (fun _ => (· = there)) there := fun n names hnames =>
    .total (I := (· = there)) names (fun name hname t ht =>
        ht ▸ leaves_claimOne hpath (hfresh n) (hnames name hname) t) (fun _ _ ht => ht) rfl
  have htoken : ∀ {Q : Str → Option Bytes → Prop}, (∀ n, Q (env.token n) there) →
      Sees (fun w : World => w.claimed path) (ask env fun n => .ok (env.token n)) Q
          (fun _ => (· = there)) there := fun hok => by
    refine ⟨?_⟩
    rintro w rfl
    have hsame : (w.next env).claimed path = w.claimed path := congrFun (claimed_next env w) path
    exact Prog.wp_of_ok (t := w.next env) rfl (hsame.symm ▸ hok w.calls)
  refine .bind (htoken fun n => ?_)
  refine .bind ((leaves_listFiles env Str.json there).mono ?_ fun _ _ h => h)
  rintro names _ ⟨hnames, rfl⟩
  refine .bind ((htotal n names hnames).mono ?_ fun _ _ h => h)
  rintro failures _ rfl
  refine .bind ((leaves_listFiles env jsonOts _).mono ?_ fun _ _ h => h)
  rintro names' _ ⟨hnames', rfl⟩
  refine .bind ((htotal n names' hnames').mono ?_ fun _ _ h => h)
  rintro failures' _ rfl
  exact .pure rfl

/-- Opening the inbox leaves the claims of earlier runs, wherever it fails. -/
theorem claimed_of_open (hpath : path.isDot = true) (hfresh : Fresh env path) (w : World) :
    (openInbox env w).2.claimed path = w.claimed path := by
  have hfsync : ∀ there, Sees (fun w : World => w.claimed path) (fsyncDir env)
      (fun _ => (· = there)) (fun _ => (· = there)) there :=
    fun there => .bind (claimed_fileCall env (claimed_fileCall env rfl fun _ => rfl) fun _ => rfl)
  have hmkdir : ∀ there, Sees (fun w : World => w.claimed path) (mkdirDurable env)
      (fun _ => (· = there)) (fun _ => (· = there)) there :=
    fun there => .bind
      (claimed_fileCall env (.bind (claimed_fileCall env (hfsync there) fun _ => rfl)) fun _ => rfl)
  have hclaims : ∀ there, Sees (fun w : World => w.claimed path) (claims env Str.json)
      (fun _ => (· = there)) (fun _ => (· = there)) there := by
    refine fun there =>
      .bind (claimed_fileCall env (.bind (.gets_any fun names => ?_)) fun _ => rfl)
    split
    · exact .pure rfl
    · exact .raise rfl
  have hopen : Sees (fun w : World => w.claimed path) (openInbox env)
      (fun _ => (· = w.claimed path)) (fun _ => (· = w.claimed path)) (w.claimed path) := by
    refine .bind ((hmkdir _).mono ?_ fun _ _ h => h)
    rintro _ _ rfl
    refine .bind ((leaves_claim hpath hfresh _).mono ?_ fun _ _ h => h)
    rintro _ _ rfl
    refine .bind ((hclaims _).mono ?_ fun _ _ h => h)
    rintro _ _ rfl
    exact .pure rfl
  have hwp := hopen.out w rfl
  rw [Prog.wp] at hwp
  revert hwp
  rcases openInbox env w with ⟨_ | _, t⟩ <;> exact fun h => h

end Open

/-! ## Pass after pass -/

/-- A pass over the inbox, whatever fails in it and wherever it stops. -/
structure Round (loads : Loads) where
  env : Env
  start : World
  result : Except Fault Report
  final : World
  runs : witnessInbox env loads start = (result, final)

namespace Round

variable {loads : Loads} {p : Claim} {data digest : Bytes} {proof : Proof}

/-- The inbox once it was opened, or where that failed. -/
def opened (r : Round loads) : World := (openInbox r.env r.start).2

/-- The manifests that the pass claimed: none when it could not open the inbox. -/
def manifests (r : Round loads) : List Claim :=
  match (openInbox r.env r.start).1 with
  | .ok (_, found) => found
  | .error _ => []

/-- The proofs claimed by then. -/
def proofs (r : Round loads) : List Claim :=
  (claimsOf jsonOts (r.opened.files .inbox).names).getD []

/-- A pass in which nothing fails. -/
structure Clean (r : Round loads) : Prop where
  done : ∀ n, r.env.file n = .done
  listed : (claimsOf jsonOts (r.opened.files .inbox).names).isSome
  report : ∃ report, r.result = .ok report ∧ report.failures = 0

/-- The proof stays claimed. In a pass in which nothing fails there was nothing for it; in any other
its manifest, when it was consumed, left its copy to a later pass. -/
structure Waits (r : Round loads) (p : Claim) (data digest : Bytes) : Prop where
  claimed : r.final.claimed p.path = some data
  unrejected : ∀ x ∈ rejections r.result, x.path ≠ p.path
  unwanted : r.Clean → ¬Wanted loads digest r.opened.desk r.manifests
  consumed : ∀ c ∈ r.manifests, ∀ m raw, Valid loads r.opened.desk c m raw →
    r.final.desk.claim c.path = none → Sha256.digest raw = digest → OnFile digest r.final.desk

/-- The proof is kept with its copy, or one that is worth as much. -/
structure Stores (r : Round loads) (p : Claim) (data digest : Bytes) : Prop where
  answered : Answered digest r.final.desk.shelf data
  gone : r.final.claimed p.path = none
  unrejected : ∀ x ∈ rejections r.result, x.path ≠ p.path

/-- The proof is rejected, and so was a file that was delivered under the very name of its
manifest. -/
structure Turns (r : Round loads) (p : Claim) (digest : Bytes) : Prop where
  gone : r.final.claimed p.path = none
  own : ∃ n, (r.final.desk.refused n).isSome ∧ DeliveredAs n (stem p.name)
  unwanted : r.Clean → ¬Wanted loads digest r.opened.desk r.manifests
  rejected : r.Clean → ∃ x ∈ rejections r.result, x.path = p.path

/-- In a pass in which nothing fails: no manifest takes the proof that it is not of, and where a
rejected name ends like its manifest's, one was delivered under that very name. -/
structure Exact (r : Round loads) (p : Claim) (data : Bytes) : Prop where
  clean : r.Clean
  fits : ∀ c raw, (c, p) ∈ pairs r.manifests r.proofs → r.opened.get .inbox c.path = some raw →
    Fits loads raw data
  own : Turned loads r.opened.desk r.manifests p.name →
    ∃ n, Refused loads r.opened.desk r.manifests n ∧ DeliveredAs n (stem p.name)

/-- In any pass: the proof is of every manifest that was claimed under its name, and each rejected
name that ends like its manifest's was delivered under that very name, unless one was that is in
`rejected` already. -/
structure Firm (r : Round loads) (p : Claim) (data : Bytes) : Prop where
  fits : ∀ c ∈ r.manifests, ∀ raw, p.name = c.name ++ Str.ots →
    r.opened.get .inbox c.path = some raw → Fits loads raw data
  own : ∀ n, Refused loads r.opened.desk r.manifests n →
    Str.endsWith (dash :: stem p.name) n = true → DeliveredAs n (stem p.name) ∨ ∃ n',
    (r.opened.desk.refused n').isSome ∧ DeliveredAs n' (stem p.name)

/-- What keeps a proof from being taken for another's; and the copies' names tell apart what has its
digest. -/
structure Faithful (r : Round loads) (p : Claim) (data digest : Bytes) : Prop where
  own : r.Exact p data ∨ r.Firm p data
  apart : Apart loads digest r.opened.desk r.manifests

/-- The manifests of a pass that opened the inbox. -/
theorem manifests_of_open {r : Round loads} {failures : Nat} {found : List Claim}
    (h : openInbox r.env r.start = (.ok (failures, found), r.opened)) : r.manifests = found := by
  rw [manifests, h]

/-- A pass in which nothing fails opens the inbox. -/
theorem Clean.opens {r : Round loads} (h : r.Clean) :
    ∃ failures, openInbox r.env r.start = (.ok (failures, r.manifests), r.opened) := by
  cases hopen : openInbox r.env r.start with
  | mk result t =>
      have hopened : t = r.opened := (congrArg Prod.snd hopen).symm
      subst hopened
      cases result with
      | ok found => exact ⟨found.1, by rw [manifests_of_open hopen]⟩
      | error e =>
          obtain ⟨report, hreport, hfailures⟩ := h.report
          have hrun := (@witnessInbox_of_shut _ loads _ _ _ hopen).symm.trans r.runs
          have hresult := congrArg Prod.fst hrun
          rw [hreport] at hresult
          cases hos : e.isOsError <;> rw [hos] at hresult <;> cases hresult
          exact nomatch hfailures

/-- What a pass in which nothing fails does with a claimed proof. -/
theorem step_clean (r : Round loads) (hp : IsProof p)
    (hparse : parseOts data = .ok proof) (hdata : r.opened.claimed p.path = some data)
    (hexact : r.Exact p data) (hapart : Apart loads proof.digest r.opened.desk r.manifests) :
    r.Waits p data proof.digest ∨ r.Stores p data proof.digest ∨ r.Turns p proof.digest := by
  obtain ⟨failures, hopen⟩ := hexact.clean.opens
  obtain ⟨report, hreport, hfailures⟩ := hexact.clean.report
  obtain ⟨found, hfound⟩ := Option.isSome_iff_exists.mp hexact.clean.listed
  have hlisted : claimsOf jsonOts (r.opened.files .inbox).names = some r.proofs := by
    rw [proofs, hfound, Option.getD_some]
  have hmanifests := lists_of_open hopen
  have hproofs := lists_of_claimsOf hlisted
  have hmem : p ∈ r.proofs :=
    (hproofs.mem_iff p).mpr ⟨hp.claim, hp.name, Option.isSome_iff_exists.mpr ⟨data, hdata⟩⟩
  have hrejections : rejections r.result = report.rejected := by rw [hreport, rejections]
  obtain ⟨held, held', between, companions, rejected, rejected', h⟩ :=
    passed_of_run hexact.clean.done hopen hlisted (hreport ▸ r.runs) hfailures hapart
  have hfits : ∀ c raw, (c, p) ∈ pairs r.manifests r.proofs →
      r.opened.desk.claim c.path = some raw → Fits loads raw data := by
    intro c raw hpair hraw
    exact hexact.fits c raw hpair
      ((claimed_of_dot r.opened (hmanifests.dot (pairs_mem hpair).1)).symm.trans hraw)
  by_cases hwanted : Wanted loads proof.digest r.opened.desk r.manifests
  · obtain ⟨hanswered, hgone, hr⟩ :=
      (h.reached_iff loads hmanifests hproofs hmem hdata hparse rfl hwanted).mpr hfits
    exact .inr (.inl ⟨hanswered, hgone, hrejections ▸ hr⟩)
  · have hleft : ∀ c, (c, p) ∉ pairs r.manifests r.proofs := by
      intro c hpair
      obtain ⟨raw, hraw⟩ :=
        Option.isSome_iff_exists.mp ((hmanifests.mem_iff c).mp (pairs_mem hpair).1).2.2
      obtain ⟨⟨m, hm⟩, proof', hparse', hdigest⟩ := hfits c raw hpair hraw
      obtain rfl := Except.ok.inj (hparse.symm.trans hparse')
      exact hwanted (.inr ⟨c, (pairs_mem hpair).1, m, raw, ⟨hraw, hm⟩, hdigest.symm⟩)
    obtain ⟨-, hwaits, hturns⟩ := h.leftAlone loads hmanifests hproofs hmem hdata hparse rfl hleft
    by_cases hturned : Turned loads r.opened.desk r.manifests p.name
    · obtain ⟨hgone, hmoved⟩ := hturns hwanted hturned
      obtain ⟨n, hrefused, hn⟩ := hexact.own hturned
      have hots := endsWith_ots_of_stem hp.claim hp.name hn.endsWith
      have hthere := (h.swept.refused_iff n hots).mpr ((h.walked.refused_iff n hots).mpr hrefused)
      exact .inr (.inr ⟨hgone, ⟨n, hthere, hn⟩, fun _ => hwanted, fun _ => hrejections ▸ hmoved⟩)
    · obtain ⟨hstays, hr⟩ := hwaits hwanted hturned
      refine .inl ⟨hstays, hrejections ▸ hr, fun _ => hwanted,
        fun c hc m raw hvalid _ hdigest => ?_⟩
      exact absurd (.inr ⟨c, hc, m, raw, hvalid, hdigest⟩) hwanted

/-- What holds of any pass holds of one in which nothing fails. -/
theorem Firm.exact {r : Round loads} (h : r.Firm p data) (hclean : r.Clean) : r.Exact p data := by
  obtain ⟨failures, hopen⟩ := hclean.opens
  have hmanifests := lists_of_open hopen
  obtain ⟨found, hfound⟩ := Option.isSome_iff_exists.mp hclean.listed
  have hproofs : Lists r.opened.desk jsonOts r.proofs := by
    rw [proofs, hfound, Option.getD_some]
    exact lists_of_claimsOf hfound
  refine ⟨hclean, fun c raw hpair hraw => ?_, ?_⟩
  · have hc := (pairs_mem hpair).1
    exact h.fits c hc raw
      (pairs_name hproofs (fun c hc => (hmanifests.isManifest hc).name) hpair) hraw
  · rintro ⟨n, hrefused, hn⟩
    obtain hown | ⟨n', hsome, hown⟩ := h.own n hrefused hn
    · exact ⟨n, hrefused, hown⟩
    · exact ⟨n', .inl hsome, hown⟩

/-- What a pass in which anything may fail does with a claimed proof. -/
theorem step_unclean (r : Round loads) (hp : IsProof p) (hparse : parseOts data = .ok proof)
    (hdata : r.opened.claimed p.path = some data) (hfirm : r.Firm p data)
    (hapart : Apart loads proof.digest r.opened.desk r.manifests) (hunclean : ¬r.Clean) :
    r.Waits p data proof.digest ∨ r.Stores p data proof.digest ∨ r.Turns p proof.digest := by
  cases hopen : openInbox r.env r.start with
  | mk result t =>
      have hopened : t = r.opened := (congrArg Prod.snd hopen).symm
      subst hopened
      cases result with
      | error e =>
          have hrun := (@witnessInbox_of_shut _ loads _ _ _ hopen).symm.trans r.runs
          obtain ⟨hresult, hfinal⟩ := Prod.mk.inj hrun
          have hnone : r.manifests = [] := by rw [manifests, hopen]
          refine .inl ⟨hfinal ▸ hdata, fun x hx => ?_, fun h => absurd h hunclean, fun c hc => ?_⟩
          · rw [← hresult] at hx
            cases hos : e.isOsError <;> rw [hos] at hx <;> exact nomatch hx
          · rw [hnone] at hc
            exact nomatch hc
      | ok found =>
          have hfound : found = (found.1, r.manifests) := by
            rw [@manifests_of_open _ _ found.1 _ hopen]
          rw [hfound] at hopen
          have hmanifests := lists_of_open hopen
          have hsuits : ∀ c ∈ r.manifests, Suits loads p data proof.digest r.opened.desk c := by
            intro c hc raw hname hraw
            have hfits := hfirm.fits c hc raw hname
              ((claimed_of_dot r.opened (hmanifests.dot hc)).symm.trans hraw)
            obtain ⟨proof', hparse', hdigest⟩ := hfits.2
            obtain rfl := Except.ok.inj (hparse.symm.trans hparse')
            exact ⟨hfits, hdigest.symm⟩
          have hended := (ended_of_run hopen r.runs hp hparse hapart).1 ⟨.inl hdata, hsuits⟩
          obtain ⟨hstays | ⟨hgone, hanswered⟩, hr⟩ | ⟨hgone, n, hrefused, hthere,
            hn⟩ := hended.proof
          · exact .inl ⟨hstays, hr, fun h => absurd h hunclean, hended.consumed⟩
          · exact .inr (.inl ⟨hanswered, hgone, hr⟩)
          · refine .inr (.inr ⟨hgone, ?_, fun h => absurd h hunclean, fun h => absurd h hunclean⟩)
            obtain hown | ⟨n', hsome, hown⟩ := hfirm.own n hrefused hn
            · exact ⟨n, hthere, hown⟩
            · have hots := endsWith_ots_of_stem hp.claim hp.name hown.endsWith
              exact ⟨n', hended.refused n' hots hsome, hown⟩

/-- What a pass does with a claimed proof. -/
theorem step (r : Round loads) (hp : IsProof p) (hparse : parseOts data = .ok proof)
    (hdata : r.opened.claimed p.path = some data) (hfaithful : r.Faithful p data proof.digest) :
    r.Waits p data proof.digest ∨ r.Stores p data proof.digest ∨ r.Turns p proof.digest := by
  obtain hexact | hfirm := hfaithful.own
  · exact r.step_clean hp hparse hdata hexact hfaithful.apart
  · by_cases hclean : r.Clean
    · exact r.step_clean hp hparse hdata (hfirm.exact hclean) hfaithful.apart
    · exact r.step_unclean hp hparse hdata hfirm hfaithful.apart hclean

/-- Passes one after the other; in between, the claim stays as the pass before left it. -/
def Follow (path : Str) : Option Bytes → List (Round loads) → Prop
  | _, [] => True
  | there, r :: rs => r.start.claimed path = there ∧ Follow path (r.final.claimed path) rs

/-- Passes leave the proof waiting, until one stores it or rejects it for its own manifest. -/
theorem run (hp : IsProof p) (hparse : parseOts data = .ok proof) (rounds : List (Round loads))
    (hfollow : Follow p.path (some data) rounds) (hfresh : ∀ r ∈ rounds, Fresh r.env p.path)
    (hfaithful : ∀ r ∈ rounds, r.opened.claimed p.path = some data →
      r.Faithful p data proof.digest) :
    (∀ r ∈ rounds, r.Waits p data proof.digest) ∨ ∃ before r after,
        rounds = before ++ r :: after ∧ (∀ r' ∈ before, r'.Waits p data proof.digest) ∧
        (r.Stores p data proof.digest ∨ r.Turns p proof.digest) := by
  induction rounds with
  | nil => exact .inl nofun
  | cons r rs ih =>
      obtain ⟨hstart, hrest⟩ := hfollow
      have hmem : r ∈ r :: rs := List.mem_cons_self ..
      have hopened : r.opened.claimed p.path = some data :=
        (claimed_of_open (isDot_of_isClaim hp.claim) (hfresh r hmem) r.start).trans hstart
      obtain hwaits | hends := r.step hp hparse hopened (hfaithful r hmem hopened)
      · rw [hwaits.claimed] at hrest
        obtain hall | ⟨before, r', after, rfl, hbefore, hends⟩ :=
          ih hrest (fun r' hr' => hfresh r' (List.mem_cons_of_mem r hr')) fun r' hr' =>
            hfaithful r' (List.mem_cons_of_mem r hr')
        · exact .inl (List.forall_mem_cons.mpr ⟨hwaits, hall⟩)
        · exact .inr ⟨r :: before, r', after, rfl,
            List.forall_mem_cons.mpr ⟨hwaits, hbefore⟩, hends⟩
      · exact .inr ⟨[], r, rs, rfl, nofun, hends⟩

end Round

/-- A file that was delivered under the very name of the proof's manifest is in `rejected`. -/
def OwnRejected (w : World) (name : Str) : Prop :=
  ∃ n, (w.refused n).isSome ∧ DeliveredAs n (stem name)

/-- A proof of nothing held is rejected for its own manifest only, exactly when the ending of a
rejected name tells that name; else it stays, and later passes for which that is so leave it until
one stores it. -/
theorem orphan_rejected_for_its_own {loads : Loads} {p : Claim} {data : Bytes} {proof : Proof}
    (hp : IsProof p) (hparse : parseOts data = .ok proof) :
    (∀ (env : Env) (w w' : World) (held : Held) (result : Except Fault (List Rejected)),
      w.claimed p.path = some data → held.lookup proof.digest = none →
      consumeOrphanProof env p held w = (result, w') →
        (w'.claimed p.path ≠ some data → WasRejected w.desk p.name) ∧
        ∀ rejected, result = .ok rejected →
          (((∃ r ∈ rejected, r.path = p.path) → OwnRejected w p.name) ↔
            (WasRejected w.desk p.name → OwnRejected w p.name)) ∧
          ((∀ r ∈ rejected, r.path ≠ p.path) → w'.claimed p.path = some data)) ∧
    ∀ rounds : List (Round loads), Round.Follow p.path (some data) rounds →
      (∀ r ∈ rounds, Fresh r.env p.path) →
      (∀ r ∈ rounds, r.opened.claimed p.path = some data → r.Faithful p data proof.digest) →
        (∀ r ∈ rounds, r.Waits p data proof.digest) ∨
        ∃ before r after, rounds = before ++ r :: after ∧
          (∀ r' ∈ before, r'.Waits p data proof.digest) ∧
          (r.Stores p data proof.digest ∨ r.Turns p proof.digest) := by
  refine ⟨fun env w w' held result hdata hnone hrun => ?_, Round.run hp hparse⟩
  have hsees := (desk_orphan env (s := w.desk) hp hdata hparse hnone).out w rfl
  rw [Prog.wp, hrun] at hsees
  cases result with
  | error e =>
      exact ⟨fun hgone => hsees.resolve_right hgone, fun _ h => by cases h⟩
  | ok rejected =>
      obtain ⟨hwas, hmoved, hgone⟩ | ⟨hnot, rfl, hsame⟩ := hsees
      · refine ⟨fun _ => hwas, fun _ heq => ?_⟩
        obtain rfl := Except.ok.inj heq
        refine ⟨⟨fun h _ => h hmoved, fun h _ => h hwas⟩, fun hstays => ?_⟩
        obtain ⟨r, hr, hpath⟩ := hmoved
        exact absurd hpath (hstays r hr)
      · have hclaimed : w'.claimed p.path = some data :=
          (congrArg (fun t => t.claim p.path) hsame).trans hdata
        refine ⟨fun hgone => absurd hclaimed hgone, fun _ heq => ?_⟩
        obtain rfl := Except.ok.inj heq
        exact ⟨⟨fun _ hwas => absurd hwas hnot, fun _ hmoved =>
          absurd hmoved.choose_spec.1 List.not_mem_nil⟩, fun _ => hclaimed⟩

namespace Mispaired

/-! ### A proof that came before its manifest, and one whose manifest's name ends a rejected name -/

open Upgraded (env)

/-- The proof, alone. -/
def alone : Dir := Directory.empty.put companion.path data

theorem isProof_companion : IsProof companion := ⟨by decide +kernel, by decide +kernel⟩

def firstRound : Round loads where
  env := env
  start := start alone
  result := .ok .none
  final := last alone
  runs := run_eq (by decide +kernel)

/-- The inbox cannot be opened. -/
def failedRound : Round loads where
  env := { env with file := fun _ => .raises }
  start := start alone
  result := .ok ⟨1, []⟩
  final := (witnessInbox { env with file := fun _ => .raises } loads (start alone)).2
  runs := Prod.ext (by decide +kernel) rfl

def lastRound : Round loads where
  env := env
  start := start delivered
  result := .ok .none
  final := last delivered
  runs := run_eq (by decide +kernel)

theorem fresh_token {env' : Env} (htoken : env'.token = env.token) : Fresh env' companion.path := by
  intro n name h
  rw [htoken] at h
  have hletter := congrArg (fun text : Str => text[7]?) h
  exact absurd hletter (by decide : ¬companion.path[7]? = some 0x78)

/-- Nothing was rejected yet, and only the later manifest may be claimed. -/
theorem faithful {r : Round loads} (hrejected : (r.opened.files .rejected).names = [])
    (hheld : (r.opened.files .witnessed).names = [])
    (hmanifests : ∀ c ∈ r.manifests, r.opened.get .inbox c.path = some later) :
    r.Faithful companion data proof.digest := by
  have hlater : ∀ c ∈ r.manifests, ∀ raw, r.opened.get .inbox c.path = some raw →
      raw = later := fun c hc raw hraw =>
    Option.some.inj (hraw.symm.trans (hmanifests c hc))
  refine ⟨.inr ⟨fun c hc raw _ hraw => ?_, ?_⟩, apart hheld _ _⟩
  · obtain rfl := hlater c hc raw hraw
    exact ⟨⟨items "b", parse_later⟩, proof, by decide +kernel, rfl⟩
  · rintro n (hsome | ⟨c, hc, raw, hraw, hnot, -⟩) -
    · have hmem := Directory.mem_names_iff.mpr (Option.isSome_iff_exists.mp hsome)
      rw [hrejected] at hmem
      exact nomatch hmem
    · obtain rfl := hlater c hc raw (get_of_claimed hraw)
      exact absurd ⟨items "b", parse_later⟩ hnot

theorem awaited_and_stored :
    (∀ r ∈ [firstRound, failedRound, lastRound], r.Waits companion data proof.digest) ∨
      ∃ before r after, [firstRound, failedRound, lastRound] = before ++ r :: after ∧
        (∀ r' ∈ before, r'.Waits companion data proof.digest) ∧
          (r.Stores companion data proof.digest ∨ r.Turns companion proof.digest) := by
  have hnone : firstRound.manifests = [] ∧ failedRound.manifests = [] := by decide +kernel
  have hfresh : lastRound.manifests = [fresh] := by decide +kernel
  refine (orphan_rejected_for_its_own isProof_companion (by decide +kernel)).2 [firstRound,
    failedRound, lastRound] ⟨by decide +kernel, by decide +kernel, by decide +kernel, trivial⟩ ?_ ?_
  · intro r hr
    simp only [List.mem_cons, List.not_mem_nil, or_false] at hr
    obtain rfl | rfl | rfl := hr <;> exact fresh_token rfl
  · intro r hr _
    simp only [List.mem_cons, List.not_mem_nil, or_false] at hr
    obtain rfl | rfl | rfl := hr
    · exact faithful (by decide +kernel) (by decide +kernel) fun c hc =>
        absurd (hnone.1 ▸ hc) List.not_mem_nil
    · exact faithful (by decide +kernel) (by decide +kernel) fun c hc =>
        absurd (hnone.2 ▸ hc) List.not_mem_nil
    · refine faithful (by decide +kernel) (by decide +kernel) fun c hc => ?_
      obtain rfl := List.mem_singleton.mp (hfresh ▸ hc)
      decide +kernel

/-- A rejected file that was delivered as `a-x.json`. -/
def foreign : Str := rejectedName [0x7b] (Str.ofString "a-x.json")

def besideForeign : World :=
  ⟨fun p => if p = .inbox then alone else if p = .rejected then Directory.empty.put foreign [0x7b]
    else .empty, 0, []⟩

/-- The proof of `x.json` is rejected for it. -/
theorem rejected_for_another :
    ∃ r, (consumeOrphanProof env companion [] besideForeign).1 = .ok [r] ∧ r.path = companion.path ∧
    besideForeign.claimed companion.path = some data ∧ parseOts data = .ok proof ∧
      ¬OwnRejected besideForeign companion.name := by
  refine ⟨⟨companion.path, .foreignProof, companion.name, data, "its manifest was rejected"⟩,
    by decide +kernel, rfl, by decide +kernel, by decide +kernel, ?_⟩
  rintro ⟨n, hsome, hex, hlength, -, rfl⟩
  have hmem := Directory.mem_names_iff.mpr (Option.isSome_iff_exists.mp hsome)
  have hnames : (besideForeign.files .rejected).names = [foreign] := by decide +kernel
  have heq := congrArg List.length (List.mem_singleton.mp (hnames ▸ hmem))
  rw [List.length_append, hlength] at heq
  exact absurd heq (by decide +kernel)

end Mispaired

end OtsServer.Selfstamp
