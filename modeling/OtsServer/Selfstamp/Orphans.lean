import OtsServer.Selfstamp.Consumed

/-!
# Proofs left alone

The claimed proofs that no manifest took: one of a copy that is held is kept with it; one of
nothing held goes to `rejected` when a rejected name ends like its manifest's, and waits otherwise.
-/

namespace OtsServer.Selfstamp

open Prog (Sees)

/-! ## Names -/

/-- A name without the `.ots`. -/
abbrev stem (name : Str) : Str := name.take (name.length - Str.ots.length)

section Names

variable {path name : Str}

theorem exists_of_afterDash {text rest : Str} (h : afterDash text = some rest) :
    ∃ front, text = front ++ dash :: rest := by
  induction text with
  | nil => exact nomatch h
  | cons c text ih =>
      rw [afterDash] at h
      split_ifs at h with hc
      · obtain rfl := Option.some.inj h
        exact ⟨[], by rw [hc]; rfl⟩
      · obtain ⟨front, rfl⟩ := ih h
        exact ⟨c :: front, rfl⟩

theorem exists_of_deliveredName (h : deliveredName path = some name) :
    ∃ front, path = front ++ dash :: name := by
  obtain ⟨rest, hrest, hname⟩ := Option.bind_eq_some_iff.mp h
  obtain ⟨front, rfl⟩ := exists_of_afterDash hrest
  obtain ⟨front', rfl⟩ := exists_of_afterDash hname
  exact ⟨front ++ dash :: front', by rw [List.append_assoc, List.cons_append]⟩

/-- A suffix without a dash is a suffix of what was delivered. -/
theorem suffix_deliveredName {suffix : Str} (hclaim : isClaim suffix path = true)
    (hdash : dash ∉ suffix) (h : deliveredName path = some name) : suffix <:+ name := by
  rw [isClaim, Bool.and_eq_true] at hclaim
  have hsuffix := List.isSuffixOf_iff_suffix.mp hclaim.2
  obtain ⟨front, rfl⟩ := exists_of_deliveredName h
  obtain hall | hsome := List.suffix_or_suffix_of_suffix hsuffix (List.suffix_append front
      (dash :: name))
  · obtain rfl | hname := List.suffix_cons_iff.mp hall
    · exact absurd (List.mem_cons_self ..) hdash
    · exact hname
  · exact absurd (hsome.subset (List.mem_cons_self ..)) hdash

theorem stem_append (name : Str) : stem (name ++ Str.ots) = name := by
  rw [stem, List.length_append, Nat.add_sub_cancel, List.take_left]

theorem isClaim_stem (h : isClaim jsonOts path = true) : isClaim Str.json (stem path) = true := by
  rw [isClaim, Bool.and_eq_true] at h
  have hstart := List.isPrefixOf_iff_prefix.mp h.1
  obtain ⟨front, rfl⟩ := List.isSuffixOf_iff_suffix.mp h.2
  have hstem : stem (front ++ jsonOts) = front ++ Str.json := by
    rw [jsonOts, ← List.append_assoc, stem_append]
  rw [hstem, isClaim, Bool.and_eq_true]
  refine ⟨List.isPrefixOf_iff_prefix.mpr ?_, List.isSuffixOf_iff_suffix.mpr (List.suffix_append ..)⟩
  obtain hfront | ⟨rest,
    hrest⟩ := List.prefix_or_prefix_of_prefix hstart (List.prefix_append front jsonOts)
  · exact hfront.trans (List.prefix_append ..)
  · -- A dash ends what claims begin with, and the suffix has none.
    rw [← hrest] at hstart ⊢
    have hmem := (List.prefix_append_right_inj front).mp hstart
    cases rest with
    | nil =>
        rw [List.append_nil]
        exact List.prefix_append ..
    | cons c rest =>
        have hlast := congrArg List.getLast? hrest
        rw [List.getLast?_append_of_ne_nil _ (List.cons_ne_nil c rest)] at hlast
        exact absurd (hmem.subset (List.mem_of_getLast? (hlast.trans rfl)))
          (by decide : dash ∉ jsonOts)

/-- What a companion is of: the name of a manifest. -/
theorem exists_manifestName (hclaim : isClaim jsonOts path = true)
    (h : deliveredName path = some name) :
    ∃ front, stem name = front ++ Str.json ∧ name = front ++ Str.json ++ Str.ots := by
  obtain ⟨front, rfl⟩ := suffix_deliveredName hclaim (by decide) h
  exact ⟨front, by rw [jsonOts, ← List.append_assoc, stem_append],
    by rw [jsonOts, List.append_assoc]⟩

end Names

/-! ## Rejected names -/

/-- A rejected name ends like that of the companion's manifest. -/
def WasRejected (s : Desk) (name : Str) : Prop :=
  ∃ n, (s.refused n).isSome ∧ Str.endsWith (dash :: stem name) n = true

section Rejected

variable (env : Env) {s t : Desk} {path name : Str} {E : Fault → Desk → Prop}

theorem desk_manifestWasRejected {Q : Bool → Desk → Prop}
    (hok : ∀ found : Bool, (found = true ↔ WasRejected s name) → Q found s) (herr : ∀ e, E e s) :
    Sees World.desk (manifestWasRejected env name) Q E s := by
  refine .bind (desk_fileCall env ⟨?_⟩ herr)
  rintro w rfl
  refine hok _ ?_
  rw [List.any_eq_true]
  refine exists_congr fun n => and_congr_left fun _ => ?_
  rw [Directory.mem_names_iff, Option.isSome_iff_exists]
  rfl

/-- Names that end like a manifest's do not end in `.ots`. -/
theorem endsWith_ots_of_stem (hclaim : isClaim jsonOts path = true)
    (hname : deliveredName path = some name) {n : Str}
    (hn : Str.endsWith (dash :: stem name) n = true) : Str.endsWith Str.ots n = false := by
  obtain ⟨front, hstem, -⟩ := exists_manifestName hclaim hname
  rw [hstem] at hn
  obtain ⟨start, rfl⟩ := List.isSuffixOf_iff_suffix.mp hn
  by_contra hots
  obtain ⟨start', hstart'⟩ := List.isSuffixOf_iff_suffix.mp (Bool.not_eq_false _ ▸ hots)
  have hlast := congrArg List.getLast? hstart'
  rw [← List.cons_append, ← List.append_assoc, List.getLast?_append_of_ne_nil _ (by decide),
    List.getLast?_append_of_ne_nil _ (by decide)] at hlast
  exact absurd hlast (by decide)

theorem wasRejected_congr (hclaim : isClaim jsonOts path = true)
    (hname : deliveredName path = some name)
    (h : ∀ n, Str.endsWith Str.ots n = false → ((t.refused n).isSome ↔ (s.refused n).isSome)) :
    WasRejected t name ↔ WasRejected s name :=
  exists_congr fun n => and_congr_left fun hn => h n (endsWith_ots_of_stem hclaim hname hn)

end Rejected

/-! ## The loop -/

/-- What the pass does with the proofs left alone, when no call of it fails. -/
structure Swept (digest : Bytes) (held : Held) (proofs : List Claim) (s : Desk)
    (rejected : List Rejected) (t : Desk) : Prop where
  heldOn : HeldOn digest t.shelf held
  better : Better digest s.shelf t.shelf
  refused_iff : ∀ n, Str.endsWith Str.ots n = false → ((t.refused n).isSome ↔ (s.refused n).isSome)
  others : ∀ path, (∀ c ∈ proofs, path ≠ c.path) → t.claim path = s.claim path
  rejects : ∀ r ∈ rejected, ∃ c ∈ proofs, r.path = c.path
  kept : ∀ c ∈ proofs, ∀ data proof, s.claim c.path = some data → parseOts data = .ok proof →
    proof.digest = digest → (held.lookup digest).isSome →
      Answered digest t.shelf data ∧ t.claim c.path = none ∧ ∀ r ∈ rejected, r.path ≠ c.path
  waits : ∀ c ∈ proofs, ∀ data proof, s.claim c.path = some data → parseOts data = .ok proof →
    proof.digest = digest → held.lookup digest = none → ¬WasRejected s c.name →
    t.claim c.path = some data ∧ ∀ r ∈ rejected, r.path ≠ c.path
  turned : ∀ c ∈ proofs, ∀ data proof, s.claim c.path = some data → parseOts data = .ok proof →
    proof.digest = digest → held.lookup digest = none → WasRejected s c.name →
    t.claim c.path = none ∧ ∃ r ∈ rejected, r.path = c.path

section Loop

variable (env : Env) {digest : Bytes} {s t : Desk} {c : Claim} {held : Held} {proofs : List Claim}

theorem Swept.nil (h : HeldOn digest s.shelf held) : Swept digest held [] s [] s where
  heldOn := h
  better := .refl digest _
  refused_iff _ _ := Iff.rfl
  others _ _ := rfl
  rejects _ h := nomatch h
  kept _ h := nomatch h
  waits _ h := nomatch h
  turned _ h := nomatch h

/-- A proof that was claimed. -/
structure IsProof (c : Claim) : Prop where
  claim : isClaim jsonOts c.path = true
  name : deliveredName c.path = some c.name

theorem forall_single {P : Claim → Bytes → Proof → Prop} {data : Bytes}
    (hdata : s.claim c.path = some data) (h : ∀ proof, parseOts data = .ok proof → P c data proof) :
    ∀ c' ∈ [c], ∀ data' proof, s.claim c'.path = some data' → parseOts data' = .ok proof →
      P c' data' proof := by
  intro c' hc' data' proof hdata' hparse
  obtain rfl := List.mem_singleton.mp hc'
  obtain rfl := Option.some.inj (hdata.symm.trans hdata')
  exact h proof hparse

/-- A claim is moved to `rejected`. -/
theorem Swept.reject (hc : IsProof c) {data : Bytes} (hdata : s.claim c.path = some data)
    (h : HeldOn digest s.shelf held) (hwhy : ∀ proof, parseOts data = .ok proof →
      held.lookup proof.digest = none ∧ WasRejected s c.name) (reason : String) :
    Swept digest held [c] s [⟨c.path, .foreignProof, c.name, data, reason⟩]
      (s.reject c.path c.name data) := by
  have hfile := fun n =>
    arrive_file s.shelf (p := .rejected) nofun (rejectedName data c.name) n data
  obtain ⟨front, -, hname⟩ := exists_manifestName hc.claim hc.name
  refine
    { heldOn := h.congr fun n _ => hfile n
      better := .of_file hfile
      refused_iff :=
        fun n hn => (reject_refused ..).trans (or_iff_right (hname ▸ ne_rejectedName hn data _))
      others := fun path hpath => s.unclaim_of_ne (hpath c (List.mem_singleton_self c))
      rejects := fun r hr => ⟨c, List.mem_singleton_self c, List.mem_singleton.mp hr ▸ rfl⟩
      kept := forall_single hdata fun proof hparse hdigest hsome => ?_
      waits := forall_single hdata fun proof hparse _ _ hnot => absurd (hwhy proof hparse).2 hnot
      turned := forall_single hdata fun _ _ _ _ _ =>
        ⟨s.unclaim_self c.path, _, List.mem_singleton_self _, rfl⟩ }
  rw [← hdigest, (hwhy proof hparse).1] at hsome
  exact nomatch hsome

/-- A proof of nothing that is held stays. -/
theorem Swept.wait {data : Bytes} {proof : Proof} (hdata : s.claim c.path = some data)
    (hparse : parseOts data = .ok proof) (h : HeldOn digest s.shelf held)
    (hnone : held.lookup proof.digest = none) (hnot : ¬WasRejected s c.name) :
    Swept digest held [c] s [] s := by
  refine
    { heldOn := h
      better := .refl digest _
      refused_iff := fun _ _ => Iff.rfl
      others := fun _ _ => rfl
      rejects := fun _ hr => nomatch hr
      kept := forall_single hdata fun proof' hparse' hdigest hsome => ?_
      waits := forall_single hdata fun _ _ _ _ _ => ⟨hdata, fun _ hr => nomatch hr⟩
      turned := forall_single hdata fun _ _ _ _ hwas => absurd hwas hnot }
  obtain rfl := Except.ok.inj (hparse.symm.trans hparse')
  rw [← hdigest, hnone] at hsome
  exact nomatch hsome

/-- A proof of a copy is kept with it. -/
theorem Swept.keep {data raw : Bytes} {proof : Proof} {copy : Str} {shelf : Shelf}
    (hdata : s.claim c.path = some data) (hparse : parseOts data = .ok proof)
    (h : HeldOn digest s.shelf held) (hlookup : held.lookup proof.digest = some copy)
    (hraw : Sha256.digest raw = proof.digest) (hkept : Kept copy raw data s.shelf shelf) :
    Swept digest held [c] s [] (Desk.unclaim { s with shelf := shelf } c.path) := by
  have hmine : s.shelf.Copy digest copy → Sha256.digest raw = digest := fun hcopy =>
    hraw.trans (h.only _ _ hlookup hcopy)
  have hbetter := hkept.delivered.better hmine
  have hfound : ∀ proof', parseOts data = .ok proof' → proof'.digest = digest →
      held.lookup digest = some copy := by
    intro proof' hparse' hdigest
    obtain rfl := Except.ok.inj (hparse.symm.trans hparse')
    exact hdigest ▸ hlookup
  refine
    { heldOn := h.congr fun n hn => hkept.delivered.copies hn
      better := hbetter
      refused_iff := fun n _ => Iff.rfl
      others := fun path hpath => Desk.unclaim_of_ne _ (hpath c (List.mem_singleton_self c))
      rejects := fun _ hr => nomatch hr
      kept := forall_single hdata fun proof' hparse' hdigest _ =>
        ⟨?_, Desk.unclaim_self _ _, fun _ hr => nomatch hr⟩
      waits := forall_single hdata fun proof' hparse' hdigest hnone =>
        nomatch (hfound proof' hparse' hdigest).symm.trans hnone
      turned := forall_single hdata fun proof' hparse' hdigest hnone =>
        nomatch (hfound proof' hparse' hdigest).symm.trans hnone }
  obtain rfl := Except.ok.inj (hparse.symm.trans hparse')
  refine ⟨copy, raw, hbetter.copy copy (h.copy copy (hdigest ▸ hlookup)), hraw.trans hdigest, ?_⟩
  exact hkept.strength ▸ le_max_right ..

theorem gives_consumeOrphanProof (hc : IsProof c) (h : HeldOn digest s.shelf held) :
    Gives (consumeOrphanProof env c held) (Swept digest held [c] s) s := by
  have hdot := isDot_of_isClaim hc.claim
  refine .bind (desk_readClaim env hdot (fun data hdata => ?_) fun _ => trivial)
  split
  next reason hparse =>
    have hnot : ∀ proof, parseOts data ≠ .ok proof := fun proof hok => nomatch hparse.symm.trans hok
    refine .bind (desk_quarantine env hdot hdata (.pure ?_) (fun _ => trivial) fun _ => trivial)
    exact .reject hc hdata h (fun proof hok => absurd hok (hnot proof)) reason
  next => exact .raise trivial
  next proof hparse =>
    cases hlookup : held.lookup proof.digest with
    | none =>
        refine .bind (desk_manifestWasRejected env (fun found hfound =>
              .ite (fun hyes => ?_) fun hno => .pure ?_) fun _ => trivial)
        · refine .bind
            (desk_quarantine env hdot hdata (.pure ?_) (fun _ => trivial) fun _ => trivial)
          refine .reject hc hdata h (fun proof' hok => ?_) _
          obtain rfl := Except.ok.inj (hparse.symm.trans hok)
          exact ⟨hlookup, hfound.mp hyes⟩
        · exact .wait hdata hparse h hlookup fun hwas => hno (hfound.mpr hwas)
    | some copy =>
        obtain ⟨hjson, hcopydot⟩ := h.name _ _ hlookup
        obtain ⟨raw, hraw⟩ := h.key _ _ hlookup
        have hkeep : Sees World.shelf (keepForeignProof env copy data proof.digest) (fun _ =>
              Kept copy raw data s.shelf) (fun _ => Delivered copy raw data s.shelf) s.shelf :=
            hraw ▸ keepForeignProof_sees env hjson hcopydot s.shelf
        refine .bind (desk_onShelf (.keepForeignProof env copy data _)
            (hkeep.mono (fun _ shelf hkept => ?_) fun _ _ _ => trivial))
        exact .bind (desk_removeFile env hdot (.pure (.keep hdata hparse h hlookup hraw hkept))
            fun _ => trivial)

/-- No manifest is claimed. -/
def NoManifest (s : Desk) : Prop := ∀ path, isClaim Str.json path = true → s.claim path = none

theorem gives_consumeProof (hc : IsProof c) (hnone : NoManifest s)
    (h : HeldOn digest s.shelf held) :
    Gives (consumeProof env c held) (fun report t => report.failures = 0 →
        Swept digest held [c] s report.rejected t) s := by
  have hstem := isClaim_stem hc.claim
  refine .bind (desk_claimExists env (isDot_of_isClaim hstem)
      (.ite (fun hthere => ?_) fun _ => ?_) fun _ => trivial)
  · rw [hnone _ hstem] at hthere
    exact nomatch hthere
  · refine .bind (desk_attempt ((gives_consumeOrphanProof env hc h).mono
          (fun rejected t ht => .pure fun _ => ht) fun e t _ => ?_))
    split_ifs
    exact .pure fun hfailed => nomatch hfailed

/-- One proof, then the others. -/
theorem Swept.cons {u : Desk} {rejected rejected' : List Rejected}
    (h : Swept digest held [c] s rejected t) (hrest : Swept digest held proofs t rejected' u)
    (hne : ∀ d ∈ proofs, c.path ≠ d.path) (hproofs : ∀ d ∈ c :: proofs, IsProof d) :
    Swept digest held (c :: proofs) s (rejected ++ rejected') u := by
  have hclaim : u.claim c.path = t.claim c.path := hrest.others c.path hne
  have hsame : ∀ d ∈ proofs, t.claim d.path = s.claim d.path := fun d hd =>
    h.others d.path fun c' hc' => List.mem_singleton.mp hc' ▸ (hne d hd).symm
  have hwas : ∀ d ∈ proofs, (WasRejected t d.name ↔ WasRejected s d.name) := fun d hd =>
    have hd := hproofs d (List.mem_cons_of_mem c hd)
    wasRejected_congr hd.claim hd.name h.refused_iff
  have hself := List.mem_singleton_self c
  -- Neither half rejects what the other half is about.
  have hrejected : ∀ r ∈ rejected, ∀ d ∈ proofs, r.path ≠ d.path := by
    intro r hr d hd
    obtain ⟨c', hc', hpath⟩ := h.rejects r hr
    obtain rfl := List.mem_singleton.mp hc'
    exact hpath ▸ hne d hd
  have hrejected' : ∀ r ∈ rejected', r.path ≠ c.path := by
    intro r hr
    obtain ⟨d, hd, hpath⟩ := hrest.rejects r hr
    exact hpath ▸ (hne d hd).symm
  have hboth : ∀ {path : Str}, (∀ r ∈ rejected, r.path ≠ path) → (∀ r ∈ rejected', r.path ≠ path) →
      ∀ r ∈ rejected ++ rejected', r.path ≠ path := fun h h' r hr =>
    (List.mem_append.mp hr).elim (h r) (h' r)
  refine ⟨hrest.heldOn, h.better.trans hrest.better, fun n hn =>
    (hrest.refused_iff n hn).trans (h.refused_iff n hn), ?_, ?_, ?_, ?_, ?_⟩
  · intro path hpath
    refine (hrest.others path fun d hd => hpath d (List.mem_cons_of_mem c hd)).trans
      (h.others path fun c' hc' => ?_)
    exact List.mem_singleton.mp hc' ▸ hpath c (List.mem_cons_self ..)
  · intro r hr
    obtain hr | hr := List.mem_append.mp hr
    · obtain ⟨c', hc', hpath⟩ := h.rejects r hr
      exact ⟨c, List.mem_cons_self .., List.mem_singleton.mp hc' ▸ hpath⟩
    · obtain ⟨d, hd, hpath⟩ := hrest.rejects r hr
      exact ⟨d, List.mem_cons_of_mem c hd, hpath⟩
  · intro d hd data proof hdata hparse hdigest hsome
    obtain rfl | hd := List.mem_cons.mp hd
    · obtain ⟨hanswered, hgone, hr⟩ := h.kept d hself data proof hdata hparse hdigest hsome
      exact ⟨hanswered.better hrest.better, hclaim.trans hgone, hboth hr hrejected'⟩
    · obtain ⟨hanswered, hgone, hr⟩ :=
        hrest.kept d hd data proof ((hsame d hd).trans hdata) hparse hdigest hsome
      exact ⟨hanswered, hgone, hboth (fun r hr => hrejected r hr d hd) hr⟩
  · intro d hd data proof hdata hparse hdigest hnone hnot
    obtain rfl | hd := List.mem_cons.mp hd
    · obtain ⟨hstays, hr⟩ := h.waits d hself data proof hdata hparse hdigest hnone hnot
      exact ⟨hclaim.trans hstays, hboth hr hrejected'⟩
    · obtain ⟨hstays, hr⟩ := hrest.waits d hd data proof
        ((hsame d hd).trans hdata) hparse hdigest hnone (mt (hwas d hd).mp hnot)
      exact ⟨hstays, hboth (fun r hr => hrejected r hr d hd) hr⟩
  · intro d hd data proof hdata hparse hdigest hnone hyes
    obtain rfl | hd := List.mem_cons.mp hd
    · obtain ⟨hgone, r, hr, hpath⟩ := h.turned d hself data proof hdata hparse hdigest hnone hyes
      exact ⟨hclaim.trans hgone, r, List.mem_append_left _ hr, hpath⟩
    · obtain ⟨hgone, r, hr, hpath⟩ := hrest.turned d hd data proof
        ((hsame d hd).trans hdata) hparse hdigest hnone ((hwas d hd).mpr hyes)
      exact ⟨hgone, r, List.mem_append_right _ hr, hpath⟩

theorem gives_consumeProofs (hproofs : ∀ c ∈ proofs, IsProof c)
    (hne : proofs.Pairwise fun c d => c.path ≠ d.path)
    (hnone : NoManifest s) (h : HeldOn digest s.shelf held) :
    Gives (consumeProofs env held proofs) (fun report t => report.failures = 0 →
        Swept digest held proofs s report.rejected t) s := by
  induction proofs generalizing s with
  | nil => exact .pure fun _ => .nil h
  | cons c cs ih =>
      obtain ⟨hc, hcs⟩ := List.pairwise_cons.mp hne
      have hmem : c ∈ c :: cs := List.mem_cons_self ..
      refine .bind ((gives_consumeProof env (hproofs c hmem) hnone h).mono
          (fun report t ht => ?_) fun _ _ h => h)
      by_cases hfailures : report.failures = 0
      · have hswept := ht hfailures
        have hnone' : NoManifest t := fun path hpath => by
          rw [hswept.others path fun c' hc' =>
            List.mem_singleton.mp hc' ▸ claim_ne hpath (hproofs c hmem).claim]
          exact hnone path hpath
        have hrest := ih (fun d hd => hproofs d (List.mem_cons_of_mem c hd))
          hcs hnone' hswept.heldOn
        refine .bind (hrest.mono (fun report' u hu => .pure fun hsum => ?_) fun _ _ h => h)
        exact hswept.cons (hu (Nat.add_eq_zero_iff.mp hsum).2) hc hproofs
      · refine .bind ((gives_any _ t).mono (fun report' u _ => .pure fun hsum => ?_) fun _ _ h => h)
        exact absurd (Nat.add_eq_zero_iff.mp hsum).1 hfailures

end Loop

end OtsServer.Selfstamp
