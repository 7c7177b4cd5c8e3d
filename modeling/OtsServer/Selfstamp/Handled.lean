import OtsServer.Selfstamp.Reached

/-!
# A claimed proof in any pass

What a pass over the inbox leaves of a claimed proof and of the copies it is of, whatever fails in
the pass and wherever it stops. A manifest is consumed in steps, and after each of them the proof
is claimed still, or it is gone and a copy answers it.
-/

namespace OtsServer.Selfstamp

open Prog (Sees)

/-! ## The proof -/

/-- The proof is claimed, or it is gone and a copy answers it. -/
def Safe (p : Claim) (data digest : Bytes) (s : Desk) : Prop :=
  s.claim p.path = some data ∨ s.claim p.path = none ∧ Answered digest s.shelf data

/-- A manifest that may take the proof for its companion is one that the proof is of. -/
def Suits (loads : Loads) (p : Claim) (data digest : Bytes) (s : Desk) (c : Claim) : Prop :=
  ∀ raw, p.name = c.name ++ Str.ots → s.claim c.path = some raw →
    Fits loads raw data ∧ Sha256.digest raw = digest

/-- The proof is safe, and each of the manifests that may take it is one that it is of. -/
structure Guarded (loads : Loads) (p : Claim) (data digest : Bytes) (manifests : List Claim)
    (s : Desk) : Prop where
  safe : Safe p data digest s
  suits : ∀ c ∈ manifests, Suits loads p data digest s c

/-- What is left of an inbox when the consuming of claimed manifests has come to some point. -/
structure Handled (loads : Loads) (p : Claim) (data digest : Bytes) (manifests : List Claim)
    (s t : Desk) : Prop where
  better : Better digest s.shelf t.shelf
  others : ∀ path, isClaim Str.json path = true → (∀ c ∈ manifests, path ≠ c.path) →
    t.claim path = s.claim path
  rejects : ∀ n, Str.endsWith Str.ots n = false → (t.refused n).isSome →
    (s.refused n).isSome ∨ ∃ c ∈ manifests, Refusal loads s c n
  refused : ∀ n, (s.refused n).isSome → (t.refused n).isSome
  gone : ∀ path, s.claim path = none → t.claim path = none
  files : ∀ name, Str.endsWith Str.json name = true →
    t.shelf.file .witnessed name = s.shelf.file .witnessed name ∨
    ∃ c ∈ manifests, ∃ m raw, Valid loads s c m raw ∧ name = copyName m raw ∧
      t.shelf.file .witnessed name = some raw
  consumed : ∀ c ∈ manifests, ∀ m raw, Valid loads s c m raw → t.claim c.path = none →
    Sha256.digest raw = digest → OnFile digest t
  safe : Guarded loads p data digest manifests s → Safe p data digest t

section Steps

variable {loads : Loads} {p c : Claim} {data digest : Bytes} {manifests : List Claim}
  {s t u : Desk} {path : Str}

theorem Handled.refl (s : Desk) : Handled loads p data digest manifests s s where
  better := .refl digest _
  others _ _ _ := rfl
  rejects _ _ := .inl
  refused _ := id
  gone _ := id
  files _ _ := .inl rfl
  consumed _ _ _ _ hvalid hgone := nomatch hvalid.1.symm.trans hgone
  safe := Guarded.safe

theorem Safe.better {shelf : Shelf} (h : Safe p data digest t)
    (hbetter : Better digest t.shelf shelf) : Safe p data digest { t with shelf := shelf } :=
  h.imp_right fun h => ⟨h.1, h.2.better hbetter⟩

theorem Desk.unclaim_none (t : Desk) (path : Str) {path' : Str} (h : t.claim path' = none) :
    (t.unclaim path).claim path' = none := by
  by_cases heq : path' = path
  · rw [heq, t.unclaim_self]
  · rw [t.unclaim_of_ne heq, h]

theorem OnFile.better (h : OnFile digest s) (hbetter : Better digest s.shelf t.shelf) :
    OnFile digest t :=
  h.imp hbetter.copy

/-- The copies and what is beside them change. -/
theorem Handled.shelf (h : Handled loads p data digest manifests s t) {shelf : Shelf}
    (hbetter : Better digest t.shelf shelf)
    (hfiles : ∀ name, Str.endsWith Str.json name = true →
      shelf.file .witnessed name = t.shelf.file .witnessed name ∨
      ∃ c ∈ manifests, ∃ m raw, Valid loads s c m raw ∧ name = copyName m raw ∧
        shelf.file .witnessed name = some raw) :
    Handled loads p data digest manifests s { t with shelf := shelf } where
  better := h.better.trans hbetter
  others := h.others
  rejects := h.rejects
  refused := h.refused
  gone := h.gone
  files name hname := by
    obtain hsame | hnew := hfiles name hname
    · exact hsame ▸ h.files name hname
    · exact .inr hnew
  consumed c hc m raw hvalid hgone hdigest :=
    (h.consumed c hc m raw hvalid hgone hdigest).better hbetter
  safe hs := (h.safe hs).better hbetter

theorem unclaim_others (h : Handled loads p data digest manifests s t)
    (hpath : isClaim Str.json path = true → ∃ c ∈ manifests, path = c.path) (path' : Str)
    (hclaim : isClaim Str.json path' = true) (hother : ∀ c ∈ manifests, path' ≠ c.path) :
    (t.unclaim path).claim path' = s.claim path' := by
  have hne : path' ≠ path := by
    rintro rfl
    obtain ⟨c, hc, heq⟩ := hpath hclaim
    exact hother c hc heq
  exact (t.unclaim_of_ne hne).trans (h.others path' hclaim hother)

/-- A claim is removed: a manifest's, whose copy is on file, or a proof that a copy answers. -/
theorem Handled.unclaim (h : Handled loads p data digest manifests s t)
    (hpath : isClaim Str.json path = true → ∃ c ∈ manifests, path = c.path)
    (hcopy : ∀ c ∈ manifests, c.path = path → ∀ m raw, Valid loads s c m raw →
      Sha256.digest raw = digest → OnFile digest t)
    (hanswered : Guarded loads p data digest manifests s → p.path = path →
      Answered digest t.shelf data) :
    Handled loads p data digest manifests s (t.unclaim path) where
  better := h.better
  others := unclaim_others h hpath
  rejects := h.rejects
  refused := h.refused
  gone path' hnone := t.unclaim_none path (h.gone path' hnone)
  files := h.files
  consumed c hc m raw hvalid hgone hdigest := by
    by_cases heq : c.path = path
    · exact hcopy c hc heq m raw hvalid hdigest
    · exact h.consumed c hc m raw hvalid ((t.unclaim_of_ne heq).symm.trans hgone) hdigest
  safe hs := by
    by_cases heq : p.path = path
    · exact .inr ⟨heq ▸ t.unclaim_self path, hanswered hs heq⟩
    · rw [Safe, t.unclaim_of_ne heq]
      exact h.safe hs

/-- A claim is moved to `rejected`. -/
theorem Handled.reject (h : Handled loads p data digest manifests s t) {name : Str} {found : Bytes}
    (hpath : isClaim Str.json path = true → ∃ c ∈ manifests, path = c.path)
    (hname : Str.endsWith Str.ots (rejectedName found name) = true ∨
      ∃ c ∈ manifests, Refusal loads s c (rejectedName found name))
    (hvalid : ∀ c ∈ manifests, c.path = path → ∀ m raw, ¬Valid loads s c m raw)
    (hne : Guarded loads p data digest manifests s → p.path ≠ path) :
    Handled loads p data digest manifests s (t.reject path name found) := by
  have hfile := fun n =>
    arrive_file t.shelf (p := .rejected) nofun (rejectedName found name) n found
  have hbetter : Better digest t.shelf (t.reject path name found).shelf := .of_file hfile
  refine
    { better := h.better.trans hbetter
      others := unclaim_others h hpath
      rejects := fun n hn hsome => ?_
      refused := fun n hsome => (reject_refused t path name found n).mpr (.inr (h.refused n hsome))
      gone := fun path' hnone => t.unclaim_none path (h.gone path' hnone)
      files := fun n hn => (hfile n).symm ▸ h.files n hn
      consumed := fun c hc m raw hv hgone hdigest => ?_
      safe := fun hs => ?_ }
  · obtain rfl | hsome := (reject_refused t path name found n).mp hsome
    · exact .inr (hname.resolve_left fun hots => nomatch hn.symm.trans hots)
    · exact h.rejects n hn hsome
  · have hother : c.path ≠ path := fun heq => hvalid c hc heq m raw hv
    have hgone' := (t.unclaim_of_ne hother).symm.trans hgone
    exact (h.consumed c hc m raw hv hgone' hdigest).better hbetter
  · have hclaim : (t.reject path name found).claim p.path = t.claim p.path :=
      t.unclaim_of_ne (hne hs)
    rw [Safe, hclaim]
    exact (h.safe hs).imp_right fun h => ⟨h.1, h.2.better hbetter⟩

/-- After a manifest the proof is safe still, and the others suit it as before. -/
theorem Guarded.tail {cs : List Claim} (hs : Guarded loads p data digest (c :: cs) s)
    (h : Handled loads p data digest [c] s t) (hsame : ∀ d ∈ cs, t.claim d.path = s.claim d.path) :
    Guarded loads p data digest cs t := by
  obtain ⟨hc, hcs⟩ := List.forall_mem_cons.mp hs.suits
  refine ⟨h.safe ⟨hs.safe, fun d hd => List.mem_singleton.mp hd ▸ hc⟩,
    fun d hd raw hname hraw => ?_⟩
  exact hcs d hd raw hname ((hsame d hd).symm.trans hraw)

/-- One manifest, then the others. -/
theorem Handled.cons {cs : List Claim} (h : Handled loads p data digest [c] s t)
    (hrest : Handled loads p data digest cs t u) (hc : isClaim Str.json c.path = true)
    (hcs : ∀ d ∈ cs, isClaim Str.json d.path = true) (hne : ∀ d ∈ cs, c.path ≠ d.path) :
    Handled loads p data digest (c :: cs) s u := by
  have hsame : ∀ d ∈ cs, t.claim d.path = s.claim d.path := fun d hd =>
    h.others d.path (hcs d hd) fun c' hc' => List.mem_singleton.mp hc' ▸ (hne d hd).symm
  have hself : u.claim c.path = t.claim c.path := hrest.others c.path hc hne
  have hmem := List.mem_singleton_self c
  refine
    { better := h.better.trans hrest.better
      others := fun path hpath hother => ?_
      rejects := fun n hn hsome => ?_
      refused := fun n hsome => hrest.refused n (h.refused n hsome)
      gone := fun path hnone => hrest.gone path (h.gone path hnone)
      files := fun name hname => ?_
      consumed := fun d hd m raw hvalid hgone hdigest => ?_
      safe := fun hs => hrest.safe (hs.tail h hsame) }
  · obtain ⟨hc', hcs'⟩ := List.forall_mem_cons.mp hother
    apply (hrest.others path hpath hcs').trans
    exact h.others path hpath fun d hd => List.mem_singleton.mp hd ▸ hc'
  · obtain hsome | ⟨d, hd, raw, hraw, hnot, hname⟩ := hrest.rejects n hn hsome
    · apply (h.rejects n hn hsome).imp_right
      rintro ⟨d, hd, hrefusal⟩
      exact ⟨d, List.mem_singleton.mp hd ▸ List.mem_cons_self .., hrefusal⟩
    · exact .inr ⟨d, List.mem_cons_of_mem c hd, raw, (hsame d hd).symm.trans hraw, hnot, hname⟩
  · obtain hsame' | ⟨d, hd, m, raw, hvalid, hcopy⟩ := hrest.files name hname
    · rw [hsame']
      apply (h.files name hname).imp_right
      rintro ⟨d, hd, hnew⟩
      exact ⟨d, List.mem_singleton.mp hd ▸ List.mem_cons_self .., hnew⟩
    · refine .inr ⟨d, List.mem_cons_of_mem c hd, m, raw, ⟨?_, hvalid.2⟩, hcopy⟩
      exact (hsame d hd).symm.trans hvalid.1
  · obtain rfl | hd := List.mem_cons.mp hd
    · apply (h.consumed d hmem m raw hvalid (hself.symm.trans hgone) hdigest).better hrest.better
    · exact hrest.consumed d hd m raw ⟨(hsame d hd).trans hvalid.1, hvalid.2⟩ hgone hdigest

end Steps

/-! ## One manifest -/

/-- A claim that a manifest may take for its companion. -/
structure IsCompanion (c : Claim) (path : Str) : Prop where
  claim : isClaim jsonOts path = true
  name : deliveredName path = some (c.name ++ Str.ots)

section Manifest

variable (env : Env) {loads : Loads} {p c : Claim} {data digest raw : Bytes} {s t : Desk}
  {held held' : Held} {path : Str} {m : Items}

theorem desk_companion (hc : IsManifest c) {Q : Option Str → Desk → Prop}
    {E : Fault → Desk → Prop}
    (hok : ∀ found : Option Str, IsCompanion c (found.getD (c.path ++ Str.ots)) → Q found s)
    (herr : ∀ e, (ClaimsNamed s jsonOts → Caught env e) → E e s) :
    Sees World.desk (companionClaim env c.path c.name) Q E s := by
  have hots := isClaim_ots hc.claim
  have hbeside : IsCompanion c (c.path ++ Str.ots) := ⟨hots, deliveredName_append hc.name⟩
  have hcaught : Raises (Caught env) (pathExists env .inbox (c.path ++ Str.ots)) :=
    .pathExists env (fileFaults_caught env) _ _
  have hexists := hcaught.sees (desk_claimExists env (Q := fun _ t => t = s) (E := fun _ t => t = s)
    (isDot_of_isClaim hots) rfl fun _ => rfl)
  refine .bind (hexists.mono ?_ ?_)
  · rintro there _ rfl
    refine .ite (fun _ => .pure (hok _ hbeside)) fun _ => ?_
    refine .bind (desk_claims env (fun found hfound => .pure (hok _ ?_)) herr)
    cases hfind : found.find? fun q => q.name = c.name ++ Str.ots with
    | none => exact hbeside
    | some q =>
        obtain ⟨hclaim, hname, -⟩ := (hfound.mem_iff q).mp (List.mem_of_find?_eq_some hfind)
        have hfits := List.find?_some (p := fun q : Claim =>
            decide (q.name = c.name ++ Str.ots)) hfind
        exact ⟨hclaim, of_decide_eq_true hfits ▸ hname⟩
  · rintro e _ ⟨he, rfl⟩
    exact herr e fun _ => he

theorem Guarded.fits (h : Guarded loads p data digest [c] s) (hp : IsProof p)
    (hcompanion : IsCompanion c path) (hraw : s.claim c.path = some raw) (heq : p.path = path) :
    Fits loads raw data ∧ Sha256.digest raw = digest := by
  apply h.suits c (List.mem_singleton_self c) raw ?_ hraw
  exact Option.some.inj (hp.name.symm.trans (heq ▸ hcompanion.name))

theorem Safe.data_eq (h : Safe p data digest s) {found : Bytes}
    (hfound : s.claim p.path = some found) : found = data := by
  obtain h | ⟨h, -⟩ := h
  · exact Option.some.inj (hfound.symm.trans h)
  · exact nomatch hfound.symm.trans h

/-- A path of a companion is none of a manifest. -/
theorem IsCompanion.not_manifest (h : IsCompanion c path) (hjson : isClaim Str.json path = true) :
    False :=
  claim_ne hjson h.claim rfl

/-- How far a manifest has been consumed, with what is held by then. -/
def Along (loads : Loads) (p : Claim) (data digest : Bytes) (c : Claim) (s : Desk) (held : Held)
    (t : Desk) : Prop :=
  Handled loads p data digest [c] s t ∧ HeldOn digest t.shelf held

/-- A file that is no manifest is moved away, and its companion, which is not the proof. -/
theorem handled_rejectManifest
    (hc : IsManifest c) (hp : IsProof p) (hcompanion : IsCompanion c path)
    (hheld : HeldOn digest s.shelf held) (hraw : s.claim c.path = some raw)
    (hnot : ¬∃ m, parseForeignManifest loads raw = .ok m) (reason : String) :
    Sees World.desk (rejectManifest env c.path c.name path raw reason)
      (fun rejected t => Along loads p data digest c s held t ∧
        (Guarded loads p data digest [c] s → ∀ x ∈ rejected, x.path ≠ p.path))
      (fun _ t => Along loads p data digest c s held t) s := by
  have hmem := List.mem_singleton_self c
  have hne : Guarded loads p data digest [c] s → p.path ≠ path := fun hs heq =>
    hnot (hs.fits hp hcompanion hraw heq).1.1
  have hself : p.path ≠ c.path := (claim_ne hc.claim hp.claim).symm
  have hinvalid : ∀ path', ∀ c' ∈ [c], c'.path = path' → ∀ m raw', ¬Valid loads s c' m raw' := by
    intro path' c' hc' _ m raw' hvalid
    obtain rfl := List.mem_singleton.mp hc'
    exact hnot ⟨m, Option.some.inj (hvalid.1.symm.trans hraw) ▸ hvalid.2⟩
  have hheldOn : ∀ t, HeldOn digest t.shelf held → ∀ path' name found,
      HeldOn digest (Desk.reject t path' name found).shelf held := fun t ht path' name found =>
    ht.congr fun n _ => arrive_file t.shelf (p := .rejected) nofun _ n found
  have hmanifest : ∀ t, Along loads p data digest c s held t →
      Along loads p data digest c s held (t.reject c.path c.name raw) := fun t ht =>
    ⟨ht.1.reject (fun _ => ⟨c, hmem, rfl⟩) (.inr ⟨c, hmem, raw, hraw, hnot, rfl⟩) (hinvalid _)
      fun _ => hself, hheldOn t ht.2 _ _ raw⟩
  have hcompanion' : ∀ found,
      Along loads p data digest c s held (s.reject path (c.name ++ Str.ots) found) := fun found =>
    ⟨(Handled.refl s).reject (fun h => (hcompanion.not_manifest h).elim)
      (.inl (endsWith_rejectedName found c.name)) (hinvalid _) hne,
      hheldOn s hheld _ _ found⟩
  have hstart : Along loads p data digest c s held s := ⟨.refl s, hheld⟩
  refine desk_rejectManifest env
    (isDot_of_isClaim hc.claim) hraw (isDot_of_isClaim hcompanion.claim)
    (claim_ne hc.claim hcompanion.claim) (fun _ r hr => ⟨hmanifest s hstart, fun _ x hx => ?_⟩)
    (fun found _ r r' hr hr' => ⟨hmanifest _ (hcompanion' found), fun hs x hx => ?_⟩)
    (fun _ => hstart) (fun _ _ => hmanifest s hstart)
    fun found _ _ => ⟨hcompanion' found, hmanifest _ (hcompanion' found)⟩
  · rw [List.mem_singleton.mp hx, hr]
    exact hself.symm
  · obtain rfl | hx := List.mem_cons.mp hx
    · exact hr ▸ (hne hs).symm
    · rw [List.mem_singleton.mp hx, hr']
      exact hself.symm

section Valid

variable {copy : Str} {shelf shelf' : Shelf} {found : Bytes}

/-- A copy of the manifest is in place. -/
theorem Copied.along (hcopied : Copied digest m raw s.shelf held held' copy shelf)
    (hvalid : Valid loads s c m raw) :
    Along loads p data digest c s held' { s with shelf := shelf } := by
  refine ⟨(Handled.refl s).shelf hcopied.better fun name _ => ?_, hcopied.heldOn⟩
  exact (hcopied.files name).imp_right fun h => ⟨c, List.mem_singleton_self c, m, raw, hvalid, h⟩

/-- What a companion leaves beside the copy. -/
theorem Copied.along_delivered (hcopied : Copied digest m raw s.shelf held held' copy shelf)
    (hvalid : Valid loads s c m raw) (h : Delivered copy raw found shelf shelf') :
    Along loads p data digest c s held' { s with shelf := shelf' } := by
  have hmine : shelf.Copy digest copy → Sha256.digest raw = digest :=
    hcopied.heldOn.only _ _ hcopied.lookup
  constructor
  · exact (hcopied.along hvalid).1.shelf (h.better hmine) fun name hname => .inl (h.copies hname)
  · exact hcopied.heldOn.congr fun name hname => h.copies hname

/-- A companion that is not of the manifest is not the proof, and is moved away. -/
theorem Copied.along_rejected (hcopied : Copied digest m raw s.shelf held held' copy shelf)
    (hvalid : Valid loads s c m raw) (hc : IsManifest c) (hp : IsProof p)
    (hcompanion : IsCompanion c path) (hfound : s.claim path = some found)
    (hnot : ¬IsProofOf raw found) :
    Along loads p data digest c s held'
        (Desk.reject { s with shelf := shelf } path (c.name ++ Str.ots) found) ∧
      (Guarded loads p data digest [c] s → p.path ≠ path) := by
  have hne : Guarded loads p data digest [c] s → p.path ≠ path := by
    rintro hs rfl
    obtain rfl := hs.safe.data_eq hfound
    exact hnot (hs.fits hp hcompanion hvalid.1 rfl).1.2
  have hapart : ∀ c' ∈ [c], c'.path ≠ path := fun c' hc' =>
    List.mem_singleton.mp hc' ▸ claim_ne hc.claim hcompanion.claim
  refine ⟨⟨(hcopied.along hvalid).1.reject ?_ ?_ ?_ hne, ?_⟩, hne⟩
  · exact fun hjson => (hcompanion.not_manifest hjson).elim
  · exact .inl (endsWith_rejectedName found c.name)
  · exact fun c' hc' heq => absurd heq (hapart c' hc')
  · exact hcopied.heldOn.congr fun n _ => arrive_file shelf (p := .rejected) nofun _ n found

/-- The companion is removed, when it is the proof as the copy answers it. -/
theorem Along.unclaim_companion (h : Along loads p data digest c s held t) (hc : IsManifest c)
    (hcompanion : IsCompanion c path)
    (hanswered : Guarded loads p data digest [c] s → p.path = path →
      Answered digest t.shelf data) :
    Along loads p data digest c s held (t.unclaim path) := by
  refine ⟨h.1.unclaim ?_ (fun c' hc' heq => ?_) hanswered, h.2⟩
  · exact fun hjson => (hcompanion.not_manifest hjson).elim
  · obtain rfl := List.mem_singleton.mp hc'
    exact absurd heq (claim_ne hc.claim hcompanion.claim)

/-- The manifest is removed once its copy is held. -/
theorem Along.unclaim_manifest (h : Along loads p data digest c s held t) (hc : IsManifest c)
    (hp : IsProof p) (hvalid : Valid loads s c m raw)
    (hlookup : held.lookup (Sha256.digest raw) = some copy) :
    Along loads p data digest c s held (t.unclaim c.path) := by
  refine ⟨h.1.unclaim (fun _ => ⟨c, List.mem_singleton_self c, rfl⟩) ?_ fun _ heq => ?_, h.2⟩
  · intro c' hc' _ m' raw' hvalid' hdigest
    obtain rfl := List.mem_singleton.mp hc'
    obtain rfl := Option.some.inj (hvalid.1.symm.trans hvalid'.1)
    exact ⟨copy, h.2.copy copy (hdigest ▸ hlookup)⟩
  · exact absurd heq (claim_ne hc.claim hp.claim).symm

/-- The rest of a manifest whose copy is in place: the proof is kept with it when it takes it. -/
theorem handled_valid (hc : IsManifest c) (hp : IsProof p) (hcompanion : IsCompanion c path)
    (hvalid : Valid loads s c m raw)
    (hcopied : Copied digest m raw s.shelf held held' copy shelf) :
    Sees World.desk (endManifest env (.inr ⟨c.path, c.name, path, copy, Sha256.digest raw⟩))
      (fun rejected t => Along loads p data digest c s held' t ∧
        (Guarded loads p data digest [c] s → ∀ x ∈ rejected, x.path ≠ p.path))
      (fun _ t => Along loads p data digest c s held' t) { s with shelf := shelf } := by
  obtain ⟨hjson, hdot⟩ := hcopied.heldOn.name _ _ hcopied.lookup
  have hremove : ∀ rejected t, Along loads p data digest c s held' t →
      (Guarded loads p data digest [c] s → ∀ x ∈ rejected, x.path ≠ p.path) →
      Sees World.desk (do
        removeFile env .inbox c.path
        pure rejected : M (List Rejected))
        (fun rejected t => Along loads p data digest c s held' t ∧
          (Guarded loads p data digest [c] s → ∀ x ∈ rejected, x.path ≠ p.path))
        (fun _ t => Along loads p data digest c s held' t) t := by
    intro rejected t ht hr
    have hgone := ht.unclaim_manifest hc hp hvalid hcopied.lookup
    exact .bind (desk_removeFile env (isDot_of_isClaim hc.claim) (.pure ⟨hgone, hr⟩) fun _ => ht)
  refine .bind (desk_consumeCompanion env hjson hdot (isDot_of_isClaim hcompanion.claim)
    (fun _ => ?_) (fun found shelf' hfound hproof hkept => ?_) (fun found reason hfound hnot => ?_)
    (fun _ => hcopied.along hvalid) (fun found shelf' _ _ _ h => hcopied.along_delivered hvalid h)
    fun found _ hfound hnot => (hcopied.along_rejected hvalid hc hp hcompanion hfound hnot).1)
  · exact hremove [] _ (hcopied.along hvalid) fun _ _ hx => nomatch hx
  · have hthere : Along loads p data digest c s held' { s with shelf := shelf' } :=
      hcopied.along_delivered hvalid hkept.delivered
    apply hremove [] _ (hthere.unclaim_companion hc hcompanion ?_) fun _ _ hx => nomatch hx
    rintro hs rfl
    obtain rfl := hs.safe.data_eq hfound
    have hdigest := (hs.fits hp hcompanion hvalid.1 rfl).2
    refine ⟨copy, raw, hthere.2.copy copy (hdigest ▸ hcopied.lookup), hdigest, ?_⟩
    exact hkept.strength ▸ le_max_right ..
  · obtain ⟨hthere, hne⟩ := hcopied.along_rejected hvalid hc hp hcompanion hfound hnot
    apply hremove _ _ hthere
    intro hs x hx
    rw [List.mem_singleton.mp hx]
    exact (hne hs).symm

end Valid

/-- No call of the pass fails, and every claimed proof has the name it was delivered under. -/
def Calm (env : Env) (s : Desk) : Prop := (∀ n, env.file n = .done) ∧ ClaimsNamed s jsonOts

theorem Calm.of_gone (h : Calm env s) (hgone : ∀ path, s.claim path = none → t.claim path = none) :
    Calm env t := by
  refine ⟨h.1, fun path hclaim hsome => h.2 path hclaim ?_⟩
  by_contra hnone
  rw [hgone path (Option.not_isSome_iff_eq_none.mp hnone)] at hsome
  exact nomatch hsome

/-- A step of a pass in which no call fails raises what the loops catch. -/
theorem sees_caught {α : Type} {m : M α} {Q : α → Desk → Prop} {E : Desk → Prop} (u : Desk)
    (P : Prop) (hm : Raises (Caught env) m) (h : Sees World.desk m Q (fun _ => E) s) :
    Sees World.desk m Q (fun e t => E t ∧ (Calm env u → e.isOsError = true ∨ P)) s :=
  (hm.sees h).mono (fun _ _ h => h) fun _ _ h => ⟨h.2, fun hcalm => .inl (h.1 hcalm.1)⟩

/-- A call that stores a copy and then fails leaves what a copy in place leaves. -/
theorem along_stored (hheld : HeldOn digest s.shelf held) (hvalid : Valid loads s c m raw)
    (hagree : ∀ raw', s.shelf.file .witnessed (copyName m raw) = some raw' →
      (Sha256.digest raw' = digest ↔ Sha256.digest raw = digest)) :
    Along loads p data digest c s held
      { s with shelf := s.shelf.store .witnessed (copyName m raw) raw } := by
  have hjson := endsWith_copyName m raw
  have hbetter : Better digest s.shelf (s.shelf.store .witnessed (copyName m raw) raw) :=
    .store s.shelf hjson fun ⟨_, raw', hraw', hdigest⟩ => (hagree raw' hraw').mp hdigest
  refine ⟨(Handled.refl s).shelf hbetter fun name _ => ?_, hheld.overwrite hjson hagree⟩
  by_cases hname : name = copyName m raw
  · refine .inr ⟨c, List.mem_singleton_self c, m, raw, hvalid, hname, ?_⟩
    rw [hname, Shelf.store_self]
  · exact .inl (Shelf.store_of_ne fun h => hname h.2)

/-- The first half of a manifest, up to its copy, and what its second half makes of that. -/
theorem handled_startManifest (hc : IsManifest c) (hp : IsProof p)
    (hheld : HeldOn digest s.shelf held)
    (hagree : ∀ m raw raw', Valid loads s c m raw →
      s.shelf.file .witnessed (copyName m raw) = some raw' →
        (Sha256.digest raw' = digest ↔ Sha256.digest raw = digest)) :
    Sees World.desk (startManifest env loads c held)
      (fun r t => Sees World.desk (endManifest env r.2)
        (fun rejected t => Along loads p data digest c s r.1 t ∧
          (Guarded loads p data digest [c] s → ∀ x ∈ rejected, x.path ≠ p.path))
        (fun _ t => Along loads p data digest c s r.1 t) t)
      (fun e t => Along loads p data digest c s held t ∧
        (Calm env s → e.isOsError = true ∨ TooDeep loads s c)) s := by
  have hfaults := fileFaults_caught env
  have hhere : Along loads p data digest c s held s := ⟨.refl s, hheld⟩
  have hdot := isDot_of_isClaim hc.claim
  refine .bind (sees_caught env s _ (.readBytes env hfaults _ _)
    (desk_readClaim env hdot (fun raw hraw => ?_) fun _ => hhere))
  refine .bind (desk_companion env hc (fun found hcompanion => ?_) fun e he =>
    ⟨hhere, fun hcalm => .inl (he hcalm.2 hcalm.1)⟩)
  split
  next hparse => exact .raise ⟨hhere, fun _ => .inr ⟨raw, hraw, (parse_deep_iff loads).mp hparse⟩⟩
  next reason hparse =>
    have hnot : ¬∃ m, parseForeignManifest loads raw = .ok m := fun ⟨m, hm⟩ =>
      nomatch hparse.symm.trans hm
    refine .bind (sees_caught env s _ (.rejectManifest env hfaults _ _ _ _ _)
      ((handled_rejectManifest env hc hp hcompanion hheld hraw hnot reason).mono
        (fun rejected t ht => ?_) fun _ _ h => h))
    exact .pure (.pure ht)
  next m hparse =>
    have hvalid : Valid loads s c m raw := ⟨hraw, hparse⟩
    refine .bind (sees_caught env s _ (.keepCopy env hfaults _ _ _)
      (desk_keepCopy env hheld (hagree m raw · hvalid) (fun held' copy shelf hcopied => ?_)
        (fun _ => hhere) fun _ => along_stored hheld hvalid (hagree m raw · hvalid)))
    exact .pure (handled_valid env hc hp hcompanion hvalid hcopied)

/-- A manifest that is consumed leaves the proof safe wherever that ends, and when no call fails
only one that is nested too deeply ends the pass. -/
theorem handled_consumeManifest (hc : IsManifest c) (hp : IsProof p)
    (hheld : HeldOn digest s.shelf held)
    (hagree : ∀ m raw raw', Valid loads s c m raw →
      s.shelf.file .witnessed (copyName m raw) = some raw' →
        (Sha256.digest raw' = digest ↔ Sha256.digest raw = digest)) :
    Sees World.desk (consumeManifest env loads c held)
      (fun r t => Along loads p data digest c s r.1 t ∧
        (Guarded loads p data digest [c] s → ∀ x ∈ r.2.rejected, x.path ≠ p.path))
      (fun _ t => Handled loads p data digest [c] s t ∧ (Calm env s → TooDeep loads s c)) s := by
  have hfaults := fileFaults_caught env
  have hstart := @handled_startManifest env loads p c data digest s held hc hp hheld hagree
  have hnone : Guarded loads p data digest [c] s → ∀ x ∈ (Report.ofItem none).rejected,
      x.path ≠ p.path :=
    fun _ _ hx => nomatch hx
  refine .bind (desk_attempt (hstart.mono (fun r t ht => ?_) fun e t he => ?_))
  · refine .bind (desk_attempt ((sees_caught env s (TooDeep loads s c) (.endManifest env hfaults _)
      ht).mono (fun rejected u hu => .pure hu) fun e u hu => ?_))
    split_ifs with hcaught
    · exact .pure ⟨hu.1, hnone⟩
    · exact ⟨hu.1.1, fun hcalm => (hu.2 hcalm).resolve_left hcaught⟩
  · split_ifs with hcaught
    · exact .pure ⟨he.1, hnone⟩
    · exact ⟨he.1.1, fun hcalm => (he.2 hcalm).resolve_left hcaught⟩

end Manifest

/-! ## All of them -/

section Manifests

variable (env : Env) {loads : Loads} {p : Claim} {data digest : Bytes} {s t : Desk} {held : Held}
  {manifests : List Claim}

/-- What a pass finds of the manifests it claimed. -/
structure Taken (loads : Loads) (digest : Bytes) (s : Desk) (manifests : List Claim) : Prop where
  claims : ∀ c ∈ manifests, IsManifest c
  distinct : manifests.Pairwise fun c d => c.path ≠ d.path
  apart : Apart loads digest s manifests

/-- The manifests that are left are as they were. -/
theorem Taken.tail {c : Claim} {cs : List Claim} (h : Taken loads digest s (c :: cs))
    (hstep : Handled loads p data digest [c] s t) :
    (∀ d ∈ cs, t.claim d.path = s.claim d.path) ∧ Taken loads digest t cs := by
  obtain ⟨hne, hdistinct⟩ := List.pairwise_cons.mp h.distinct
  have hsame : ∀ d ∈ cs, t.claim d.path = s.claim d.path := by
    intro d hd
    apply hstep.others d.path (h.claims d (List.mem_cons_of_mem c hd)).claim
    exact fun c' hc' => List.mem_singleton.mp hc' ▸ (hne d hd).symm
  refine ⟨hsame, fun d hd => h.claims d (List.mem_cons_of_mem c hd), hdistinct, ?_⟩
  refine h.apart.step loads hsame fun name hname => (hstep.files name hname).imp_right ?_
  rintro ⟨d, hd, hnew⟩
  exact List.mem_singleton.mp hd ▸ hnew

theorem handled_consumeManifests (hp : IsProof p) (hfound : Taken loads digest s manifests)
    (hheld : HeldOn digest s.shelf held) :
    Sees World.desk (consumeManifests env loads held manifests)
      (fun r t => (Handled loads p data digest manifests s t ∧ HeldOn digest t.shelf r.1) ∧
        (Guarded loads p data digest manifests s → ∀ x ∈ r.2.rejected, x.path ≠ p.path))
      (fun _ t => Handled loads p data digest manifests s t ∧
        (Calm env s → ∃ c ∈ manifests, TooDeep loads s c)) s := by
  induction manifests generalizing s held with
  | nil => exact .pure ⟨⟨.refl s, hheld⟩, fun _ _ hx => nomatch hx⟩
  | cons c cs ih =>
      have hmem : c ∈ c :: cs := List.mem_cons_self ..
      have hne := (List.pairwise_cons.mp hfound.distinct).1
      have hclaims := fun d hd => (hfound.claims d (List.mem_cons_of_mem c hd)).claim
      have hc := hfound.claims c hmem
      have hone := @handled_consumeManifest env loads p c data digest s held hc hp hheld
        (hfound.apart.held c hmem)
      refine .bind (hone.mono ?_ fun e t he => ?_)
      · rintro ⟨held', report⟩ t ⟨⟨hstep, hheld'⟩, hreport⟩
        obtain ⟨hsame, htail⟩ := hfound.tail hstep
        refine .bind ((ih htail hheld').mono ?_ fun e u he => ?_)
        · rintro ⟨held'', report'⟩ u ⟨⟨hrest, hheld''⟩, hreport'⟩
          refine .pure ⟨⟨hstep.cons hrest hc.claim hclaims hne, hheld''⟩, fun hs x hx => ?_⟩
          obtain hx | hx := List.mem_append.mp hx
          · apply hreport ⟨hs.safe, fun d hd => ?_⟩ x hx
            exact hs.suits d (List.mem_singleton.mp hd ▸ hmem)
          · exact hreport' (hs.tail hstep hsame) x hx
        · refine ⟨hstep.cons he.1 hc.claim hclaims hne, fun hcalm => ?_⟩
          obtain ⟨d, hd, raw, hraw, hdeep⟩ := he.2 (hcalm.of_gone env hstep.gone)
          exact ⟨d, List.mem_cons_of_mem c hd, raw, (hsame d hd).symm.trans hraw, hdeep⟩
      · refine ⟨he.1.cons (.refl t) hc.claim hclaims hne, fun hcalm => ⟨c, hmem, he.2 hcalm⟩⟩

end Manifests

/-! ## Proofs left alone -/

/-- What is left of an inbox when the loop over the claimed proofs has come to some point. -/
structure Left (p : Claim) (data digest : Bytes) (s : Desk) (rejected : List Rejected) (t : Desk) :
    Prop where
  better : Better digest s.shelf t.shelf
  manifests : ∀ path, isClaim Str.json path = true → t.claim path = s.claim path
  refused_iff : ∀ n, Str.endsWith Str.ots n = false →
    ((t.refused n).isSome ↔ (s.refused n).isSome)
  proof : Safe p data digest s →
    (Safe p data digest t ∧ ∀ x ∈ rejected, x.path ≠ p.path) ∨
      t.claim p.path = none ∧ WasRejected s p.name
  gone : ∀ path, s.claim path = none → t.claim path = none

section Left

variable (env : Env) {p c : Claim} {data digest : Bytes} {s t u : Desk} {held : Held}
  {rejected rejected' : List Rejected} {proof : Proof} {proofs : List Claim}

theorem Left.refl (s : Desk) : Left p data digest s [] s where
  better := .refl digest _
  manifests _ _ := rfl
  refused_iff _ _ := Iff.rfl
  proof hs := .inl ⟨hs, fun _ hx => nomatch hx⟩
  gone _ := id

theorem Left.forget (h : Left p data digest s rejected t) : Left p data digest s [] t where
  better := h.better
  manifests := h.manifests
  refused_iff := h.refused_iff
  proof hs := (h.proof hs).imp_left fun h => ⟨h.1, fun _ hx => nomatch hx⟩
  gone := h.gone

theorem Left.trans (hp : IsProof p) (h : Left p data digest s rejected t)
    (hrest : Left p data digest t rejected' u) :
    Left p data digest s (rejected ++ rejected') u where
  better := h.better.trans hrest.better
  manifests path hpath := (hrest.manifests path hpath).trans (h.manifests path hpath)
  refused_iff n hn := (hrest.refused_iff n hn).trans (h.refused_iff n hn)
  proof hs := by
    obtain ⟨hsafe, hr⟩ | ⟨hgone, hwas⟩ := h.proof hs
    · obtain ⟨hsafe', hr'⟩ | ⟨hgone, hwas⟩ := hrest.proof hsafe
      · exact .inl ⟨hsafe', fun x hx => (List.mem_append.mp hx).elim (hr x) (hr' x)⟩
      · exact .inr ⟨hgone, (wasRejected_congr hp.claim hp.name h.refused_iff).mp hwas⟩
    · exact .inr ⟨hrest.gone _ hgone, hwas⟩
  gone path hnone := hrest.gone path (h.gone path hnone)

theorem Left.shelf (s : Desk) {shelf : Shelf} (hbetter : Better digest s.shelf shelf) :
    Left p data digest s [] { s with shelf := shelf } where
  better := hbetter
  manifests _ _ := rfl
  refused_iff _ _ := Iff.rfl
  proof hs := .inl ⟨hs.better hbetter, fun _ hx => nomatch hx⟩
  gone _ := id

/-- A proof is removed: the proof itself only when a copy answers it. -/
theorem Left.unclaim (hc : IsProof c) (h : Left p data digest s [] t)
    (hanswered : Safe p data digest s → p.path = c.path → Answered digest t.shelf data) :
    Left p data digest s [] (t.unclaim c.path) where
  better := h.better
  manifests path hpath := (t.unclaim_of_ne (claim_ne hpath hc.claim)).trans (h.manifests path hpath)
  refused_iff := h.refused_iff
  proof hs := by
    obtain ⟨hsafe, hr⟩ | ⟨hgone, hwas⟩ := h.proof hs
    · by_cases heq : p.path = c.path
      · exact .inl ⟨.inr ⟨heq ▸ t.unclaim_self _, hanswered hs heq⟩, hr⟩
      · rw [Safe, t.unclaim_of_ne heq]
        exact .inl ⟨hsafe, hr⟩
    · exact .inr ⟨t.unclaim_none _ hgone, hwas⟩
  gone path hnone := t.unclaim_none _ (h.gone path hnone)

/-- A proof is moved to `rejected`: the proof itself only when a rejected name ends like its
manifest's. -/
theorem Left.reject (hc : IsProof c) {found : Bytes} {kind : Kind} {reason : String}
    (hwhy : Safe p data digest s → p.path = c.path → WasRejected s p.name) :
    Left p data digest s [⟨c.path, kind, c.name, found, reason⟩]
      (s.reject c.path c.name found) := by
  have hfile := fun n =>
    arrive_file s.shelf (p := .rejected) nofun (rejectedName found c.name) n found
  have hbetter : Better digest s.shelf (s.reject c.path c.name found).shelf := .of_file hfile
  obtain ⟨front, -, hname⟩ := exists_manifestName hc.claim hc.name
  refine
    { better := hbetter
      manifests := fun path hpath => s.unclaim_of_ne (claim_ne hpath hc.claim)
      refused_iff := fun n hn => ?_
      proof := fun hs => ?_
      gone := fun path hnone => s.unclaim_none _ hnone }
  · apply (reject_refused ..).trans (or_iff_right ?_)
    exact hname ▸ ne_rejectedName hn found _
  · by_cases heq : p.path = c.path
    · exact .inr ⟨heq ▸ s.unclaim_self _, hwhy hs heq⟩
    · have hclaim : (s.reject c.path c.name found).claim p.path = s.claim p.path :=
        s.unclaim_of_ne heq
      refine .inl ⟨?_, fun x hx => List.mem_singleton.mp hx ▸ Ne.symm heq⟩
      rw [Safe, hclaim]
      exact hs.imp_right fun h => ⟨h.1, h.2.better hbetter⟩

/-- The proof that a claim holds, when it is the one that is safe. -/
theorem Safe.found_eq (hs : Safe p data digest s) {found : Bytes} (heq : p.path = c.path)
    (hfound : s.claim c.path = some found) : found = data :=
  hs.data_eq (heq ▸ hfound)

theorem left_quarantine (hc : IsProof c) (hheld : HeldOn digest s.shelf held) {found : Bytes}
    (hfound : s.claim c.path = some found) {reason : String}
    (hwhy : Safe p data digest s → p.path = c.path → WasRejected s p.name) :
    Sees World.desk (do
      let rejected ← quarantine env c.path c.name found .foreignProof reason
      pure [rejected] : M (List Rejected))
      (fun rejected t => Left p data digest s rejected t ∧ HeldOn digest t.shelf held)
      (fun _ t => Left p data digest s [] t ∧ HeldOn digest t.shelf held) s := by
  have hthere : HeldOn digest (s.reject c.path c.name found).shelf held :=
    hheld.congr fun n _ => arrive_file s.shelf (p := .rejected) nofun _ n found
  have hleft : Left p data digest s [⟨c.path, .foreignProof, c.name, found, reason⟩]
      (s.reject c.path c.name found) := .reject hc hwhy
  exact .bind (desk_quarantine env (isDot_of_isClaim hc.claim) hfound (.pure ⟨hleft, hthere⟩)
    (fun _ => ⟨.refl s, hheld⟩) fun _ => ⟨hleft.forget, hthere⟩)

/-- A proof of a copy is kept with it, and removed. -/
theorem left_keepForeignProof (hc : IsProof c) (hdigest : proof.digest = digest)
    (hparse : parseOts data = .ok proof) (hheld : HeldOn digest s.shelf held) {found : Bytes}
    (hfound : s.claim c.path = some found) {proof' : Proof} (hparse' : parseOts found = .ok proof')
    {copy : Str} (hlookup : held.lookup proof'.digest = some copy) :
    Sees World.desk (do
      let _ ← keepForeignProof env copy found proof'.digest
      removeFile env .inbox c.path
      pure [] : M (List Rejected))
      (fun rejected t => Left p data digest s rejected t ∧ HeldOn digest t.shelf held)
      (fun _ t => Left p data digest s [] t ∧ HeldOn digest t.shelf held) s := by
  obtain ⟨hjson, hcopydot⟩ := hheld.name _ _ hlookup
  obtain ⟨raw, hraw⟩ := hheld.key _ _ hlookup
  have hkeep : Sees World.shelf (keepForeignProof env copy found proof'.digest)
      (fun _ => Kept copy raw found s.shelf) (fun _ => Delivered copy raw found s.shelf)
      s.shelf := hraw ▸ keepForeignProof_sees env hjson hcopydot s.shelf
  have hthere : ∀ shelf, Delivered copy raw found s.shelf shelf →
      Left p data digest s [] { s with shelf := shelf } ∧ HeldOn digest shelf held := by
    intro shelf h
    refine ⟨.shelf s (h.better fun hcopy => ?_), hheld.congr fun n hn => h.copies hn⟩
    exact hraw.trans (hheld.only _ _ hlookup hcopy)
  refine .bind (desk_onShelf (.keepForeignProof env copy found _)
    (hkeep.mono (fun _ shelf hkept => ?_) fun _ shelf h => hthere shelf h))
  obtain ⟨hleft, hheld'⟩ := hthere shelf hkept.delivered
  refine .bind (desk_removeFile env (isDot_of_isClaim hc.claim)
    (.pure ⟨hleft.unclaim hc fun hs heq => ?_, hheld'⟩) fun _ => ⟨hleft, hheld'⟩)
  obtain rfl := hs.found_eq heq hfound
  obtain rfl := Except.ok.inj (hparse.symm.trans hparse')
  have hcopy := hleft.better.copy copy (hheld.copy copy (hdigest ▸ hlookup))
  exact ⟨copy, raw, hcopy, hraw.trans hdigest, hkept.strength ▸ le_max_right ..⟩

theorem left_consumeOrphanProof (hc : IsProof c) (hp : IsProof p)
    (hparse : parseOts data = .ok proof) (hdigest : proof.digest = digest)
    (hheld : HeldOn digest s.shelf held) :
    Sees World.desk (consumeOrphanProof env c held)
      (fun rejected t => Left p data digest s rejected t ∧ HeldOn digest t.shelf held)
      (fun _ t => Left p data digest s [] t ∧ HeldOn digest t.shelf held) s := by
  have hhere : Left p data digest s [] s ∧ HeldOn digest s.shelf held := ⟨.refl s, hheld⟩
  refine .bind (desk_readClaim env (isDot_of_isClaim hc.claim) (fun found hfound => ?_)
    fun _ => hhere)
  split
  next reason hbad =>
    apply left_quarantine env hc hheld hfound
    intro hs heq
    obtain rfl := hs.found_eq heq hfound
    exact nomatch hbad.symm.trans hparse
  next => exact .raise hhere
  next proof' hparse' =>
    cases hlookup : held.lookup proof'.digest with
    | none =>
        refine .bind (desk_manifestWasRejected env (fun yes hyes => ?_) fun _ => hhere)
        refine .ite (fun hwas => left_quarantine env hc hheld hfound fun _ heq => ?_) fun _ =>
          .pure hhere
        have hname : c.name = p.name :=
          Option.some.inj (hc.name.symm.trans (heq ▸ hp.name))
        exact hname ▸ hyes.mp hwas
    | some copy =>
        exact left_keepForeignProof env hc hdigest hparse hheld hfound hparse' hlookup

theorem left_consumeProofs (hproofs : ∀ c ∈ proofs, IsProof c) (hp : IsProof p)
    (hparse : parseOts data = .ok proof) (hdigest : proof.digest = digest)
    (hheld : HeldOn digest s.shelf held) :
    Sees World.desk (consumeProofs env held proofs)
      (fun report t => Left p data digest s report.rejected t)
      (fun _ t => Left p data digest s [] t ∧ ¬∀ n, env.file n = .done) s := by
  have hone : ∀ c (s : Desk), IsProof c → HeldOn digest s.shelf held →
      Sees World.desk (consumeProof env c held)
        (fun report t => Left p data digest s report.rejected t ∧ HeldOn digest t.shelf held)
        (fun _ t => Left p data digest s [] t ∧ ¬∀ n, env.file n = .done) s := by
    intro c s hc hheld
    have hcaught : Raises (Caught env) (consumeOrphanProof env c held) :=
      .consumeOrphanProof env (fileFaults_caught env) c held
    refine .bind (.bind ((desk_call env s).mono ?_ ?_))
    · rintro _ _ rfl
      refine .gets_any fun there => .ite (fun _ => .pure ⟨.refl _, hheld⟩) fun _ => ?_
      refine .bind (desk_attempt ((hcaught.sees
        (left_consumeOrphanProof env hc hp hparse hdigest hheld)).mono (fun _ _ h => .pure h) ?_))
      rintro e t ⟨hcaught, hleft, hheld'⟩
      split_ifs with he
      · exact .pure ⟨hleft, hheld'⟩
      · exact ⟨hleft, fun hdone => he (hcaught hdone)⟩
    · rintro _ _ ⟨hfailed, rfl⟩
      exact ⟨.refl _, hfailed⟩
  induction proofs generalizing s with
  | nil => exact .pure (.refl s)
  | cons c cs ih =>
      obtain ⟨hc, hcs⟩ := List.forall_mem_cons.mp hproofs
      refine .bind ((hone c s hc hheld).mono ?_ fun _ _ h => h)
      rintro report t ⟨hstep, hheld'⟩
      refine .bind ((ih hcs hheld').mono (fun report' u hrest => .pure (hstep.trans hp hrest)) ?_)
      exact fun _ u he => ⟨hstep.forget.trans hp he.1, he.2⟩

end Left

/-! ## A pass -/

/-- Where a pass leaves the proof: claimed, or gone with a copy that answers it, or moved to
`rejected` because of a name there that ends like its manifest's. And a manifest of the proof's
digest that is gone has its copy on file. -/
structure Ended (loads : Loads) (p : Claim) (data digest : Bytes) (manifests : List Claim)
    (s : Desk) (rejected : List Rejected) (t : Desk) : Prop where
  consumed : ∀ c ∈ manifests, ∀ m raw, Valid loads s c m raw → t.claim c.path = none →
    Sha256.digest raw = digest → OnFile digest t
  refused : ∀ n, Str.endsWith Str.ots n = false → (s.refused n).isSome → (t.refused n).isSome
  proof : (Safe p data digest t ∧ ∀ x ∈ rejected, x.path ≠ p.path) ∨
    t.claim p.path = none ∧ ∃ n, Refused loads s manifests n ∧ (t.refused n).isSome ∧
      Str.endsWith (dash :: stem p.name) n = true

section Pass

variable (env : Env) {loads : Loads} {p : Claim} {data digest : Bytes} {s t u : Desk}
  {held : Held} {manifests : List Claim} {rejected rejected' : List Rejected} {proof : Proof}

theorem Handled.ended (h : Handled loads p data digest manifests s t)
    (hs : Guarded loads p data digest manifests s) (hr : ∀ x ∈ rejected, x.path ≠ p.path) :
    Ended loads p data digest manifests s rejected t :=
  ⟨h.consumed, fun n _ => h.refused n, .inl ⟨h.safe hs, hr⟩⟩

theorem Handled.ended_left (h : Handled loads p data digest manifests s t) (hp : IsProof p)
    (hmanifests : ∀ c ∈ manifests, IsManifest c) (hs : Guarded loads p data digest manifests s)
    (hr : ∀ x ∈ rejected, x.path ≠ p.path) (hleft : Left p data digest t rejected' u) :
    Ended loads p data digest manifests s (rejected ++ rejected') u := by
  refine ⟨fun c hc m raw hvalid hgone hdigest => ?_, fun n hn hsome => ?_, ?_⟩
  · have hgone' := (hleft.manifests c.path (hmanifests c hc).claim).symm.trans hgone
    exact (h.consumed c hc m raw hvalid hgone' hdigest).better hleft.better
  · exact (hleft.refused_iff n hn).mpr (h.refused n hsome)
  · obtain ⟨hsafe, hr'⟩ | ⟨hgone, n, hsome, hn⟩ := hleft.proof (h.safe hs)
    · exact .inl ⟨hsafe, fun x hx => (List.mem_append.mp hx).elim (hr x) (hr' x)⟩
    · have hots := endsWith_ots_of_stem hp.claim hp.name hn
      exact .inr ⟨hgone, n, h.rejects n hots hsome, (hleft.refused_iff n hots).mpr hsome, hn⟩

/-- A pass that opened the inbox, whatever fails in it then: a claimed proof is never lost, and
when no call fails the pass ends with a report unless a manifest is nested too deeply. -/
theorem ended_consumeInbox (hp : IsProof p) (hparse : parseOts data = .ok proof)
    (hdigest : proof.digest = digest) (hfound : Taken loads digest s manifests) :
    Sees World.desk (consumeInbox env loads manifests)
      (fun report t => Guarded loads p data digest manifests s →
        Ended loads p data digest manifests s report.rejected t)
      (fun _ t => (Guarded loads p data digest manifests s →
        Ended loads p data digest manifests s [] t) ∧
          (Calm env s → ∃ c ∈ manifests, TooDeep loads s c)) s := by
  have hnone : ∀ x ∈ ([] : List Rejected), x.path ≠ p.path := fun _ hx => nomatch hx
  refine .bind (desk_copiesByDigest env digest (fun held hheld _ _ => ?_) fun e hfailed => ?_)
  rotate_left
  · exact ⟨fun hs => (Handled.refl s).ended hs hnone, fun hcalm => absurd hcalm.1 hfailed⟩
  refine .bind ((handled_consumeManifests env hp hfound hheld).mono ?_ fun _ _ he =>
    ⟨fun hs => he.1.ended hs hnone, he.2⟩)
  rintro ⟨held', report⟩ t ⟨⟨hstep, hheld'⟩, hr⟩
  refine .bind (desk_attempt (desk_claims env (fun companions hcompanions => ?_) fun e he => ?_))
  · obtain ⟨hproofs, -⟩ := hcompanions.isProofs
    refine .bind ((left_consumeProofs env hproofs hp hparse hdigest hheld').mono ?_ ?_)
    · intro report' u hleft
      have hended := fun hs => hstep.ended_left hp hfound.claims hs (hr hs) hleft
      have hcall : Sees World.desk (fsyncDir env) (fun _ v => v = u)
          (fun e v => Caught env e ∧ v = u) u :=
        (Raises.fsyncDir env (fileFaults_caught env)).sees (desk_fsyncDir env rfl fun _ => rfl)
      refine .bind (desk_attempt (hcall.mono ?_ ?_))
      · rintro _ _ rfl
        exact .pure hended
      · rintro e _ ⟨hcaught, rfl⟩
        split_ifs with hos
        · exact .pure hended
        · refine ⟨fun hs => ⟨(hended hs).consumed, (hended hs).refused, ?_⟩,
            fun hcalm => absurd (hcaught hcalm.1) hos⟩
          exact (hended hs).proof.imp_left fun h => ⟨h.1, hnone⟩
    · intro e u he
      have hended := fun hs => hstep.ended_left hp hfound.claims hs hnone he.1
      exact ⟨hended, fun hcalm => absurd hcalm.1 he.2⟩
  · split_ifs with hos
    · exact .pure fun hs => hstep.ended hs (hr hs)
    · refine ⟨fun hs => hstep.ended hs hnone, fun hcalm => ?_⟩
      exact absurd (he (hcalm.of_gone env hstep.gone).2 hcalm.1) hos

end Pass

end OtsServer.Selfstamp
