import OtsServer.Selfstamp.Heartbeat
import OtsServer.Selfstamp.Touched
import OtsServer.Library.Transition
import OtsServer.Selfstamp.Mispaired

/-!
# The inbox loses no manifest

A delivery that was claimed as a manifest is on file from then on, as a claim, as a copy if it is a
manifest, or in `rejected` if it is none; and a run that ends well leaves no claimed manifest. This
is so over any runs, whatever is delivered meanwhile, whatever fails and wherever a run stops.
-/

namespace OtsServer.Selfstamp

open Prog (Keeps)

/-! ## Copies held -/

/-- What is held is on file. -/
def HeldIn (held : Held) (w : World) : Prop := ∀ d copy, held.lookup d = some copy →
  isBook copy = true ∧ ∃ raw, w.get .witnessed copy = some raw ∧ Sha256.digest raw = d

section HeldIn

variable {env : Env} {loads : Loads} {seen : Set Bytes} {w t : World} {held : Held}
  {I : World → Prop}

theorem heldIn_nil (w : World) : HeldIn [] w := fun _ _ h => by cases h

theorem HeldIn.cons (h : HeldIn held w) {copy : Str} {raw : Bytes} (hbook : isBook copy = true)
    (hraw : w.get .witnessed copy = some raw) : HeldIn ((Sha256.digest raw, copy) :: held) w := by
  intro d copy' hlookup
  obtain ⟨rfl, rfl⟩ | ⟨-, hlookup⟩ := lookup_cons hlookup
  · exact ⟨hbook, raw, hraw, rfl⟩
  · exact h d copy' hlookup

theorem HeldIn.touches (hd : Distinct env seen) (hw : Tidy loads seen w)
    (hrun : Touches env loads w t) (h : HeldIn held w) : HeldIn held t := by
  intro d copy hlookup
  obtain ⟨hbook, raw, hraw, hdigest⟩ := h d copy hlookup
  exact ⟨hbook, raw, hw.copies_stay hd hrun hbook hraw, hdigest⟩

theorem still_heldIn (env : Env) (held : Held) : Still env (HeldIn held) where
  next w h d copy hlookup := by
    obtain ⟨hbook, raw, hraw, hdigest⟩ := h d copy hlookup
    exact ⟨hbook, raw, (get_next env w witnessed_ne copy).trans hraw, hdigest⟩

theorem wp_readCopies (hI : Still env I) (names : List Str)
    (hnames : ∀ name ∈ names, isBook name = true) :
    ∀ held w, I w → HeldIn held w →
      Prog.wp (readCopies env held names) (fun held' t => I t ∧ HeldIn held' t) (fun _ => I) w := by
  induction names with
  | nil => exact fun held w hw hheld => ⟨hw, hheld⟩
  | cons name names ih =>
      intro held w hw hheld
      have hrest := ih fun name' hname' => hnames name' (List.mem_cons_of_mem _ hname')
      rw [readCopies, Prog.wp_bind]
      refine wp_attempt (Prog.wp_mono
          ((hI.and (still_heldIn env held)).wp_readBytes .witnessed name w ⟨hw, hheld⟩) ?_ ?_)
      · rintro data t ⟨⟨ht, hheld⟩, hdata⟩
        exact hrest _ t ht (hheld.cons (hnames name (List.mem_cons_self ..)) hdata)
      · rintro e t ⟨ht, hheld⟩
        split
        · exact hrest held t ht hheld
        · exact ht

theorem wp_copiesByDigest (hI : Still env I) (w : World) (hw : I w) :
    Prog.wp (copiesByDigest env) (fun held t => I t ∧ HeldIn held t) (fun _ => I) w := by
  rw [copiesByDigest, Prog.wp_bind]
  refine Prog.wp_mono (hI.wp_listFiles _ _ w hw) ?_ fun _ _ h => h
  rintro names t ⟨ht, -, hnames⟩
  exact wp_readCopies hI names (fun name hname => ((hnames name).mp hname).1) [] t ht (heldIn_nil t)

end HeldIn

/-! ## One manifest -/

section Manifest

variable {env : Env} {loads : Loads} {seen : Set Bytes} {w t u : World} {held : Held}

theorem Around.trans (h : Around env loads w t) (h' : Around env loads t u) :
    Around env loads w u :=
  ⟨h.1.trans h'.1, fun path hpath => (h'.2 path hpath).trans (h.2 path hpath)⟩

theorem Around.refl (w : World) : Around env loads w w := ⟨.refl w, fun _ _ => rfl⟩

/-- Claimed manifests may be gone, the others are as they were. -/
structure Cleared (env : Env) (loads : Loads) (paths : List Str) (w t : World) : Prop where
  touches : Touches env loads w t
  others : ∀ path, isClaim Str.json path = true → path ∉ paths →
    t.get .inbox path = w.get .inbox path

theorem Around.cleared (h : Around env loads w t) (paths : List Str) :
    Cleared env loads paths w t :=
  ⟨h.1, fun path hpath _ => h.2 path hpath⟩

/-- The claims are gone. -/
def Gone (paths : List Str) (w : World) : Prop := ∀ path ∈ paths, w.get .inbox path = none

theorem copyless_gone (env : Env) {paths : List Str} (hpaths : ∀ path ∈ paths, path.isDot = true) :
    Copyless env (Gone paths) where
  next t ht path h := (copyless_claim env (hpaths path h) _).next t (ht path h)
  put t p name data hloose ht path h :=
    (copyless_claim env (hpaths path h) _).put t p name data hloose (ht path h)
  erase t p name hloose ht path h :=
    (copyless_claim env (hpaths path h) _).erase t p name hloose (ht path h)
  store t files ht path h := (copyless_claim env (hpaths path h) _).store t files (ht path h)

theorem copyless_cleared (paths : List Str) (w : World) :
    Copyless env (Cleared env loads paths w) where
  next t ht := ⟨(copyless_touches w).next t ht.touches, fun path h hnot =>
    (copyless_claim env (isDot_of_isClaim h) _).next t (ht.others path h hnot)⟩
  put t p name data hloose ht :=
      ⟨(copyless_touches w).put t p name data hloose ht.touches, fun path h hnot =>
    (copyless_claim env (isDot_of_isClaim h) _).put t p name data hloose (ht.others path h hnot)⟩
  erase t p name hloose ht :=
      ⟨(copyless_touches w).erase t p name hloose ht.touches, fun path h hnot =>
    (copyless_claim env (isDot_of_isClaim h) _).erase t p name hloose (ht.others path h hnot)⟩
  store t files ht := ⟨(copyless_touches w).store t files ht.touches, ht.others⟩

theorem Around.reject {path : Str} {raw : Bytes} (name : Str)
    (ht : Around env loads w t) (hpath : isClaim Str.json path = true)
    (hraw : w.get .inbox path = some raw) (hwhy : ∀ m, parseForeignManifest loads raw ≠ .ok m) :
    Cleared env loads [path] w ((t.erase .inbox path).put .rejected (rejectedName raw name) raw) ∧
      Gone [path] ((t.erase .inbox path).put .rejected (rejectedName raw name) raw) := by
  refine ⟨⟨ht.1.step (.reject name (isDot_of_isClaim hpath) ((ht.2 path hpath).trans hraw) fun _ =>
      hwhy), fun path' hpath' hnot => ?_⟩, fun path' hpath' => ?_⟩
  · rw [get_put, if_neg fun h => rejected_ne h.1.symm, get_erase, if_neg fun h =>
      hnot (List.mem_singleton.mpr h.2)]
    exact ht.2 path' hpath'
  · rw [get_put, if_neg fun h => rejected_ne h.1.symm, get_erase,
      if_pos ⟨rfl, List.mem_singleton.mp hpath'⟩]

theorem wp_rejectManifest {c : Claim} {companion : Str}
    {raw : Bytes} (hclaim : isClaim Str.json c.path = true)
    (hcompanion : isClaim jsonOts companion = true) (hraw : w.get .inbox c.path = some raw)
    (hwhy : ∀ m, parseForeignManifest loads raw ≠ .ok m) (reason : String) :
    Prog.wp (rejectManifest env c.path c.name companion raw reason)
      (fun _ t => Cleared env loads [c.path] w t ∧ Gone [c.path] t)
        (fun _ => Cleared env loads [c.path] w) w := by
  have haround : Copyless env (Around env loads w) := copyless_around w
  have hgone : Copyless env fun t => Cleared env loads [c.path] w t ∧ Gone [c.path] t :=
    (copyless_cleared [c.path] w).and (copyless_gone env fun path hpath =>
      List.mem_singleton.mp hpath ▸ isDot_of_isClaim hclaim)
  have hmanifest : ∀ t, Around env loads w t →
      Prog.wp (quarantine env c.path c.name raw .manifest reason)
      (fun _ t => Cleared env loads [c.path] w t ∧ Gone [c.path] t)
      (fun _ => Cleared env loads [c.path] w) t := by
    intro t ht
    refine Prog.wp_mono
      (haround.wp_quarantine hgone.toStill (fun u hu => (hu.2 c.path hclaim).trans hraw)
        (fun u hu => hu.reject c.name hclaim hraw hwhy) .manifest reason t ht) (fun _ _ h => h) ?_
    rintro _ u (hu | hu)
    · exact hu.cleared _
    · exact hu.1
  rw [rejectManifest, Prog.wp_bind]
  refine Prog.wp_mono (haround.pathExists .inbox companion w (.refl w))
    (fun there t ht => ?_) fun _ _ h => h.cleared _
  rw [Prog.wp_ite]
  refine ⟨fun _ => ?_, fun _ => ?_⟩
  · rw [Prog.wp_bind]
    refine Prog.wp_mono (haround.toStill.wp_readBytes _ _ t ht) ?_ fun _ _ h => h.cleared _
    rintro data u ⟨hu, hdata⟩
    rw [Prog.wp_bind]
    refine Prog.wp_mono ((beside_around w hcompanion).quarantine (isDot_of_isClaim hcompanion)
        (c.name ++ Str.ots) data .foreignProof "its manifest was rejected" u hu hdata)
      (fun _ v hv => ?_) fun _ _ h => h.cleared _
    rw [Prog.wp_bind]
    exact Prog.wp_mono (hmanifest v hv) (fun _ _ h => h) fun _ _ h => h
  · rw [Prog.wp_bind]
    exact Prog.wp_mono (hmanifest t ht) (fun _ _ h => h) fun _ _ h => h

/-- A copy has the digest of a claimed manifest. -/
def CopyOf (raw : Bytes) (copy : Str) (w : World) : Prop :=
  isBook copy = true ∧ ∃ kept, w.get .witnessed copy = some kept ∧
    Sha256.digest kept = Sha256.digest raw

theorem CopyOf.touches {raw : Bytes} {copy : Str} (hd : Distinct env seen) (hw : Tidy loads seen w)
    (hrun : Touches env loads w t) (h : CopyOf raw copy w) : CopyOf raw copy t := by
  obtain ⟨hbook, kept, hkept, hdigest⟩ := h
  exact ⟨hbook, kept, hw.copies_stay hd hrun hbook hkept, hdigest⟩

theorem wp_keepCopy (hd : Distinct env seen) (hw : Tidy loads seen w) {path : Str} {raw : Bytes}
    {m : Items} (hclaim : isClaim Str.json path = true) (hraw : w.get .inbox path = some raw)
    (hm : parseForeignManifest loads raw = .ok m) (hheld : HeldIn held w) :
    Prog.wp (keepCopy env m raw held) (fun r t => Around env loads w t ∧ HeldIn r.1 t ∧
        CopyOf raw r.2 t) (fun _ => Around env loads w) w := by
  have haround : Copyless env (Around env loads w) := copyless_around w
  rw [keepCopy]
  split
  next copy hlookup =>
    obtain ⟨hbook, kept, hkept, hdigest⟩ := hheld _ _ hlookup
    have hcopy : CopyOf raw copy w := ⟨hbook, kept, hkept, hdigest⟩
    rw [Prog.wp_bind]
    refine Prog.wp_mono (haround.fsyncFile .witnessed copy w (.refl w))
      (fun _ t ht => ?_) fun _ _ h => h
    rw [Prog.wp_bind]
    exact Prog.wp_mono (haround.fsyncDir t ht)
      (fun _ u hu => ⟨hu, hheld.touches hd hw hu.1, hcopy.touches hd hw hu.1⟩) fun _ _ h => h
  next hlookup =>
    have hplaced : Copyless env fun t => Around env loads w t ∧
        t.get .witnessed (copyName m raw) = some raw :=
      haround.and (copyless_copy env (isBook_copyName m raw) _)
    rw [Prog.wp_bind]
    refine Prog.wp_mono (haround.wp_writeAtomic hplaced (Loose.of_place (.inr rfl)) raw
        (fun t ht => ?_) w (.refl w)) (fun _ t ht => ?_) ?_
    · refine ⟨⟨ht.1.step (.copy hclaim ((ht.2 path hclaim).trans hraw) hm),
        fun path' hpath' => ?_⟩, ?_⟩
      · rw [get_put, if_neg fun h => witnessed_ne h.1.symm]
        exact ht.2 path' hpath'
      · rw [get_put, if_pos ⟨rfl, rfl⟩]
    · have hkept : HeldIn held t := hheld.touches hd hw ht.1.1
      exact ⟨ht.1, hkept.cons (isBook_copyName m raw) ht.2, isBook_copyName m raw, raw, ht.2, rfl⟩
    · rintro _ t (ht | ht)
      · exact ht
      · exact ht.1

/-- The companion of a claimed manifest is a claimed proof, or would be. -/
theorem wp_companionClaim {I : World → Prop} (hI : Still env I) {path name : Str}
    (hclaim : isClaim Str.json path = true) (w : World) (hw : I w) :
    Prog.wp (companionClaim env path name) (fun found t => I t ∧
        isClaim jsonOts (found.getD (path ++ Str.ots)) = true) (fun _ => I) w := by
  have hots := isClaim_ots hclaim
  rw [companionClaim, Prog.wp_bind]
  refine Prog.wp_mono (hI.pathExists _ _ w hw) (fun there t ht => ?_) fun _ _ h => h
  rw [Prog.wp_ite]
  refine ⟨fun _ => ⟨ht, hots⟩, fun _ => ?_⟩
  rw [Prog.wp_bind]
  refine Prog.wp_mono (hI.wp_claims jsonOts t ht) ?_ fun _ _ h => h
  rintro found u ⟨hu, hlists⟩
  refine ⟨hu, ?_⟩
  cases hfind : found.find? fun c => c.name = name ++ Str.ots with
  | none => exact hots
  | some q => exact ((hlists.mem_iff q).mp (List.mem_of_find?_eq_some hfind)).1

/-- What is left of a manifest once its copy is on file. -/
structure Rest.Ready (loads : Loads) (c : Claim) (rest : Rest) (w : World) : Prop where
  path : rest.path = c.path
  companion : isClaim jsonOts rest.companion = true
  copied : ∃ raw m, w.get .inbox c.path = some raw ∧ parseForeignManifest loads raw = .ok m ∧
    CopyOf raw rest.copy w

/-- How the first half of a manifest's handling ends. -/
inductive Started (env : Env) (loads : Loads) (c : Claim) (w t : World) :
    List Rejected ⊕ Rest → Prop
  | rejected (rejected : List Rejected) (h : Cleared env loads [c.path] w t)
      (hgone : Gone [c.path] t) : Started env loads c w t (.inl rejected)
  | copied (rest : Rest) (h : Around env loads w t) (hrest : rest.Ready loads c t) :
      Started env loads c w t (.inr rest)

theorem wp_startManifest (hd : Distinct env seen) (hw : Tidy loads seen w) {c : Claim}
    (hclaim : isClaim Str.json c.path = true) (hheld : HeldIn held w) :
    Prog.wp (startManifest env loads c held) (fun r t => HeldIn r.1 t ∧ Started env loads c w t r.2)
      (fun _ => Cleared env loads [c.path] w) w := by
  have haround : Copyless env (Around env loads w) := copyless_around w
  rw [startManifest, Prog.wp_bind]
  refine Prog.wp_mono (haround.toStill.wp_readBytes _ _ w (.refl w)) ?_ fun _ _ h => h.cleared _
  rintro raw t ⟨ht, hraw⟩
  have hread : Still env fun u => Around env loads w u ∧ u.get .inbox c.path = some raw :=
    (haround.and (copyless_claim env (isDot_of_isClaim hclaim) _)).toStill
  rw [Prog.wp_bind]
  refine Prog.wp_mono (wp_companionClaim hread hclaim t ⟨ht, hraw⟩) ?_ fun _ _ h => h.1.cleared _
  rintro found u ⟨⟨hu, hraw⟩, hcompanion⟩
  have htidy : Tidy loads seen u := hw.touches hd hu.1
  have hthen : ∀ {paths v}, Cleared env loads paths u v → Cleared env loads paths w v := fun hv =>
    ⟨hu.1.trans hv.touches, fun path hpath hnot =>
      (hv.others path hpath hnot).trans (hu.2 path hpath)⟩
  dsimp only
  split
  next => exact hu.cleared _
  next reason hparse =>
    have hwhy : ∀ m, parseForeignManifest loads raw ≠ .ok m :=
      fun m hm => by cases hparse.symm.trans hm
    rw [Prog.wp_bind]
    refine Prog.wp_mono (wp_rejectManifest hclaim hcompanion hraw hwhy reason)
      (fun rejected v hv => ?_) fun _ _ h => hthen h
    exact ⟨hheld.touches hd hw (hthen hv.1).touches, .rejected _ (hthen hv.1) hv.2⟩
  next m hparse =>
    rw [Prog.wp_bind]
    refine Prog.wp_mono (wp_keepCopy hd htidy hclaim hraw hparse (hheld.touches hd hw hu.1)) ?_
      fun _ _ h => (hu.trans h).cleared _
    rintro ⟨held', copy⟩ v ⟨hv, hheld', hcopy⟩
    exact ⟨hheld', .copied _ (hu.trans hv) ⟨rfl, hcompanion, raw, m,
      (hv.2 c.path hclaim).trans hraw, hparse, hcopy⟩⟩

theorem wp_endManifest (hd : Distinct env seen) (hw : Tidy loads seen w)
    {c : Claim} (hclaim : isClaim Str.json c.path = true)
    {rest : List Rejected ⊕ Rest} (hstarted : Started env loads c w t rest) :
    Prog.wp (endManifest env rest)
      (fun _ u => Touches env loads t u ∧ Cleared env loads [c.path] w u ∧ Gone [c.path] u)
      (fun _ u => Touches env loads t u ∧ Cleared env loads [c.path] w u) t := by
  cases hstarted with
  | rejected rejected h hgone => exact ⟨.refl t, h, hgone⟩
  | copied rest h hrest =>
      obtain ⟨raw, m, hraw, hm, hcopy⟩ := hrest.copied
      have hpath := isDot_of_isClaim hclaim
      have htidy : Tidy loads seen t := hw.touches hd h.1
      rw [endManifest, Prog.wp_bind]
      refine Prog.wp_mono ((beside_around t hrest.companion).consumeCompanion
          (isDot_of_isClaim hrest.companion) rest.copy
          (rest.name ++ Str.ots) rest.digest t (.refl t)) (fun rejected u hu => ?_) fun _ _ hu =>
        ⟨hu.1, (h.trans hu).cleared _⟩
      rw [Prog.wp_bind, hrest.path]
      have hgone : Copyless env (Around env loads t) := copyless_around t
      have hremove : ∀ v, Around env loads t v → Touches env loads t (v.erase .inbox c.path) ∧
          Cleared env loads [c.path] w (v.erase .inbox c.path) ∧
              Gone [c.path] (v.erase .inbox c.path) := by
        intro v hv
        obtain ⟨hbook, kept, hkept, hdigest⟩ := hcopy.touches hd htidy hv.1
        have htake : Touch env loads v (v.erase .inbox c.path) := .take hpath fun _ =>
          ⟨raw, m, rest.copy, kept, (hv.2 c.path hclaim).trans hraw, hm, hbook, hkept, hdigest⟩
        refine ⟨hv.1.step htake, ⟨(h.trans hv).1.step htake, fun path' hpath' hnot => ?_⟩,
          fun path' hpath' => ?_⟩
        · rw [get_erase, if_neg fun hsame => hnot (List.mem_singleton.mpr hsame.2)]
          exact (h.trans hv).2 path' hpath'
        · rw [get_erase, if_pos ⟨rfl, List.mem_singleton.mp hpath'⟩]
      exact Prog.wp_mono (hgone.wp_removeFile hremove u hu) (fun _ _ h => h) fun _ _ hv =>
        ⟨hv.1, (h.trans hv).cleared _⟩

theorem wp_consumeManifest (hd : Distinct env seen) (hw : Tidy loads seen w)
    {c : Claim} (hclaim : isClaim Str.json c.path = true) (hheld : HeldIn held w) :
    Prog.wp (consumeManifest env loads c held)
      (fun r t => HeldIn r.1 t ∧ Cleared env loads [c.path] w t ∧
      (r.2.failures = 0 → Gone [c.path] t)) (fun _ => Cleared env loads [c.path] w) w := by
  rw [consumeManifest, Prog.wp_bind]
  refine wp_attempt (Prog.wp_mono (wp_startManifest hd hw hclaim hheld) ?_ fun e t ht => ?_)
  · rintro ⟨held', rest⟩ t ⟨hheld', hstarted⟩
    have ht : Touches env loads w t := by
      cases hstarted with
      | rejected _ h _ => exact h.touches
      | copied _ h _ => exact h.1
    have htidy : Tidy loads seen t := hw.touches hd ht
    dsimp only
    rw [Prog.wp_bind]
    refine wp_attempt (Prog.wp_mono (wp_endManifest hd hw hclaim hstarted) ?_ ?_)
    · rintro rejected u ⟨hu, hcleared, hgone⟩
      exact ⟨hheld'.touches hd htidy hu, hcleared, fun _ => hgone⟩
    · rintro e u ⟨hu, hcleared⟩
      split
      · exact ⟨hheld'.touches hd htidy hu, hcleared, fun h => by cases h⟩
      · exact hcleared
  · split
    · exact ⟨hheld.touches hd hw ht.touches, ht, fun h => by cases h⟩
    · exact ht

end Manifest

/-! ## The pass -/

section Pass

variable {env : Env} {loads : Loads} {seen : Set Bytes} {w t u : World} {held : Held}

theorem Cleared.trans {paths paths' : List Str} (h : Cleared env loads paths w t)
    (h' : Cleared env loads paths' t u) : Cleared env loads (paths ++ paths') w u where
  touches := h.touches.trans h'.touches
  others path hpath hnot := by
    rw [List.mem_append, not_or] at hnot
    exact (h'.others path hpath hnot.2).trans (h.others path hpath hnot.1)

theorem wp_consumeManifests (hd : Distinct env seen) (cs : List Claim)
    (hclaims : ∀ c ∈ cs, isClaim Str.json c.path = true) :
    ∀ held w, Tidy loads seen w → HeldIn held w → Prog.wp (consumeManifests env loads held cs)
        (fun r t => HeldIn r.1 t ∧ Cleared env loads (cs.map Claim.path) w t ∧
        (r.2.failures = 0 → Gone (cs.map Claim.path) t)) (fun _ => Touches env loads w) w := by
  induction cs with
  | nil =>
      exact fun held w _ hheld => ⟨hheld, ⟨.refl w, fun _ _ _ => rfl⟩, fun _ path h => by cases h⟩
  | cons c cs ih =>
      intro held w hw hheld
      have hclaim := hclaims c (List.mem_cons_self ..)
      rw [consumeManifests, Prog.wp_bind]
      refine Prog.wp_mono (wp_consumeManifest hd hw hclaim hheld) ?_ fun _ _ h => h.touches
      rintro ⟨held', report⟩ t ⟨hheld', ht, hgone⟩
      dsimp only
      rw [Prog.wp_bind]
      refine Prog.wp_mono (ih (fun c' hc' => hclaims c' (List.mem_cons_of_mem _ hc')) held' t
          (hw.touches hd ht.touches) hheld') ?_ fun _ _ h => ht.touches.trans h
      rintro ⟨held'', report'⟩ u ⟨hheld'', hu, hgone'⟩
      refine ⟨hheld'', ht.trans hu, fun hfailures path hpath => ?_⟩
      obtain ⟨hfirst, hrest⟩ := Nat.add_eq_zero_iff.mp hfailures
      by_cases hlater : path ∈ cs.map Claim.path
      · exact hgone' hrest path hlater
      · obtain rfl : path = c.path := (List.mem_cons.mp hpath).resolve_right hlater
        exact (hu.others _ hclaim hlater).trans (hgone hfirst _ (List.mem_singleton_self _))

theorem keeps_consumeProofs (held : Held) (w : World) (cs : List Claim)
    (hclaims : ∀ c ∈ cs, isClaim jsonOts c.path = true) :
    Keeps (Around env loads w) (consumeProofs env held cs) := by
  have haround : Copyless env (Around env loads w) := copyless_around w
  induction cs with
  | nil => exact .pure _
  | cons c cs ih =>
      have hclaim := hclaims c (List.mem_cons_self ..)
      refine .bind (.bind (haround.pathExists _ _) fun _ =>
          .ite (fun _ => .pure _) fun _ => .bind (keeps_attempt ?_) fun _ => .pure _)
        fun _ => .bind (ih fun c' hc' => hclaims c' (List.mem_cons_of_mem _ hc')) fun _ => .pure _
      exact (beside_around w hclaim).consumeOrphanProof (isDot_of_isClaim hclaim)

/-! ### Claiming -/

/-- The claims of some deliveries are made, and no other claim is touched. -/
structure Claimed (env : Env) (loads : Loads) (token : Str) (done : List Str) (w t : World) :
    Prop where
  touches : Touches env loads w t
  others : ∀ path, path.isDot = true → path ∉ done.map (claimName token) →
    t.get .inbox path = w.get .inbox path

theorem isDot_claimName (token name : Str) : (claimName token name).isDot = true := rfl

theorem copyless_claimed (token : Str) (done : List Str) (w : World) :
    Copyless env (Claimed env loads token done w) where
  next t ht := ⟨(copyless_touches w).next t ht.touches, fun path h hnot =>
    (copyless_claim env h _).next t (ht.others path h hnot)⟩
  put t p name data hloose ht :=
      ⟨(copyless_touches w).put t p name data hloose ht.touches, fun path h hnot =>
    (copyless_claim env h _).put t p name data hloose (ht.others path h hnot)⟩
  erase t p name hloose ht :=
      ⟨(copyless_touches w).erase t p name hloose ht.touches, fun path h hnot =>
    (copyless_claim env h _).erase t p name hloose (ht.others path h hnot)⟩
  store t files ht := ⟨(copyless_touches w).store t files ht.touches, ht.others⟩

theorem Claimed.more {token : Str} {done done' : List Str} (h : Claimed env loads token done w t)
    (hsub : done ⊆ done') : Claimed env loads token done' w t :=
  ⟨h.touches, fun path hpath hnot => h.others path hpath fun hin =>
    hnot (List.map_subset _ hsub hin)⟩

/-- A token that no claim has. -/
def Unused (token : Str) (w : World) : Prop := ∀ name, w.get .inbox (claimName token name) = none

theorem claimName_inj {token name name' : Str} (h : claimName token name = claimName token name') :
    name = name' :=
  (List.cons.inj (List.append_cancel_left h)).2

theorem wp_claimOne {token name : Str} {done : List Str} (hunused : Unused token w)
    (hname : name.isDot = false) (hnew : name ∉ done) (ht : Claimed env loads token done w t) :
    Prog.wp (claimOne env token name) (fun _ => Claimed env loads token (done ++ [name]) w)
      (fun _ => Claimed env loads token (done ++ [name]) w) t := by
  have hclaimed : Copyless env (Claimed env loads token done w) := copyless_claimed token done w
  have hsub : done ⊆ done ++ [name] := List.subset_append_left ..
  have hrename : Prog.wp (rename env .inbox name .inbox (claimName token name))
      (fun _ => Claimed env loads token (done ++ [name]) w)
          (fun _ => Claimed env loads token done w) t := by
    rw [rename, Prog.wp_bind]
    refine Prog.wp_mono (hclaimed.fileCall t ht) (fun _ u hu => ?_) fun _ _ h => h
    rw [Prog.wp_bind, Prog.wp_gets]
    cases hdata : u.get .inbox name with
    | none => exact hu
    | some data =>
        have hpath := isDot_claimName token name
        have hfree : u.get .inbox (claimName token name) = none := by
          refine (hu.others _ hpath fun hin => ?_).trans (hunused name)
          obtain ⟨name', hname', hsame⟩ := List.mem_map.mp hin
          exact hnew (claimName_inj hsame ▸ hname')
        refine ⟨hu.touches.step (.claim hname hpath hdata hfree), fun path hdot hnot => ?_⟩
        rw [List.map_append, List.mem_append, not_or] at hnot
        rw [get_put, if_neg fun h => hnot.2 (List.mem_singleton.mpr h.2), get_erase, if_neg]
        · exact hu.others path hdot hnot.1
        · rintro ⟨-, rfl⟩
          exact Bool.false_ne_true (hname.symm.trans hdot)
  rw [claimOne, Prog.wp_handle, Prog.wp_bind]
  refine Prog.wp_mono hrename (fun _ _ h => h) fun e u hu => ?_
  cases e <;> exact hu.more hsub

theorem wp_claimAll {token : Str} (hunused : Unused token w) (names : List Str)
    (hnames : ∀ name ∈ names, name.isDot = false) (hnodup : names.Nodup) :
    ∀ done t, (∀ name ∈ names, name ∉ done) → Claimed env loads token done w t → Prog.wp
        (Prog.total (claimOne env token) names) (fun _ => Claimed env loads token (done ++ names) w)
        (fun _ => Claimed env loads token (done ++ names) w) t := by
  induction names with
  | nil =>
      intro done t _ ht
      rw [List.append_nil]
      exact ht
  | cons name names ih =>
      intro done t hnew ht
      obtain ⟨hfirst, hrest⟩ := List.nodup_cons.mp hnodup
      rw [Prog.total]
      refine (Prog.wp_bind _).mpr
        (Prog.wp_mono (wp_claimOne hunused (hnames name (List.mem_cons_self ..))
            (hnew name (List.mem_cons_self ..)) ht) (fun _ u hu => ?_) fun _ _ h => h.more ?_)
      · rw [List.append_cons]
        refine (Prog.wp_bind _).mpr
          (Prog.wp_mono (ih (fun name' h => hnames name' (List.mem_cons_of_mem _ h)) hrest
              (done ++ [name]) u (fun name' hname' hin => ?_) hu) (fun _ _ h => h) fun _ _ h => h)
        obtain hin | hin := List.mem_append.mp hin
        · exact hnew name' (List.mem_cons_of_mem _ hname') hin
        · exact hfirst (List.mem_singleton.mp hin ▸ hname')
      · exact List.append_cons done name names ▸ List.subset_append_left ..

/-- The two endings that are claimed differ. -/
theorem not_json_of_jsonOts {name : Str} (h : Str.endsWith jsonOts name = true) :
    Str.endsWith Str.json name = false := by
  rw [Bool.eq_false_iff]
  intro hjson
  have hclaim : ∀ suffix : Str, Str.endsWith suffix name = true →
      isClaim suffix (claimName [] name) = true := by
    intro suffix hends
    rw [isClaim, Bool.and_eq_true]
    obtain ⟨front, rfl⟩ := List.isSuffixOf_iff_suffix.mp hends
    refine ⟨List.isPrefixOf_iff_prefix.mpr ⟨[] ++ dash :: (front ++ suffix), ?_⟩,
      List.isSuffixOf_iff_suffix.mpr ?_⟩
    · rw [claimName, List.append_assoc]
    · exact ⟨claimPrefix ++ [] ++ dash :: front,
        by rw [claimName, List.append_assoc, List.cons_append]⟩
  exact claim_ne (hclaim _ hjson) (hclaim _ h) rfl

theorem wp_claim (w : World) (hunused : Unused (env.token w.calls) w) :
    Prog.wp (claim env) (fun _ => Touches env loads w) (fun _ => Touches env loads w) w := by
  have hclaimed : ∀ done, Copyless env (Claimed env loads (env.token w.calls) done w) :=
    fun done => copyless_claimed _ done w
  have hstart : Claimed env loads (env.token w.calls) [] w (w.next env) :=
    (hclaimed []).next w ⟨.refl w, fun _ _ _ => rfl⟩
  rw [claim, Prog.wp_bind]
  refine Prog.wp_of_ok (t := w.next env) rfl ?_
  rw [Prog.wp_bind]
  refine Prog.wp_mono ((hclaimed []).wp_listFiles .inbox Str.json _ hstart)
    ?_ fun _ _ h => h.touches
  rintro manifests t ⟨ht, hnodup, hmanifests⟩
  rw [Prog.wp_bind]
  refine Prog.wp_mono (wp_claimAll hunused manifests
      (fun name h => (listed_iff.mp ((hmanifests name).mp h).1).2) hnodup [] t
      (fun _ _ => List.not_mem_nil) ht) (fun _ u hu => ?_) fun _ _ h => h.touches
  rw [Prog.wp_bind]
  refine Prog.wp_mono ((hclaimed _).wp_listFiles .inbox jsonOts u hu) ?_ fun _ _ h => h.touches
  rintro proofs v ⟨hv, hnodup', hproofs⟩
  rw [Prog.wp_bind]
  refine Prog.wp_mono (wp_claimAll hunused proofs
      (fun name h => (listed_iff.mp ((hproofs name).mp h).1).2) hnodup' ([] ++ manifests) v
      (fun name hname hin => ?_) hv) (fun _ _ h => h.touches) fun _ _ h => h.touches
  obtain ⟨hots, -⟩ := listed_iff.mp ((hproofs name).mp hname).1
  obtain ⟨hjson, -⟩ := listed_iff.mp ((hmanifests name).mp hin).1
  exact Bool.false_ne_true ((not_json_of_jsonOts hots).symm.trans hjson)

theorem wp_consumeInbox (hd : Distinct env seen) (hw : Tidy loads seen w) {manifests : List Claim}
    (hlists : Lists w.desk Str.json manifests) :
    Prog.wp (consumeInbox env loads manifests) (fun report t => Touches env loads w t ∧
      (report.failures = 0 → ∀ path, isClaim Str.json path = true → t.get .inbox path = none))
      (fun _ => Touches env loads w) w := by
  have haround : Copyless env (Around env loads w) := copyless_around w
  have hclaims : ∀ c ∈ manifests, isClaim Str.json c.path = true :=
    fun c hc => ((hlists.mem_iff c).mp hc).1
  have hnone : ∀ path, isClaim Str.json path = true → path ∉ manifests.map Claim.path →
      w.get .inbox path = none := by
    intro path hpath hnot
    by_contra hsome
    have hthere : (w.desk.claim path).isSome := by
      change (w.claimed path).isSome
      rw [claimed_of_dot w (isDot_of_isClaim hpath)]
      exact Option.isSome_iff_ne_none.mpr hsome
    obtain ⟨name, hname⟩ := Option.isSome_iff_exists.mp (hlists.named path hpath hthere)
    exact hnot (List.mem_map_of_mem (f := Claim.path)
        ((hlists.mem_iff ⟨path, name⟩).mpr ⟨hpath, hname, hthere⟩))
  rw [consumeInbox, Prog.wp_bind]
  refine Prog.wp_mono (wp_copiesByDigest haround.toStill w (.refl w)) ?_ fun _ _ h => h.1
  rintro held t ⟨ht, hheld⟩
  rw [Prog.wp_bind]
  refine Prog.wp_mono (wp_consumeManifests hd manifests hclaims held t (hw.touches hd ht.1) hheld)
    ?_ fun _ _ h => ht.1.trans h
  rintro ⟨held', report⟩ u ⟨-, hu, hgone⟩
  have hempty : report.failures = 0 → ∀ path, isClaim Str.json path = true →
      u.get .inbox path = none := by
    intro hfailures path hpath
    by_cases hin : path ∈ manifests.map Claim.path
    · exact hgone hfailures path hin
    · exact (hu.others path hpath hin).trans ((ht.2 path hpath).trans (hnone path hpath hin))
  have hafter : Copyless env (Around env loads u) := copyless_around u
  have hthen : ∀ {v}, Around env loads u v → Touches env loads w v ∧
      (report.failures = 0 → ∀ path, isClaim Str.json path = true →
            v.get .inbox path = none) := fun hv =>
    ⟨(ht.1.trans hu.touches).trans hv.1, fun hfailures path hpath =>
      (hv.2 path hpath).trans (hempty hfailures path hpath)⟩
  dsimp only
  rw [Prog.wp_bind]
  refine wp_attempt
    (Prog.wp_mono (hafter.toStill.wp_claims jsonOts u (.refl u)) ?_ fun e v hv => ?_)
  · rintro proofs v ⟨hv, hproofs⟩
    dsimp only
    rw [Prog.wp_bind]
    refine Prog.wp_mono
      (keeps_consumeProofs held' u proofs (fun c hc => ((hproofs.mem_iff c).mp hc).1) v hv)
      (fun report' x hx => ?_) fun _ _ h => (hthen h).1
    rw [Prog.wp_bind]
    refine Prog.wp_mono (keeps_attempt hafter.fsyncDir x hx)
      (fun synced y hy => ?_) fun _ _ h => (hthen h).1
    cases synced with
    | none => exact ⟨(hthen hy).1, fun h => by cases h⟩
    | some _ => exact ⟨(hthen hy).1, fun h => (hthen hy).2 (Nat.add_eq_zero_iff.mp h).1⟩
  · split
    · exact ⟨(hthen hv).1, fun h => by cases h⟩
    · exact (hthen hv).1

/-- A directory is made with four calls. -/
theorem Still.wp_mkdirDurable {I : World → Prop} (hI : Still env I) (w : World) (hw : I w) :
    Prog.wp (Selfstamp.mkdirDurable env) (fun _ t => I t ∧ t.calls = w.calls + 4)
      (fun _ => I) w := by
  have hcall : ∀ n t, I t ∧ t.calls = w.calls + n →
      Prog.wp (Selfstamp.fileCall env) (fun _ u => I u ∧ u.calls = w.calls + (n + 1))
          (fun _ => I) t := by
    rintro n t ⟨ht, hcalls⟩
    have hnext : I (t.next env) := hI.next t ht
    cases h : (env.file t.calls).result with
    | ok a => exact Prog.wp_of_ok (congrArg (·, t.next env) h) ⟨hnext, congrArg (· + 1) hcalls⟩
    | error e => exact Prog.wp_of_error (congrArg (·, t.next env) h) hnext
  rw [Selfstamp.mkdirDurable, Prog.wp_bind]
  refine Prog.wp_mono (hcall 0 w ⟨hw, rfl⟩) (fun _ t ht => ?_) fun _ _ h => h
  rw [Prog.wp_bind]
  refine Prog.wp_mono (hcall 1 t ht) (fun _ u hu => ?_) fun _ _ h => h
  rw [Selfstamp.fsyncDir, Prog.wp_bind]
  exact Prog.wp_mono (hcall 2 u hu) (fun _ v hv => hcall 3 v hv) fun _ _ h => h

theorem copyless_unused (env : Env) (token : Str) : Copyless env (Unused token) where
  next t ht name := (copyless_claim env (isDot_claimName token name) _).next t (ht name)
  put t p name' data hloose ht name :=
    (copyless_claim env (isDot_claimName token name) _).put t p name' data hloose (ht name)
  erase t p name' hloose ht name :=
    (copyless_claim env (isDot_claimName token name) _).erase t p name' hloose (ht name)
  store t files ht name :=
    (copyless_claim env (isDot_claimName token name) _).store t files (ht name)

/-- No manifest is claimed. -/
def NoClaims (w : World) : Prop := ∀ path, isClaim Str.json path = true → w.get .inbox path = none

/-- A pass over the inbox; one that reports no failure leaves no manifest claimed. -/
theorem wp_witnessInbox (hd : Distinct env seen) (hw : Tidy loads seen w)
    (hunused : Unused (env.token (w.calls + 4)) w) :
    Prog.wp (witnessInbox env loads) (fun report t => Touches env loads w t ∧
        (report.failures = 0 → NoClaims t)) (fun _ => Touches env loads w) w := by
  have hstart : Copyless env fun t => Touches env loads w t ∧ Unused (env.token (w.calls + 4)) t :=
    (copyless_touches w).and (copyless_unused env _)
  rw [witnessInbox, Prog.wp_bind]
  refine wp_attempt (Prog.wp_mono (hstart.toStill.wp_mkdirDurable w ⟨.refl w, hunused⟩) ?_ ?_)
  · rintro _ t ⟨⟨ht, hunused⟩, hcalls⟩
    have htouches : Copyless env (Touches env loads t) := copyless_touches t
    have hclaim : Prog.wp (claim env) (fun _ => Touches env loads t)
        (fun _ => Touches env loads t) t :=
      wp_claim t (hcalls ▸ hunused)
    dsimp only
    rw [Prog.wp_bind]
    refine wp_attempt ?_
    rw [Prog.wp_bind]
    refine Prog.wp_mono hclaim (fun failures u hu => ?_) fun e u hu => ?_
    · rw [Prog.wp_bind]
      refine Prog.wp_mono (htouches.toStill.wp_claims Str.json u hu) ?_ fun e v hv => ?_
      · rintro manifests v ⟨hv, hlists⟩
        have htidy : Tidy loads seen v := (hw.touches hd ht).touches hd hv
        refine (Prog.wp_pure _).mpr ?_
        dsimp only
        rw [Prog.wp_bind]
        refine Prog.wp_mono (wp_consumeInbox hd htidy hlists) (fun report x hx => ?_) fun _ _ h =>
          (ht.trans hv).trans h
        exact ⟨(ht.trans hv).trans hx.1, fun h => hx.2 (Nat.add_eq_zero_iff.mp h).1⟩
      · split
        · exact ⟨ht.trans hv, fun h => by cases h⟩
        · exact ht.trans hv
    · split
      · exact ⟨ht.trans hu, fun h => by cases h⟩
      · exact ht.trans hu
  · rintro e t ⟨ht, -⟩
    split
    · exact ⟨ht, fun h => by cases h⟩
    · exact ht

end Pass

/-! ## The run -/

section Run

variable {env : Surroundings} {seen : Set Bytes} {w t : World}

theorem copyless_noClaims (env : Env) : Copyless env NoClaims where
  next t ht path h := (copyless_claim env (isDot_of_isClaim h) _).next t (ht path h)
  put t p name data hloose ht path h :=
    (copyless_claim env (isDot_of_isClaim h) _).put t p name data hloose (ht path h)
  erase t p name hloose ht path h :=
    (copyless_claim env (isDot_of_isClaim h) _).erase t p name hloose (ht path h)
  store t files ht path h := (copyless_claim env (isDot_of_isClaim h) _).store t files (ht path h)

theorem copyless_implies {I : World → Prop} (env : Env) (c : Prop) (hI : Copyless env I) :
    Copyless env fun w => c → I w where
  next t ht h := hI.next t (ht h)
  put t p name data hloose ht h := hI.put t p name data hloose (ht h)
  erase t p name hloose ht h := hI.erase t p name hloose (ht h)
  store t files ht h := hI.store t files (ht h)

/-- What comes of a run's inbox by the time it comes to its manifest. -/
inductive Stage.Clean (cfg : Settings) (t : World) : Stage → Prop
  | ends {code : Nat} (h : code ≠ 0) : Stage.Clean cfg t (.ends code)
  | noop {failures : Nat} (h : cfg.inbox = true ∧ failures = 0 → NoClaims t) :
      Stage.Clean cfg t (.noop failures)
  | build {failures : Nat} (h : cfg.inbox = true ∧ failures = 0 → NoClaims t) :
      Stage.Clean cfg t (.build failures)

/-- The token that a run draws for its claims, after the eight calls that make its directories, is
in no claim. -/
def DrawsUnused (env : Env) (w : World) : Prop := Unused (env.token (w.calls + 8)) w

theorem wp_arrive_touches (hd : Distinct env.toEnv seen) (hw : Tidy env.loads seen w)
    (hunused : DrawsUnused env.toEnv w) (cfg : Settings) :
    Prog.wp (arrive env cfg) (fun stage t => Touches env.toEnv env.loads w t ∧
        Stage.Clean cfg t stage) (fun _ => Touches env.toEnv env.loads w) w := by
  have htouches : Copyless env.toEnv (Touches env.toEnv env.loads w) := copyless_touches w
  have hrest : ∀ (report : Report) t, Touches env.toEnv env.loads w t ∧
      (cfg.inbox = true ∧ report.failures = 0 → NoClaims t) → Prog.wp (do
        if ← pathExists env.toEnv .manifests cfg.manifest then pure (Stage.noop report.failures)
        else if ← admits env cfg.period then pure (Stage.build report.failures)
        else pure (Stage.ends 1) : M Stage)
        (fun stage t => Touches env.toEnv env.loads w t ∧ Stage.Clean cfg t stage)
            (fun _ => Touches env.toEnv env.loads w) t := by
    intro report t ht
    have hkept := htouches.and (copyless_implies env.toEnv (cfg.inbox = true ∧ report.failures = 0)
        (copyless_noClaims env.toEnv))
    rw [Prog.wp_bind]
    refine Prog.wp_mono (hkept.pathExists _ _ t ht) (fun there u hu => ?_) fun _ _ h => h.1
    rw [Prog.wp_ite]
    refine ⟨fun _ => ⟨hu.1, .noop hu.2⟩, fun _ => ?_⟩
    rw [Prog.wp_bind]
    refine Prog.wp_mono (hkept.toStill.admits cfg.period u hu)
      (fun admitted v hv => ?_) fun _ _ h => h.1
    cases admitted with
    | false => exact ⟨hv.1, .ends Nat.one_ne_zero⟩
    | true => exact ⟨hv.1, .build hv.2⟩
  have hstart := htouches.and (copyless_unused env.toEnv (env.token (w.calls + 8)))
  rw [arrive, Prog.wp_ite]
  refine ⟨fun _ => ⟨.refl w, .ends Nat.one_ne_zero⟩, fun _ => ?_⟩
  rw [Prog.wp_bind]
  refine wp_attempt (Prog.wp_mono (hstart.toStill.wp_mkdirDurable w ⟨.refl w, hunused⟩) ?_ ?_)
  · rintro _ t ⟨⟨ht, hunused⟩, hcalls⟩
    dsimp only
    rw [Prog.wp_ite]
    refine ⟨fun hinbox => ?_, fun hnot => hrest .none t ⟨ht, fun h => absurd h.1 hnot⟩⟩
    have hdrawn : Unused (env.token (t.calls + 4)) t := by
      rw [hcalls]
      exact hunused
    rw [Prog.wp_bind]
    refine Prog.wp_mono (wp_witnessInbox hd (hw.touches hd ht) hdrawn)
      (fun report u hu => ?_) fun _ _ h => ht.trans h
    exact hrest report u ⟨ht.trans hu.1, fun h => hu.2 h.2⟩
  · rintro e t ⟨ht, -⟩
    split
    · exact ⟨ht, .ends Nat.one_ne_zero⟩
    · exact ht

/-- A run, to its end or to where it stops; one that ends well leaves no manifest claimed. -/
theorem wp_heartbeat (hd : Distinct env.toEnv seen) (hw : Tidy env.loads seen w)
    (hunused : DrawsUnused env.toEnv w) (cfg : Settings) :
    Prog.wp (heartbeat env cfg) (fun code t => Touches env.toEnv env.loads w t ∧
        (code = 0 → cfg.inbox = true → NoClaims t)) (fun _ => Touches env.toEnv env.loads w) w := by
  have htouches : Copyless env.toEnv (Touches env.toEnv env.loads w) := copyless_touches w
  have hpasses : ∀ failures failures' t, (failures = 0 → failures' = 0) →
      Touches env.toEnv env.loads w t → (cfg.inbox = true ∧ failures' = 0 → NoClaims t) →
      Prog.wp (passesOf env failures)
        (fun code t => Touches env.toEnv env.loads w t ∧ (code = 0 → cfg.inbox = true → NoClaims t))
        (fun _ => Touches env.toEnv env.loads w) t := by
    intro failures failures' t hle ht hclean
    have hkept := htouches.and
      (copyless_implies env.toEnv (cfg.inbox = true ∧ failures' = 0) (copyless_noClaims env.toEnv))
    refine Prog.wp_mono (hkept.passesOf (Loose.of_place (.inl rfl))
        (Loose.of_place (.inr rfl)) failures t ⟨ht, hclean⟩) ?_ fun _ _ h => h.1
    rintro code u ⟨⟨hu, hclean⟩, hcode⟩
    exact ⟨hu, fun hzero hinbox => hclean ⟨hinbox, hle (hcode hzero)⟩⟩
  rw [heartbeat, Prog.wp_bind]
  refine Prog.wp_mono (wp_arrive_touches hd hw hunused cfg) ?_ fun _ _ h => h
  rintro stage t ⟨ht, hclean⟩
  cases hclean with
  | ends hcode => exact ⟨ht, fun hzero => absurd hzero hcode⟩
  | @noop failures hclean => exact hpasses failures failures t id ht hclean
  | @build failures hclean =>
      have hkept := htouches.and
        (copyless_implies env.toEnv (cfg.inbox = true ∧ failures = 0) (copyless_noClaims env.toEnv))
      rw [proceed, Prog.wp_bind]
      refine Prog.wp_mono (hkept.toStill.compose cfg t ⟨ht, hclean⟩)
        (fun built u hu => ?_) fun _ _ h => h.1
      rw [Prog.wp_bind]
      refine Prog.wp_mono (keeps_attempt (hkept.writeAtomic (Loose.of_place (.inl rfl))
            (.inl rfl) _) u hu) (fun written v hv => ?_) fun _ _ h => h.1
      cases written with
      | none => exact ⟨hv.1, fun h => absurd h Nat.one_ne_zero⟩
      | some _ => exact hpasses _ failures v (fun h => (Nat.add_eq_zero_iff.mp h).1) hv.1 hv.2

end Run

/-! ## Every run -/

/-- The bytes of a claimed delivery are on file: as a claim, as one copy if they are a manifest, in
`rejected` if not. -/
def Saved (loads : Loads) (raw : Bytes) (w : World) : Prop :=
  (∃ path, isClaim Str.json path = true ∧ w.get .inbox path = some raw) ∨
    (∃ m, parseForeignManifest loads raw = .ok m) ∧
      (∃! copy, isBook copy = true ∧ w.get .witnessed copy = some raw) ∨
    (∀ m, parseForeignManifest loads raw ≠ .ok m) ∧ ∃ name, w.get .rejected name = some raw

/-- What happens to the state directory and the inbox: a run, to its end or to where it stops, the
`upgrade` command, and between them whatever leaves the claims, the copies and what was rejected. -/
inductive Tending.Step (env : Surroundings) (seen : Set Bytes) : World → World → Prop
  | run {w : World} (cfg : Settings) (h : DrawsUnused env.toEnv w) :
      Tending.Step env seen w (heartbeat env cfg w).2
  | upgrade {w : World} : Tending.Step env seen w (upgradeOnly env w).2
  | elsewhere {w t : World} (hclaims : ∀ name, name.isDot = true → t.get .inbox name =
        w.get .inbox name) (hinbox : ∀ name data, t.get .inbox name = some data → data ∈ seen)
      (hcopies : ∀ copy, isBook copy = true → t.get .witnessed copy = w.get .witnessed copy)
      (hrejected : ∀ name, t.get .rejected name = w.get .rejected name) : Tending.Step env seen w t

def tending (env : Surroundings) (seen : Set Bytes) : Transition.System World where
  init w := Tidy env.loads seen w
  step := Tending.Step env seen

section Saved

variable {env : Env} {loads : Loads} {seen : Set Bytes} {raw : Bytes} {w t : World}

/-- The name of a copy is given by its bytes. -/
theorem Tidy.saved_copy (h : Tidy loads seen w) {copy : Str} (hbook : isBook copy = true)
    (hraw : w.get .witnessed copy = some raw) : Saved loads raw w := by
  obtain ⟨-, m, hm, hname⟩ := h.copies copy raw hbook hraw
  refine .inr (.inl ⟨⟨m, hm⟩, copy, ⟨hbook, hraw⟩, fun copy' hcopy' => ?_⟩)
  obtain ⟨-, m', hm', hname'⟩ := h.copies copy' raw hcopy'.1 hcopy'.2
  obtain rfl := Except.ok.inj (hm.symm.trans hm')
  exact hname'.trans hname.symm

theorem Saved.touch (hd : Distinct env seen) (hw : Tidy loads seen w) (hstep : Touch env loads w t)
    (h : Saved loads raw w) : Saved loads raw t := by
  have ht : Tidy loads seen t := hw.touch hd hstep
  obtain ⟨path, hpath, hraw⟩ | ⟨-, copy, ⟨hbook, hraw⟩, -⟩ | ⟨hnot, name, hraw⟩ := h
  · have hdot := isDot_of_isClaim hpath
    have hclaim := copyless_claim env hdot (some raw)
    have hstays : t.get .inbox path = some raw → Saved loads raw t :=
      fun hsame => .inl ⟨path, hpath, hsame⟩
    cases hstep with
    | call => exact hstays (hclaim.next w hraw)
    | store files => exact hstays (hclaim.store w files hraw)
    | put data hloose => exact hstays (hclaim.put w _ _ data hloose hraw)
    | erase hloose => exact hstays (hclaim.erase w _ _ hloose hraw)
    | @claim name path' data hname hpath' hdata hfree =>
        refine hstays ?_
        rw [get_put, if_neg, get_erase, if_neg, hraw]
        · rintro ⟨-, rfl⟩
          exact Bool.false_ne_true (hname.symm.trans hdot)
        · rintro ⟨-, rfl⟩
          cases hfree.symm.trans hraw
    | copy =>
        refine hstays ?_
        rw [get_put, if_neg fun hp => witnessed_ne hp.1.symm, hraw]
    | @reject path' data name hpath' hdata hwhy =>
        by_cases hsame : path = path'
        · subst hsame
          obtain rfl := Option.some.inj (hraw.symm.trans hdata)
          refine .inr (.inr ⟨hwhy hpath, rejectedName raw name, ?_⟩)
          rw [get_put, if_pos ⟨rfl, rfl⟩]
        · refine hstays ?_
          rw [get_put, if_neg fun hp => rejected_ne hp.1.symm, get_erase,
            if_neg fun hp => hsame hp.2, hraw]
    | @take path' hpath' hheld =>
        by_cases hsame : path = path'
        · subst hsame
          obtain ⟨raw', m, copy, kept, hraw', hm, hbook, hkept, hdigest⟩ := hheld hpath
          obtain rfl := Option.some.inj (hraw.symm.trans hraw')
          obtain rfl := hd.digest (hw.copies copy kept hbook hkept).1
            (hw.inbox path raw hraw) hdigest
          refine ht.saved_copy hbook ?_
          rw [get_erase, if_neg fun hp => witnessed_ne hp.1, hkept]
        · refine hstays ?_
          rw [get_erase, if_neg fun hp => hsame hp.2, hraw]
  · exact ht.saved_copy hbook (hw.copy_stays hd hstep hbook hraw)
  · exact .inr (.inr ⟨hnot, name, hw.rejected_stays hd hstep hraw⟩)

theorem Saved.touches (hd : Distinct env seen) (hw : Tidy loads seen w)
    (hrun : Touches env loads w t) (h : Saved loads raw w) : Saved loads raw t := by
  induction hrun with
  | refl => exact h
  | tail hrun hstep ih => exact ih.touch hd (hw.touches hd hrun) hstep

end Saved

section Tending

variable {env : Surroundings} {seen : Set Bytes} {raw : Bytes} {w t : World}

theorem heartbeat_touches (hd : Distinct env.toEnv seen) (hw : Tidy env.loads seen w)
    (h : DrawsUnused env.toEnv w) (cfg : Settings) :
    Touches env.toEnv env.loads w (heartbeat env cfg w).2 :=
  Prog.of_wp (Prog.wp_mono (wp_heartbeat hd hw h cfg) (fun _ _ h => h.1) fun _ _ h => h)

theorem upgradeOnly_touches (env : Surroundings) (w : World) :
    Touches env.toEnv env.loads w (upgradeOnly env w).2 :=
  ((copyless_touches w).upgradeOnly (Loose.of_place (.inl rfl))
      (Loose.of_place (.inr rfl))).apply (.refl w)

theorem Tidy.step (hd : Distinct env.toEnv seen) (hw : Tidy env.loads seen w)
    (hstep : Tending.Step env seen w t) : Tidy env.loads seen t := by
  cases hstep with
  | run cfg h => exact hw.touches hd (heartbeat_touches hd hw h cfg)
  | upgrade => exact hw.touches hd (upgradeOnly_touches env w)
  | elsewhere hclaims hinbox hcopies hrejected =>
      exact ⟨hinbox, fun copy raw hbook hraw =>
        hw.copies copy raw hbook (hcopies copy hbook ▸ hraw),
        fun name data hdata => hw.rejected name data (hrejected name ▸ hdata)⟩

theorem tidy_of_reachable (hd : Distinct env.toEnv seen) (h : (tending env seen).Reachable w) :
    Tidy env.loads seen w :=
  Transition.System.Inductive.reachable (I := Tidy env.loads seen)
    ⟨fun _ hw => hw, fun _ _ _ hw hstep => hw.step hd hstep⟩ h

theorem Saved.step (hd : Distinct env.toEnv seen) (hw : Tidy env.loads seen w)
    (hstep : Tending.Step env seen w t) (h : Saved env.loads raw w) : Saved env.loads raw t := by
  cases hstep with
  | run cfg hunused => exact h.touches hd hw (heartbeat_touches hd hw hunused cfg)
  | upgrade => exact h.touches hd hw (upgradeOnly_touches env w)
  | elsewhere hclaims hinbox hcopies hrejected =>
      have ht : Tidy env.loads seen t := hw.step hd (.elsewhere hclaims hinbox hcopies hrejected)
      obtain ⟨path, hpath, hraw⟩ | ⟨-, copy, ⟨hbook, hraw⟩, -⟩ | ⟨hnot, name, hraw⟩ := h
      · exact .inl ⟨path, hpath, (hclaims path (isDot_of_isClaim hpath)).trans hraw⟩
      · exact ht.saved_copy hbook ((hcopies copy hbook).trans hraw)
      · exact .inr (.inr ⟨hnot, name, (hrejected name).trans hraw⟩)

/-- The inbox loses no manifest: what was claimed as one is on file from then on, whatever is
delivered, fails or stops, and is no claim any more after a run that ends well. Of what is delivered
no two files share the digits that names are made with, and a run draws a token that no claim
has. -/
theorem claimed_manifest_stays (env : Surroundings) {seen : Set Bytes}
    (hd : Distinct env.toEnv seen) {w t : World} (hw : (tending env seen).Reachable w)
    (hrun : (tending env seen).Run w t) {path : Str} {raw : Bytes}
    (hclaim : isClaim Str.json path = true) (hraw : w.get .inbox path = some raw) :
    Saved env.loads raw t ∧ ∀ cfg u, DrawsUnused env.toEnv t → cfg.inbox = true →
        heartbeat env cfg t = (.ok 0, u) → Saved env.loads raw u ∧ NoClaims u := by
  have hsaved : Saved env.loads raw t :=
    hrun.keeps (fun _ _ hs h hstep => h.step hd (tidy_of_reachable hd hs) hstep) hw
    (.inl ⟨path, hclaim, hraw⟩)
  have ht := tidy_of_reachable hd (hw.run hrun)
  refine ⟨hsaved, fun cfg u hunused hinbox hends => ?_⟩
  have hwp := wp_heartbeat hd ht hunused cfg
  rw [Prog.wp, hends] at hwp
  exact ⟨hsaved.touches hd ht hwp.1, hwp.2 rfl hinbox⟩

end Tending

namespace Interrupted

/-! ### A run that stops once it has claimed, and the next one -/

open Mispaired (older)

/-- A file that is no manifest. -/
def junk : Bytes := [0x00]

def cfg : Settings := ⟨Str.ofString "2026-09-16", Str.ofString "2026-09-17", true⟩

def env : Surroundings where
  file n := if n = 14 then .stops else .done
  landed _ := 0
  token n := if n = 8 then Str.ofString "aaaaaaaa" else Str.ofString "bbbbbbbb"
  submit _ _ := .ok Upgraded.submitted
  fetch _ _ := .ok (some Upgraded.upgraded)
  deliveries _ := []
  observe _ := .error .other
  modified _ _ := .error .other
  freshLabel _ := []
  loads := Mispaired.loads
  dumps _ := []

/-- A manifest of the day with its proof, and two deliveries. -/
def start : World where
  files
    | .manifests =>
        (Directory.empty.put cfg.manifest Upgraded.raw).put (proofName cfg.manifest)
          (Upgraded.header ++ Upgraded.upgraded)
    | .inbox => (Directory.empty.put (Str.ofString "x.json") older).put (Str.ofString "y.json") junk
    | _ => .empty
  calls := 0
  stored := []

def stopped : World := (heartbeat env cfg start).2

def last : World := (heartbeat env cfg stopped).2

def seen : Set Bytes := {older, junk}

theorem distinct : Distinct env.toEnv seen where
  apart := by
    rintro x (rfl | rfl) y (rfl | rfl) h
    · rfl
    · exact absurd h (by decide +kernel)
    · exact absurd h (by decide +kernel)
    · rfl
  delivered n d hd := absurd hd List.not_mem_nil

theorem mem_entries_of_get {w : World} {p : Place} {name : Str} {data : Bytes}
    (h : w.get p name = some data) : (name, data) ∈ (w.files p).entries :=
  Directory.mem_entries_iff.mpr h

theorem tidy_start : Tidy env.loads seen start where
  inbox name data h := by
    have hentries : (start.files .inbox).entries =
        [(Str.ofString "x.json", older), (Str.ofString "y.json", junk)] := by
      decide +kernel
    have hmem := mem_entries_of_get h
    rw [hentries] at hmem
    obtain h | h := List.mem_pair.mp hmem
    · exact .inl (Prod.mk.inj h).2
    · exact .inr (Prod.mk.inj h).2
  copies copy raw _ h := by cases h
  rejected name data h := by cases h

/-- A token that the names in the inbox show to be in no claim. -/
theorem unused_of_names {w : World} {token : Str}
    (h : ∀ path ∈ (w.files .inbox).names, ¬claimPrefix ++ token <+: path) : Unused token w := by
  intro name
  by_contra hsome
  have hname : claimName token name ∈ (w.files .inbox).names :=
    Directory.mem_names_iff.mpr (Option.ne_none_iff_exists'.mp hsome)
  exact h _ hname ⟨dash :: name, rfl⟩

theorem names_stopped :
    (stopped.files .inbox).names =
    [Str.ofString ".claim-aaaaaaaa-x.json", Str.ofString ".claim-aaaaaaaa-y.json"] := by
  decide +kernel

theorem unused_start : DrawsUnused env.toEnv start :=
  unused_of_names (by decide +kernel)

theorem unused_stopped : DrawsUnused env.toEnv stopped := by
  refine unused_of_names ?_
  rw [names_stopped]
  decide +kernel

theorem last_code : (heartbeat env cfg stopped).1 = .ok 0 := by decide +kernel

theorem last_eq : heartbeat env cfg stopped = (.ok 0, last) := Prod.ext last_code (by rw [last])

/-- A manifest that was claimed when the run stopped is a copy after the next one, and no claim is
left. -/
theorem claimed_and_copied :
    (∃! copy, isBook copy = true ∧ last.get .witnessed copy = some older) ∧ NoClaims last := by
  have hreach : (tending env seen).Reachable stopped :=
    .step (.init tidy_start) (.run cfg unused_start)
  have hclaim : stopped.get .inbox (Str.ofString ".claim-aaaaaaaa-x.json") = some older := by
    decide +kernel
  obtain ⟨hsaved, hnone⟩ := (claimed_manifest_stays env distinct hreach .refl
      (by decide +kernel) hclaim).2 cfg last unused_stopped rfl last_eq
  refine ⟨?_, hnone⟩
  obtain ⟨path, hpath, hraw⟩ | ⟨-, hcopy⟩ | ⟨hnot, -⟩ := hsaved
  · cases (hnone path hpath).symm.trans hraw
  · exact hcopy
  · exact absurd Mispaired.parse_older (hnot _)

end Interrupted

end OtsServer.Selfstamp
