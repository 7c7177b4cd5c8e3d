import OtsServer.Selfstamp.Matching

/-!
# Consuming a companion

A companion that is a proof of the copy's bytes is kept with it; any other is rejected. Keeping
one changes no copy, and what is held for a copy only gets stronger.
-/

namespace OtsServer.Selfstamp

open Prog (Sees)

/-! ## Other files -/

section Others

variable {copy copy' : Str} {raw raw' data : Bytes} {s t : Shelf}

theorem Strength.of_congr (h : Sha256.digest raw = Sha256.digest raw') (data : Bytes) :
    Strength.of raw data = Strength.of raw' data := by
  rw [Strength.of, h, Strength.of]

theorem Strength.held_congr (h : Sha256.digest raw = Sha256.digest raw') (held : Option Bytes) :
    Strength.held raw held = Strength.held raw' held := by
  cases held with
  | none => rfl
  | some data => exact Strength.of_congr h data

theorem foreignName_inj (h : foreignName copy = foreignName copy') : copy = copy' := by
  rw [foreignName, foreignName, List.append_assoc, List.append_assoc] at h
  exact List.append_cancel_right h

theorem asideName_ne_foreignName (target : Str) (held : Bytes) (copy : Str) :
    asideName target held ≠ foreignName copy := by
  have hend : Str.endsWith Str.ots (foreignName copy) = true :=
    List.isSuffixOf_iff_suffix.mpr (List.suffix_append ..)
  exact asideName_ne_of_endsWith target held hend (c := 0x73) rfl (by decide)

theorem setAside_of_ne (s : Shelf) (copy : Str) (held : Bytes) {p : Place} {name : Str}
    (haside : name ≠ asideName (foreignName copy) held) (hforeign : name ≠ foreignName copy) :
    (s.setAside copy held).file p name = s.file p name := by
  refine (if_neg fun h => haside h.2).trans (if_neg fun h => hforeign h.2)

/-- Only the file held for the copy, and one set aside, are changed. -/
theorem Delivered.other (h : Delivered copy raw data s t)
    {p : Place} {name : Str} (hforeign : name ≠ foreignName copy)
    (haside : ∀ held, name ≠ asideName (foreignName copy) held) :
    t.file p name = s.file p name := by
  have hstore : ∀ u : Shelf, (u.store .witnessed (foreignName copy) data).file p name =
      u.file p name := fun u =>
    Shelf.store_of_ne fun h => hforeign h.2
  cases h with
  | same => rfl
  | @aside held _ _ => exact setAside_of_ne s copy held (haside held) hforeign
  | stored _ _ => exact hstore s
  | @replaced held _ _ _ =>
      exact (hstore _).trans (setAside_of_ne s copy held (haside held) hforeign)

theorem Delivered.copies (h : Delivered copy raw data s t) {p : Place} {name : Str}
    (hjson : Str.endsWith Str.json name = true) : t.file p name = s.file p name :=
  h.other (foreignName_ne_json hjson copy).symm fun held => (asideName_ne_json _ held hjson).symm

/-- What is held for any copy only gets stronger. -/
theorem Delivered.held_le (h : Delivered copy raw data s t)
    (hsame : copy' = copy → Sha256.digest raw' = Sha256.digest raw) :
    Strength.held raw' (s.foreign copy') ≤ Strength.held raw' (t.foreign copy') := by
  by_cases heq : copy' = copy
  · subst heq
    rw [Strength.held_congr (hsame rfl), Strength.held_congr (hsame rfl)]
    exact h.strength.1
  · have hforeign : t.foreign copy' = s.foreign copy' :=
      h.other (fun hname => heq (foreignName_inj hname)) fun held =>
        (asideName_ne_foreignName _ held copy').symm
    rw [hforeign]

/-- A copy has bytes of the digest. -/
def Shelf.Copy (s : Shelf) (digest : Bytes) (copy : Str) : Prop :=
  Str.endsWith Str.json copy = true ∧ ∃ raw, s.file .witnessed copy = some raw ∧
    Sha256.digest raw = digest

/-- Every copy of a digest stays one, and what is held for it only gets stronger. -/
structure Better (digest : Bytes) (s t : Shelf) : Prop where
  copy : ∀ copy, s.Copy digest copy → t.Copy digest copy
  held : ∀ copy raw, s.Copy digest copy → Sha256.digest raw = digest →
    Strength.held raw (s.foreign copy) ≤ Strength.held raw (t.foreign copy)

variable {digest : Bytes}

theorem Better.refl (digest : Bytes) (s : Shelf) : Better digest s s :=
  ⟨fun _ h => h, fun _ _ _ _ => le_refl _⟩

theorem Better.trans {u : Shelf} (h : Better digest s t) (h' : Better digest t u) :
    Better digest s u where
  copy copy hcopy := h'.copy copy (h.copy copy hcopy)
  held copy raw hcopy hdigest :=
    (h.held copy raw hcopy hdigest).trans (h'.held copy raw (h.copy copy hcopy) hdigest)

/-- A delivery for a copy that is one of the digest only if the delivery is for it. -/
theorem Delivered.better (h : Delivered copy raw data s t)
    (hcopy : s.Copy digest copy → Sha256.digest raw = digest) : Better digest s t where
  copy copy' hcopy' :=
    ⟨hcopy'.1, hcopy'.2.imp fun _ hraw => ⟨(h.copies hcopy'.1).trans hraw.1, hraw.2⟩⟩
  held copy' raw' hcopy' hdigest := by
    refine h.held_le ?_
    rintro rfl
    exact hdigest.trans (hcopy hcopy').symm

/-- A file elsewhere changes nothing of the copies. -/
theorem arrive_file (s : Shelf) {p : Place} (hp : p ≠ .witnessed) (name n : Str) (data : Bytes) :
    (s.arrive p name data).file .witnessed n = s.file .witnessed n := if_neg fun h => hp h.1.symm

theorem Better.of_file (h : ∀ name, t.file .witnessed name = s.file .witnessed name) :
    Better digest s t where
  copy copy hcopy := ⟨hcopy.1, hcopy.2.imp fun _ hraw => ⟨(h copy).trans hraw.1, hraw.2⟩⟩
  held copy raw _ _ := by rw [Shelf.foreign, Shelf.foreign, h]

/-- A copy is written, under a name that a copy of the digest has only if the new one is one too. -/
theorem Better.store (s : Shelf) {name : Str} (hjson : Str.endsWith Str.json name = true)
    (hfree : s.Copy digest name → Sha256.digest data = digest) :
    Better digest s (s.store .witnessed name data) := by
  have hsame : ∀ n, n ≠ name → (s.store .witnessed name data).file .witnessed n =
      s.file .witnessed n := fun n hn =>
    Shelf.store_of_ne fun h => hn h.2
  refine ⟨fun copy hcopy => ⟨hcopy.1, ?_⟩, fun copy raw _ _ => ?_⟩
  · by_cases hname : copy = name
    · subst hname
      exact ⟨data, Shelf.store_self .., hfree hcopy⟩
    · exact hcopy.2.imp fun _ hraw => ⟨(hsame copy hname).trans hraw.1, hraw.2⟩
  · rw [Shelf.foreign, Shelf.foreign, hsame _ (foreignName_ne_json hjson copy)]

end Others

/-! ## Items -/

section Items

variable (env : Env) {s : Desk} {copy name path : Str} {raw data : Bytes}

/-- What a program gives when it returns. -/
abbrev Gives {α : Type} (m : M α) (Q : α → Desk → Prop) (s : Desk) : Prop :=
  Sees World.desk m Q (fun _ _ => True) s

theorem gives_any {α : Type} (m : M α) (s : Desk) : Gives m (fun _ _ => True) s := by
  refine ⟨fun w _ => ?_⟩
  simp only [Prog.wp]
  split <;> trivial

theorem desk_tryKeep {parsed : Proof} (hjson : Str.endsWith Str.json copy = true)
    (hdot : copy.isDot = false) (hparsed : checkForeignProof data (Sha256.digest raw) = .ok parsed)
    {Q : Except String String → Desk → Prop} {E : Fault → Desk → Prop} (hok : ∀ state shelf,
      Kept copy raw data s.shelf shelf → Q (.ok state) { s with shelf := shelf })
    (herr : ∀ e shelf, Delivered copy raw data s.shelf shelf → E e { s with shelf := shelf }) :
    Sees World.desk (tryOts (keepForeignProof env copy data (Sha256.digest raw))) Q E s := by
  refine .handle (.bind ?_)
  have hkeep : Sees World.shelf (keepForeignProof env copy data (Sha256.digest raw))
      (fun _ => Kept copy raw data s.shelf) (fun _ => Delivered copy raw data s.shelf) s.shelf :=
      keepForeignProof_sees env hjson hdot s.shelf
  have hraises : Raises NotOts (keepForeignProof env copy data (Sha256.digest raw)) :=
    .keepForeignProof env (fileFaults_notOts env) hparsed
  refine desk_onShelf (.keepForeignProof env copy data _) ((hraises.sees hkeep).mono
    (fun state shelf hkept => .pure (hok state shelf hkept)) fun e shelf he => ?_)
  split
  next n hn =>
    split at hn
    · exact nomatch he.1
    · exact nomatch hn
  next => exact herr e shelf he.2

theorem desk_tryRefuse (hnot : ¬IsProofOf raw data) {Q : Except String String → Desk → Prop}
    {E : Fault → Desk → Prop} (hok : ∀ text, Q (.error text) s) :
    Sees World.desk (tryOts (keepForeignProof env copy data (Sha256.digest raw))) Q E s := by
  have hcheck : ∃ text, checkForeignProof data (Sha256.digest raw) = .error (.otsError text) := by
    cases h : checkForeignProof data (Sha256.digest raw) with
    | error e =>
        obtain ⟨text, rfl⟩ := Strength.checkForeignProof_onlyOtsError (Sha256.digest raw) e h
        exact ⟨text, rfl⟩
    | ok parsed => exact absurd ⟨parsed, Strength.checkForeignProof_ok.mp h⟩ hnot
  obtain ⟨text, htext⟩ := hcheck
  rw [keepForeignProof, htext]
  exact .handle (.bind (.bind (.raise (.pure (hok text)))))

/-- The companion of a kept copy. -/
theorem desk_consumeCompanion (hjson : Str.endsWith Str.json copy = true)
    (hdot : copy.isDot = false) (hpath : path.isDot = true) {Q : List Rejected → Desk → Prop}
    {E : Fault → Desk → Prop} (hnone : s.claim path = none → Q [] s)
    (hkept : ∀ data shelf, s.claim path = some data → IsProofOf raw data →
      Kept copy raw data s.shelf shelf → Q [] (Desk.unclaim { s with shelf := shelf } path))
    (hrejected : ∀ data reason, s.claim path = some data → ¬IsProofOf raw data →
      Q [⟨path, .foreignProof, name, data, reason⟩] (s.reject path name data))
    (hbefore : ∀ e, E e s) (hdelivered : ∀ data shelf e, s.claim path = some data →
      IsProofOf raw data → Delivered copy raw data s.shelf shelf → E e { s with shelf := shelf })
    (hafter : ∀ data e, s.claim path = some data → ¬IsProofOf raw data →
      E e (s.reject path name data)) :
    Sees World.desk (consumeCompanion env copy path name (Sha256.digest raw)) Q E s := by
  refine .bind (desk_claimExists env hpath (.ite (fun hthere => ?_) fun hnot => .pure ?_) hbefore)
  · refine .bind (desk_readClaim env hpath (fun data hdata => ?_) hbefore)
    by_cases hproof : IsProofOf raw data
    · obtain ⟨parsed, hparsed⟩ := hproof
      have hproof : IsProofOf raw data := ⟨parsed, hparsed⟩
      refine .bind (desk_tryKeep env hjson hdot
          (Strength.checkForeignProof_ok.mpr hparsed) (fun state shelf hshelf => ?_)
          fun e shelf hshelf => hdelivered data shelf e hdata hproof hshelf)
      exact .bind (desk_removeFile env hpath (.pure (hkept data shelf hdata hproof hshelf)) fun e =>
        hdelivered data shelf e hdata hproof hshelf.delivered)
    · refine .bind (desk_tryRefuse env hproof fun text => ?_)
      exact .bind (desk_quarantine env hpath hdata (.pure (hrejected data text hdata hproof))
            hbefore fun e =>
        hafter data e hdata hproof)
  · exact hnone (Option.not_isSome_iff_eq_none.mp hnot)

end Items

end OtsServer.Selfstamp
