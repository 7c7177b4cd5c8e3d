import OtsServer.Library.Transition
import OtsServer.Selfstamp.Shelf
import OtsServer.Selfstamp.Splice

/-!
# A proof only gets better

A pass changes a file in two ways only: a proof appears where there was none, and a pending
proof of the file beside it gives way to one that carries its path on to Bitcoin. Between the
passes manifests, copies and proofs may appear under names that were free.
-/

namespace OtsServer.Selfstamp

open Prog (Sees)

/-- The proof `new` may take the place of the proof `old`: both are proofs of `digest`, `old` is
pending, and `new` carries its path on to a Bitcoin attestation. -/
def Upgrades (digest old new : Bytes) : Prop :=
  ∃ proof proof' uri height, parseOts old = .ok proof ∧ proof.digest = digest ∧
    proof.attestation = .pending uri ∧ parseOts new = .ok proof' ∧ proof'.digest = digest ∧
    proof'.attestation = .bitcoin height ∧ Extends old new

/-- `data` is a linear proof of `raw`. -/
def IsProofOf (raw data : Bytes) : Prop :=
  ∃ proof, parseOts data = .ok proof ∧ proof.digest = Sha256.digest raw

/-- What can happen to the files. -/
inductive Change : Shelf → Shelf → Prop
  | submitted {s : Shelf} {p : Place} {name : Str} {raw ots : Bytes} : Str.endsWith Str.json name =
      true → s.file p name = some raw → s.file p (proofName name) = none → IsProofOf raw ots →
      Change s (s.store p (proofName name) ots)
  | upgraded {s : Shelf} {p : Place} {name : Str} {raw old new : Bytes} :
      Str.endsWith Str.json name = true → s.file p name = some raw →
      s.file p (proofName name) = some old → Upgrades (Sha256.digest raw) old new →
      Change s (s.store p (proofName name) new)
  | arrived {s : Shelf} {p : Place} {name : Str} {data : Bytes} : s.file p name = none →
      Change s (s.arrive p name data)

/-- The changes of a run, one after the other. -/
def Changes : Shelf → Shelf → Prop := Relation.ReflTransGen Change

/-! ## Names -/

theorem proofName_inj {name name' : Str} (h : proofName name = proofName name') : name = name' :=
  List.append_cancel_right h

theorem isDot_proofName {name : Str} (hjson : Str.endsWith Str.json name = true) :
    (proofName name).isDot = name.isDot := by
  cases name with
  | nil => exact nomatch hjson
  | cons c name => rfl

/-- No file that has a proof beside it is itself one. -/
theorem proofName_ne {name name' : Str} (h : Str.endsWith Str.json name = true) :
    proofName name' ≠ name := by
  rintro rfl
  obtain ⟨front, hfront⟩ := List.isSuffixOf_iff_suffix.mp h
  have := congrArg List.getLast? hfront
  rw [proofName, List.getLast?_append_of_ne_nil _ (by decide),
    List.getLast?_append_of_ne_nil _ (by decide)] at this
  exact absurd this (by decide)

/-- The file beside a proof. -/
theorem exists_proofName {path : Str} (h : Str.endsWith (Str.json ++ Str.ots) path = true) :
    ∃ name, path = proofName name ∧ Str.endsWith Str.json name = true ∧
      path.take (path.length - Str.ots.length) = name := by
  obtain ⟨front, rfl⟩ := List.isSuffixOf_iff_suffix.mp h
  refine ⟨front ++ Str.json, (List.append_assoc ..).symm,
    List.isSuffixOf_iff_suffix.mpr (List.suffix_append ..), ?_⟩
  rw [← List.append_assoc]
  exact List.take_left' (by simp only [List.length_append]; omega)

/-! ## Passes -/

section Passes

variable (env : Env) {p : Place} {name : Str} {s₀ s : Shelf}

/-- A program that makes only such changes. -/
def Makes {α : Type} (m : M α) (s : Shelf) : Prop :=
  Sees World.shelf m (fun _ => Changes s) (fun _ => Changes s) s

theorem submitOne_makes (hp : p ≠ .inbox) (hjson : Str.endsWith Str.json name = true)
    (hdot : name.isDot = false) : Makes (submitOne env p name) s := by
  have hproof : (proofName name).isDot = false := (isDot_proofName hjson).trans hdot
  have hstay : ∀ e : Fault, (fun (_ : Fault) => Changes s) e s := fun _ => .refl
  refine .bind (Sees.pathExists env hp hproof ?_ hstay)
  by_cases hthere : (s.file p (proofName name)).isSome = true
  · rw [hthere]
    exact .pure .refl
  rw [Bool.eq_false_iff.mpr hthere]
  have hnone : s.file p (proofName name) = none := by simpa using hthere
  have hcatch : ∀ (t : Shelf) (e : Fault), Changes s t →
      if e.isException then Sees World.shelf (pure 1 : M Nat) (fun _ => Changes s)
          (fun _ => Changes s) t else Changes s t := by
    intro t e ht
    split_ifs
    · exact .pure ht
    · exact ht
  refine .bind (Sees.attempt (.bind (Sees.readBytes env hp hdot (fun raw hraw => .bind (Sees.ask env
    (fun _ response _ => .bind (Sees.ofOts (fun ots hots => .bind ?_) fun e => hcatch s _ .refl))
    fun e => hcatch s e .refl)) fun e => hcatch s e .refl)))
  have hchange : Changes s (s.store p (proofName name) ots) :=
    .single (.submitted hjson hraw hnone (buildOts_ok hots))
  refine Sees.writeAtomic env hp hproof (.pure ?_) (fun e => hcatch s e .refl)
    (fun e => hcatch _ e hchange)
  exact .bind (Sees.ofOts (fun _ _ => .pure hchange) fun _ => hchange)

theorem submitPass_makes (hp : p ≠ .inbox) : Makes (submitPass env p) s := by
  refine .bind (Sees.listFiles env (fun names hnames => ?_) fun _ => .refl)
  refine .total names (I := Changes s) (fun name hmem t ht => ?_) (fun _ _ ht => ht) .refl
  obtain ⟨hjson, hdot⟩ := hnames name hmem
  exact (submitOne_makes env hp hjson hdot).mono (fun _ _ hu => ht.trans hu)
    fun _ _ hu => ht.trans hu

/-- A proof is called pending only where it is a pending proof of the file. -/
theorem proofState_pending {data raw : Bytes} (h : proofState data raw = .ok .pending) :
    ∃ proof uri, parseOts data = .ok proof ∧ proof.digest = Sha256.digest raw ∧
      proof.attestation = .pending uri := by
  unfold proofState at h
  split at h
  · exact nomatch h
  · exact nomatch h
  next proof hparse =>
    by_cases hdigest : proof.digest = Sha256.digest raw
    · rw [if_neg (not_not.mpr hdigest)] at h
      split at h
      · exact nomatch h
      next uri huri => exact ⟨proof, uri, hparse, hdigest, huri⟩
      · exact nomatch h
    · rw [if_pos hdigest] at h
      exact nomatch h

theorem Sees.describeProof {path : Str} {raw : Bytes} {Q : ProofState → Shelf → Prop}
    {E : Fault → Shelf → Prop} (hp : p ≠ .inbox) (hpath : path.isDot = false) (hok : ∀ state,
      (state = .pending → ∃ data, s.file p path = some data ∧ proofState data raw = .ok .pending) →
      Q state s) (herr : ∀ e, E e s) : Sees World.shelf (describeProof env p path raw) Q E s := by
  refine .bind (Sees.pathExists env hp hpath ?_ herr)
  refine .ite (fun _ => .pure (hok _ fun h => nomatch h)) fun _ => ?_
  refine .bind (Sees.attempt (Sees.readBytes env hp hpath (fun data hdata => ?_) fun e => ?_))
  · exact Sees.ofOts (fun state hstate => hok _ fun hpending => ⟨data, hdata, hpending ▸ hstate⟩)
      fun e => herr _
  · split_ifs
    · exact .pure (hok _ fun h => nomatch h)
    · exact herr e

theorem upgradePending_makes {raw data : Bytes} (hp : p ≠ .inbox)
    (hjson : Str.endsWith Str.json name = true) (hdot : name.isDot = false)
    (hraw : s.file p name = some raw) (hdata : s.file p (proofName name) = some data)
    (hpending : proofState data raw = .ok .pending) :
    Makes (upgradePending env p (proofName name)) s := by
  have hproof : (proofName name).isDot = false := (isDot_proofName hjson).trans hdot
  obtain ⟨proof, uri, hparse, hdigest, huri⟩ := proofState_pending hpending
  refine .bind (Sees.attempt (.bind (Sees.readBytes env hp hproof (fun ots hots => .bind (Sees.ofOts
    (fun proof' _ => .bind (Sees.ask env (fun _ response _ => .pure ?_) fun e => ?_)) fun e =>
      ?_)) fun e => ?_)))
  · obtain rfl : data = ots := Option.some.inj (hdata.symm.trans hots)
    cases response with
    | none => exact .pure .refl
    | some response =>
        refine .bind (Sees.attempt (.bind (Sees.ofOts (fun new hnew => .bind ?_) fun e => ?_)))
        · obtain ⟨old', new', uri', height, hold', huri', hnew', hheight, hsame, hext⟩ :=
            spliceUpgrade_ok hnew
          obtain rfl := Except.ok.inj (hparse.symm.trans hold')
          have hchange : Changes s (s.store p (proofName name) new) :=
            .single (.upgraded hjson hraw hdata
              ⟨proof, new', uri, height, hparse, hdigest, huri, hnew', hsame.trans hdigest,
                hheight, hext⟩)
          refine Sees.writeAtomic env hp hproof (.pure ?_) (fun e => ?_) fun e => ?_
          · exact .bind (Sees.ofOts (fun _ _ => .pure hchange) fun _ => hchange)
          · split_ifs
            · exact .pure .refl
            · exact .refl
          · split_ifs
            · exact .pure hchange
            · exact hchange
        · split_ifs
          · exact .pure .refl
          · exact .refl
  all_goals
    split_ifs
    · exact .pure .refl
    · exact .refl

theorem upgradeOne_makes (hp : p ≠ .inbox) (hjson : Str.endsWith Str.json name = true)
    (hdot : name.isDot = false) : Makes (upgradeOne env p (proofName name)) s := by
  have hproof : (proofName name).isDot = false := (isDot_proofName hjson).trans hdot
  have hname : (proofName name).take ((proofName name).length - Str.ots.length) = name :=
    List.take_left' (by simp only [proofName, List.length_append]; omega)
  unfold Makes upgradeOne
  rw [hname]
  refine .bind (Sees.attempt (Sees.readBytes env hp hdot (fun raw hraw => ?_) fun e => ?_))
  · refine .bind (Sees.describeProof env hp hproof (fun state hstate => ?_) fun _ => .refl)
    refine .ite (fun _ => .pure .refl) fun _ => .ite (fun _ => ?_) fun hpending => ?_
    · refine .bind (Sees.attempt (.bind (Sees.fsyncFile env hp hproof
            (Sees.fsyncDir env (.pure .refl) fun e => ?_) fun e => ?_)))
      all_goals
        split_ifs
        · exact .pure .refl
        · exact .refl
    · obtain ⟨data, hdata, hdescribed⟩ := hstate (not_not.mp hpending)
      exact upgradePending_makes env hp hjson hdot hraw hdata hdescribed
  · split_ifs
    · exact .pure .refl
    · exact .refl

theorem upgradePass_makes (hp : p ≠ .inbox) : Makes (upgradePass env p) s := by
  refine .bind (Sees.listFiles env (fun names hnames => ?_) fun _ => .refl)
  refine .total names (I := Changes s) (fun path hmem t ht => ?_) (fun _ _ ht => ht) .refl
  obtain ⟨hsuffix, hdot⟩ := hnames path hmem
  obtain ⟨name, rfl, hjson, -⟩ := exists_proofName hsuffix
  exact (upgradeOne_makes env hp hjson ((isDot_proofName hjson).symm.trans hdot)).mono
    (fun _ _ hu => ht.trans hu) fun _ _ hu => ht.trans hu

end Passes

/-! ## What changes keep -/

/-- Every proof that was put in place is a proof of the file beside it. -/
def Proved (s : Shelf) : Prop :=
  ∀ p path, (p, path) ∈ s.stored →
    ∃ name raw data, path = proofName name ∧ Str.endsWith Str.json name = true ∧
    s.file p name = some raw ∧ s.file p path = some data ∧ IsProofOf raw data

/-- A file other than the one changed is as before; a file that is there is changed only where it is
a proof. -/
theorem Change.file {s t : Shelf} (h : Change s t) {p : Place} {name : Str} {data : Bytes}
    (hdata : s.file p name = some data) :
    t.file p name = some data ∨ ∃ name' raw new, name = proofName name' ∧ s.file p name' =
      some raw ∧ t.file p name = some new ∧ Upgrades (Sha256.digest raw) data new := by
  cases h with
  | @submitted p' name' raw ots hjson hraw hnone hproof =>
      refine .inl ((Shelf.store_of_ne ?_).trans hdata)
      rintro ⟨rfl, rfl⟩
      exact nomatch hnone.symm.trans hdata
  | @upgraded p' name' raw old new hjson hraw hold hup =>
      by_cases heq : p = p' ∧ name = proofName name'
      · obtain ⟨rfl, rfl⟩ := heq
        obtain rfl := Option.some.inj (hold.symm.trans hdata)
        exact .inr ⟨name', raw, new, rfl, hraw, Shelf.store_self .., hup⟩
      · exact .inl ((Shelf.store_of_ne heq).trans hdata)
  | @arrived p' name' data' hnone =>
      refine .inl ((if_neg ?_).trans hdata)
      rintro ⟨rfl, rfl⟩
      exact nomatch hnone.symm.trans hdata

/-- A manifest or a copy stays. -/
theorem Change.keeps {s t : Shelf} (h : Change s t) {p : Place} {name : Str} {raw : Bytes}
    (hjson : Str.endsWith Str.json name = true) (hraw : s.file p name = some raw) :
    t.file p name = some raw := by
  obtain hsame | ⟨name', _, _, rfl, -⟩ := h.file hraw
  · exact hsame
  · exact absurd rfl (proofName_ne hjson)

theorem Upgrades.isProofOf {raw old new : Bytes} (h : Upgrades (Sha256.digest raw) old new) :
    IsProofOf raw new := by
  obtain ⟨_, proof', _, _, -, -, -, hnew, hdigest, -, -⟩ := h
  exact ⟨proof', hnew, hdigest⟩

theorem Proved.change {s t : Shelf} (hs : Proved s) (h : Change s t) : Proved t := by
  intro p path hmem
  -- what was in place stays a proof, whatever changed
  have hold : (p, path) ∈ s.stored → ∃ name raw data,
      path = proofName name ∧ Str.endsWith Str.json name = true ∧
      t.file p name = some raw ∧ t.file p path = some data ∧ IsProofOf raw data := by
    intro hmem
    obtain ⟨name, raw, data, rfl, hjson, hraw, hdata, hproof⟩ := hs p path hmem
    obtain hsame | ⟨name', raw', new, hname, hraw', hnew, hup⟩ := h.file hdata
    · exact ⟨name, raw, data, rfl, hjson, h.keeps hjson hraw, hsame, hproof⟩
    · obtain rfl := proofName_inj hname
      obtain rfl := Option.some.inj (hraw.symm.trans hraw')
      exact ⟨name, raw, new, rfl, hjson, h.keeps hjson hraw, hnew, hup.isProofOf⟩
  have hkeeps := @Change.keeps _ _ h
  cases h with
  | submitted hjson hraw hnone hproof =>
      obtain heq | hmem := List.mem_cons.mp hmem
      · obtain ⟨rfl, rfl⟩ := Prod.mk.inj heq
        exact ⟨_, _, _, rfl, hjson, hkeeps hjson hraw, Shelf.store_self .., hproof⟩
      · exact hold hmem
  | upgraded hjson hraw hdata hup =>
      obtain heq | hmem := List.mem_cons.mp hmem
      · obtain ⟨rfl, rfl⟩ := Prod.mk.inj heq
        exact ⟨_, _, _, rfl, hjson, hkeeps hjson hraw, Shelf.store_self .., hup.isProofOf⟩
      · exact hold hmem
  | arrived hnone => exact hold hmem

/-- What a run leaves of a proof: the same bytes, or what it was upgraded to. -/
theorem Changes.proof {s t : Shelf} (h : Changes s t) {p : Place} {name : Str} {data : Bytes}
    (hjson : Str.endsWith Str.json name = true) (hdata : s.file p (proofName name) = some data) :
    t.file p (proofName name) = some data ∨ ∃ raw new, t.file p name = some raw ∧
      t.file p (proofName name) = some new ∧ Upgrades (Sha256.digest raw) data new := by
  induction h with
  | refl => exact .inl hdata
  | tail _ hstep ih =>
      obtain hsame | ⟨raw, new, hraw, hnew, hup⟩ := ih
      · obtain hsame | ⟨name', raw, new, hname, hraw, hnew, hup⟩ := hstep.file hsame
        · exact .inl hsame
        · obtain rfl := proofName_inj hname
          exact .inr ⟨raw, new, hstep.keeps hjson hraw, hnew, hup⟩
      · refine .inr ⟨raw, new, hstep.keeps hjson hraw, ?_, hup⟩
        obtain hsame | ⟨_, _, _, -, -, -, hagain⟩ := hstep.file hnew
        · exact hsame
        · obtain ⟨_, proof', _, _, -, -, -, hparse, -, hbitcoin, -⟩ := hup
          obtain ⟨proof, _, _, _, hparse', -, hpending, -⟩ := hagain
          obtain rfl := Except.ok.inj (hparse.symm.trans hparse')
          exact nomatch hbitcoin.symm.trans hpending

theorem Changes.keeps {s t : Shelf} (h : Changes s t) {p : Place} {name : Str} {raw : Bytes}
    (hjson : Str.endsWith Str.json name = true) (hraw : s.file p name = some raw) :
    t.file p name = some raw := by
  induction h with
  | refl => exact hraw
  | tail _ hstep ih => exact hstep.keeps hjson ih

/-! ## Runs -/

/-- The passes over the state directory, under any answers, and what may happen between them. -/
inductive PassStep : World → World → Prop
  | submit (env : Env) (w : World) {p : Place} : p = .manifests ∨ p = .witnessed →
      PassStep w (submitPass env p w).2
  | upgrade (env : Env) (w : World) {p : Place} : p = .manifests ∨ p = .witnessed →
      PassStep w (upgradePass env p w).2
  | arrive (w : World) (p : Place) (name : Str) (data : Bytes) : w.get p name = none →
      PassStep w (w.put p name data)

/-- Passes over a state directory with any files in it, none of them put there by the passes yet. -/
def passes : Transition.System World where
  init w := w.stored = []
  step := PassStep

theorem PassStep.changes {w w' : World} (h : PassStep w w') : Changes w.shelf w'.shelf := by
  have hplace : ∀ {p : Place}, p = .manifests ∨ p = .witnessed → p ≠ .inbox := by
    rintro p (rfl | rfl) <;> exact fun h => nomatch h
  cases h with
  | submit env w hp => exact (submitPass_makes env (hplace hp)).apply
  | upgrade env w hp => exact (upgradePass_makes env (hplace hp)).apply
  | arrive w p name data hnone =>
      by_cases hidden : p = .inbox ∨ name.isDot = true
      · rw [shelf_put_hidden w hidden]
        exact .refl
      · obtain ⟨hp, hdot⟩ := not_or.mp hidden
        have hname := Bool.eq_false_iff.mpr hdot
        rw [shelf_put w hp hname]
        exact .single (.arrived ((shelf_file hp hname).trans hnone))

theorem changes_of_run {w w' : World} (h : passes.Run w w') : Changes w.shelf w'.shelf := by
  induction h with
  | refl => exact .refl
  | tail _ hstep ih => exact ih.trans hstep.changes

theorem proved_of_reachable {w : World} (h : passes.Reachable w) : Proved w.shelf := by
  induction h with
  | init hinit =>
      intro p path hmem
      change (p, path) ∈ World.stored _ at hmem
      rw [show World.stored _ = [] from hinit] at hmem
      exact absurd hmem List.not_mem_nil
  | step _ hstep ih =>
      have hchanges := PassStep.changes hstep
      generalize World.shelf _ = s at ih hchanges
      generalize World.shelf _ = t at hchanges ⊢
      induction hchanges with
      | refl => exact ih
      | tail _ hchange ih => exact ih.change hchange

theorem get_of_shelf {w : World} {p : Place} {name : Str} {data : Bytes}
    (h : w.shelf.file p name = some data) : w.get p name = some data := by
  by_cases hidden : p = .inbox ∨ name.isDot = true
  · exact nomatch (if_pos hidden).symm.trans h
  · exact (if_neg hidden).symm.trans h

/-- Whatever the calendar answers and wherever a pass stops: a proof that was put in place is a
linear proof of the file beside it; a Bitcoin proof stays; a pending proof stays, or gives way
to one whose path carries its own on to a Bitcoin attestation; and a proof that is malformed,
not of the file beside it or of an unknown attestation stays. -/
theorem proofs_only_get_better {w w' : World} (hw : passes.Reachable w) (hrun : passes.Run w w') :
    (∀ p path, (p, path) ∈ w.stored → ∃ name raw data, path = proofName name ∧
      w.get p name = some raw ∧ w.get p path = some data ∧ IsProofOf raw data) ∧
    ∀ p name data, p ≠ .inbox → name.isDot = false → Str.endsWith Str.json name = true →
      w.get p (proofName name) = some data →
      (∀ proof height, parseOts data = .ok proof → proof.attestation = .bitcoin height →
        w'.get p (proofName name) = some data) ∧
      (∀ proof uri, parseOts data = .ok proof → proof.attestation = .pending uri →
        w'.get p (proofName name) = some data ∨
          ∃ new proof' height, w'.get p (proofName name) = some new ∧
            parseOts new = .ok proof' ∧ proof'.digest = proof.digest ∧
            proof'.attestation = .bitcoin height ∧ Extends data new) ∧
      ((∃ e, parseOts data = .error e) ∨
          (∃ proof raw, parseOts data = .ok proof ∧ w.get p name = some raw ∧
            proof.digest ≠ Sha256.digest raw) ∨
          (∃ proof tag, parseOts data = .ok proof ∧ proof.attestation = .unknown tag) →
        w'.get p (proofName name) = some data) := by
  refine ⟨fun p path hmem => ?_, fun p name data hp hdot hjson hdata => ?_⟩
  · obtain ⟨name, raw, data, rfl, -, hraw, hdata, hproof⟩ := proved_of_reachable hw p path hmem
    exact ⟨name, raw, data, rfl, get_of_shelf hraw, get_of_shelf hdata, hproof⟩
  have hchanges := changes_of_run hrun
  have hproof : (proofName name).isDot = false := (isDot_proofName hjson).trans hdot
  have hsee := (shelf_file hp hproof).trans hdata
  obtain hsame | ⟨raw, new, hraw, hnew, proof₀, proof', uri₀, height, hparse₀,
    hdigest₀, huri₀, hparse', hdigest', hheight, hext⟩ := hchanges.proof hjson hsee
  · have hget := get_of_shelf hsame
    exact ⟨fun _ _ _ _ => hget, fun _ _ _ _ => .inl hget, fun _ => hget⟩
  have hunique : ∀ {proof}, parseOts data = .ok proof → proof = proof₀ :=
    fun h => Except.ok.inj (h.symm.trans hparse₀)
  refine ⟨fun proof height hparse hbitcoin => ?_, fun proof uri hparse huri => ?_, ?_⟩
  · exact nomatch (hunique hparse ▸ huri₀).symm.trans hbitcoin
  · exact .inr ⟨new, proof', height, get_of_shelf hnew, hparse',
      hdigest'.trans (hunique hparse ▸ hdigest₀.symm), hheight, hext⟩
  · rintro (⟨e, he⟩ | ⟨proof, raw', hparse, hraw', hne⟩ | ⟨proof, tag, hparse, htag⟩)
    · exact nomatch he.symm.trans hparse₀
    · have hkept := hchanges.keeps hjson ((shelf_file hp hdot).trans hraw')
      obtain rfl := Option.some.inj (hkept.symm.trans hraw)
      exact absurd (hunique hparse ▸ hdigest₀) hne
    · exact nomatch (hunique hparse ▸ huri₀).symm.trans htag

namespace Upgraded

/-! ### A proof upgraded by the second pass -/

def name : Str :=
  Str.ofChars ['2', '0', '2', '6', '-', '0', '9', '-', '1', '6', '.', 'j', 's', 'o', 'n']

def raw : Bytes := [0x7b, 0x7d]

/-- A pending attestation of `http://a`, for the digest as it is. -/
def submitted : Bytes :=
  [0x00] ++ pendingTag ++ [0x09, 0x08, 0x68, 0x74, 0x74, 0x70, 0x3a, 0x2f, 0x2f, 0x61]

/-- An operation, and an attestation of block 900000. -/
def upgraded : Bytes := [0x08, 0x00] ++ bitcoinTag ++ [0x03, 0xa0, 0xf7, 0x36]

def env : Env where
  file _ := .done
  landed _ := 0
  token _ := Str.ofChars ['x']
  submit _ _ := .ok submitted
  fetch _ _ := .ok (some upgraded)
  deliveries _ := []

def start : World :=
  ⟨fun p => if p = .manifests then Directory.empty.put name raw else .empty, 0, []⟩

def afterSubmit : World := (submitPass env .manifests start).2

def afterUpgrade : World := (upgradePass env .manifests afterSubmit).2

def header : Bytes := magic ++ [0x01, 0x08] ++ Sha256.digest raw

def proof : Proof :=
  ⟨Sha256.digest raw, Sha256.digest raw, .pending ['h', 't', 't', 'p', ':', '/', '/', 'a'], 65⟩

end Upgraded

open Upgraded in
theorem pending_proof_is_upgraded :
    ∃ new proof' height, afterUpgrade.get .manifests (proofName name) = some new ∧
      parseOts new = .ok proof' ∧ proof'.digest = proof.digest ∧
        proof'.attestation = .bitcoin height ∧ Extends (header ++ submitted) new := by
  have hreach : passes.Reachable afterSubmit :=
    .step (.init (s := start) rfl) (.submit env start (.inl rfl))
  have hrun : passes.Run afterSubmit afterUpgrade := .single (.upgrade env afterSubmit (.inl rfl))
  have hbetter :=
    (proofs_only_get_better hreach hrun).2 .manifests name (header ++ submitted) (by decide)
    (by decide) (by decide +kernel) (by decide +kernel)
  obtain hsame | hnew := hbetter.2.1 proof _ (by decide +kernel) rfl
  · exact absurd hsame (by decide +kernel)
  · exact hnew

end OtsServer.Selfstamp
