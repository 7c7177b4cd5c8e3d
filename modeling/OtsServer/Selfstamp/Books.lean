import OtsServer.Selfstamp.Heartbeat

/-!
# The manifests of the chain

What a run may do to the manifests: the inbox and the passes leave them alone, the entries of a new
manifest are read without a change, and one manifest at most is put in place. `Bookless` is what a
program keeps that changes no manifest.
-/

namespace OtsServer.Selfstamp

open Prog (Keeps)

/-! ## The manifests -/

/-- The manifests of the chain. -/
def World.books (w : World) (name : Str) : Option Bytes :=
  if isBook name then w.get .manifests name else none

section Books

variable {env : Env} {w : World} {p : Place} {name : Str}

theorem books_next : (w.next env).books = w.books := by
  funext name
  unfold World.books
  rw [get_next env w (p := .manifests) nofun]

theorem books_put (h : p ≠ .manifests ∨ isBook name = false) (data : Bytes) :
    (w.put p name data).books = w.books := by
  funext name'
  unfold World.books
  split_ifs with hbook
  · rw [get_put, if_neg]
    rintro ⟨rfl, rfl⟩
    obtain h | h := h
    · exact h rfl
    · exact nomatch h.symm.trans hbook
  · rfl

theorem books_erase (h : p ≠ .manifests ∨ isBook name = false) :
    (w.erase p name).books = w.books := by
  funext name'
  unfold World.books
  split_ifs with hbook
  · rw [get_erase, if_neg]
    rintro ⟨rfl, rfl⟩
    obtain h | h := h
    · exact h rfl
    · exact nomatch h.symm.trans hbook
  · rfl

end Books

/-! ## Programs that leave the manifests alone -/

section Bookless

/-- A file that is no manifest. -/
abbrev NoBook (p : Place) (name : Str) : Prop := p ≠ .manifests ∨ isBook name = false

/-- A property that only a change of a manifest ends. -/
abbrev Bookless (env : Env) (I : World → Prop) : Prop := Sparing env NoBook I

theorem bookless_books (env : Env) (b : Str → Option Bytes) :
    Bookless env fun w => w.books = b where
  next _ hw := books_next.trans hw
  put _ _ _ data h hw := (books_put h data).trans hw
  erase _ _ _ h hw := (books_erase h).trans hw
  store _ _ hw := hw

variable {env : Env} {I : World → Prop} {p : Place} {name : Str}

/-! ### The inbox -/

theorem Bookless.quarantine (hI : Bookless env I) (path name : Str) (data : Bytes)
    (kind : Kind) (reason : String) : Keeps I (quarantine env path name data kind reason) :=
  .bind hI.mkdirDurable fun _ => .bind (hI.moveDurable (.inl nofun) (.inl nofun)) fun _ => .pure _

theorem Bookless.consumeCompanion (hI : Bookless env I) (copy companion name : Str)
    (digest : Bytes) : Keeps I (consumeCompanion env copy companion name digest) := by
  refine .bind (hI.pathExists _ _) fun _ => .ite (fun _ => ?_) fun _ => .pure _
  refine .bind (hI.readBytes _ _) fun data =>
    .bind (keeps_tryOts (hI.keepForeignProof (fun _ h => .inr h) _ _ _)) fun kept => ?_
  cases kept with
  | error reason => exact .bind (hI.quarantine _ _ _ _ _) fun _ => .pure _
  | ok _ => exact .bind (hI.removeFile (.inl nofun)) fun _ => .pure _

theorem Bookless.rejectManifest (hI : Bookless env I) (path name companion : Str)
    (raw : Bytes) (reason : String) :
    Keeps I (rejectManifest env path name companion raw reason) := by
  refine .bind (hI.pathExists _ _) fun _ => .ite (fun _ => ?_) fun _ =>
    .bind (hI.quarantine _ _ _ _ _) fun _ => .pure _
  refine .bind (hI.readBytes _ _) fun data => .bind (hI.quarantine _ _ _ _ _) fun _ => ?_
  exact .bind (hI.quarantine _ _ _ _ _) fun _ => .pure _

theorem Bookless.keepCopy (hI : Bookless env I) (m : Items) (raw : Bytes) (held : Held) :
    Keeps I (keepCopy env m raw held) := by
  unfold Selfstamp.keepCopy
  split
  · exact .bind (hI.fsyncFile _ _) fun _ => .bind hI.fsyncDir fun _ => .pure _
  · exact .bind (hI.writeAtomic (p := .witnessed) (fun _ h => .inr h) (.inl nofun) _)
      fun _ => .pure _

variable (loads : Loads)

theorem Bookless.consumeManifest (hI : Bookless env I) (c : Claim) (held : Held) :
    Keeps I (consumeManifest env loads c held) := by
  refine .bind (keeps_attempt (.bind (hI.readBytes _ _) fun raw =>
        .bind (hI.companionClaim _ _) fun found => ?_)) fun r => ?_
  · dsimp only
    split
    · exact .raise _
    · exact .bind (hI.rejectManifest _ _ _ _ _) fun _ => .pure _
    · exact .bind (hI.keepCopy _ _ _) fun _ => .pure _
  · split
    · exact .pure _
    next held rest =>
      refine .bind (keeps_attempt ?_) fun _ => .pure _
      cases rest with
      | inl rejected => exact .pure _
      | inr rest =>
          exact .bind (hI.consumeCompanion _ _ _ _) fun _ =>
            .bind (hI.removeFile (.inl nofun)) fun _ => .pure _

theorem Bookless.consumeManifests (hI : Bookless env I) (cs : List Claim) :
    ∀ held, Keeps I (consumeManifests env loads held cs) := by
  induction cs with
  | nil => exact fun held => .pure _
  | cons c cs ih =>
      exact fun held => .bind (hI.consumeManifest loads c held) fun r =>
        .bind (ih r.1) fun r' => .pure _

theorem Bookless.consumeProof (hI : Bookless env I) (c : Claim) (held : Held) :
    Keeps I (consumeProof env c held) := by
  refine .bind (hI.pathExists _ _) fun _ => .ite (fun _ => .pure _) fun _ =>
    .bind (keeps_attempt ?_) fun _ => .pure _
  refine .bind (hI.readBytes _ _) fun data => ?_
  split
  · exact .bind (hI.quarantine _ _ _ _ _) fun _ => .pure _
  · exact .raise _
  · split
    · refine .bind (hI.manifestWasRejected _) fun _ => .ite (fun _ => ?_) fun _ => .pure _
      exact .bind (hI.quarantine _ _ _ _ _) fun _ => .pure _
    · exact .bind (hI.keepForeignProof (fun _ h => .inr h) _ _ _) fun _ =>
        .bind (hI.removeFile (.inl nofun)) fun _ => .pure _

theorem Bookless.consumeProofs (hI : Bookless env I) (held : Held) (cs : List Claim) :
    Keeps I (consumeProofs env held cs) := by
  induction cs with
  | nil => exact .pure _
  | cons c cs ih => exact .bind (hI.consumeProof c held) fun _ => .bind ih fun _ => .pure _

theorem Bookless.claimOne (hI : Bookless env I) (token name : Str) :
    Keeps I (claimOne env token name) := by
  refine .handle (.bind (hI.rename (.inl nofun) (.inl nofun)) fun _ => .pure _) fun e n hn => ?_
  split at hn <;> cases hn <;> exact .pure _

theorem Bookless.witnessInbox (hI : Bookless env I) : Keeps I (witnessInbox env loads) := by
  refine .bind (keeps_attempt hI.mkdirDurable) fun made => ?_
  cases made with
  | none => exact .pure _
  | some _ =>
      refine .bind (keeps_attempt (.bind ?_ fun _ => .bind (hI.claims _) fun _ => .pure _))
        fun claimed => ?_
      · refine .bind (hI.ask _) fun token => .bind (hI.listFiles _ _) fun _ => .bind ?_ fun _ => ?_
        · exact .total _ fun name _ => hI.claimOne token name
        · exact .bind (hI.listFiles _ _) fun _ =>
            .bind (.total _ fun name _ => hI.claimOne token name) fun _ => .pure _
      · cases claimed with
        | none => exact .pure _
        | some claimed =>
            refine .bind (.bind (.bind (hI.listFiles _ _) fun names => hI.readCopies names [])
                fun held => ?_) fun _ => .pure _
            refine .bind (hI.consumeManifests loads _ held) fun r =>
              .bind (keeps_attempt (hI.claims _)) fun companions => ?_
            cases companions with
            | none => exact .pure _
            | some companions =>
                refine .bind (hI.consumeProofs _ companions) fun _ =>
                  .bind (keeps_attempt hI.fsyncDir) fun synced => ?_
                cases synced <;> exact .pure _

end Bookless

/-! ## The run -/

section Run

variable {env : Surroundings} {I : World → Prop}

theorem Still.loadManifest (hI : Still env.toEnv I) (path : Str) :
    Keeps I (loadManifest env path) :=
  .bind (hI.readBytes _ _) fun _ => .ofExcept _

theorem Still.foldFiles (hI : Still env.toEnv I) (paths : List Str) :
    ∀ folded, Keeps I (foldFiles env folded paths) := by
  induction paths with
  | nil => exact fun folded => .pure _
  | cons path paths ih =>
      refine fun folded => .bind (keeps_attempt (hI.loadManifest path)) fun manifest => ?_
      cases manifest with
      | none => exact ih folded
      | some manifest =>
          dsimp only
          split
          · exact .raise _
          · exact ih _

theorem Still.foldedFiles (hI : Still env.toEnv I) : Keeps I (foldedFiles env) :=
  .bind (hI.listFiles _ _) fun paths => hI.foldFiles paths []

theorem Still.foreignState (hI : Still env.toEnv I) (copy : Str) (digest : Bytes) :
    Keeps I (foreignState env copy digest) := by
  refine .bind (hI.pathExists _ _) fun _ =>
    .ite (fun _ => .bind (keeps_attempt (hI.readBytes _ _)) fun data => ?_) fun _ => .pure _
  cases data with
  | none => exact .pure _
  | some data =>
      dsimp only
      split
      · exact .pure _
      · exact .raise _
      · exact .ite (fun _ => .pure _) fun _ => .pure _

theorem Still.foldCopy (hI : Still env.toEnv I) (copy : Str) (found : Found) :
    Keeps I (foldCopy env copy found) := by
  refine .bind (.gets _) fun call => .bind (keeps_attempt ?_) fun read => ?_
  · exact .bind (hI.readBytes _ _) fun _ => .bind (.ofExcept _) fun _ => .pure _
  · cases read with
    | none => exact .pure _
    | some read => exact .bind (hI.ask _) fun _ => .bind (hI.foreignState _ _) fun _ => .pure _

theorem Still.foldCopies (hI : Still env.toEnv I) (folded copies : List Str) :
    ∀ found, Keeps I (foldCopies env folded found copies) := by
  induction copies with
  | nil => exact fun found => .pure _
  | cons copy copies ih =>
      exact fun found => .ite (fun _ => ih found) fun _ =>
        .bind (hI.foldCopy copy found) fun _ => ih _

theorem Still.witnessedEntries (hI : Still env.toEnv I) : Keeps I (witnessedEntries env) :=
  .bind hI.foldedFiles fun _ => .bind (hI.listFiles _ _) fun _ => hI.foldCopies _ _ _

theorem Still.latestManifest (hI : Still env.toEnv I) : Keeps I (latestManifest env) := by
  refine .bind (hI.listFiles _ _) fun names => ?_
  split
  · exact .pure _
  · exact .bind (hI.readBytes _ _) fun _ => .bind (.ofExcept _) fun _ => .pure _

theorem Still.labelledBefore (hI : Still env.toEnv I) (paths : List Str) :
    Keeps I (labelledBefore env paths) := by
  induction paths with
  | nil => exact .pure _
  | cons path paths ih =>
      refine .bind (hI.loadManifest path) fun manifest => ?_
      split
      · exact .ite (fun _ => .pure _) fun _ => ih
      · exact .raise _

theorem Still.buildManifest (hI : Still env.toEnv I) (period : Str) (entries : List Items) :
    Keeps I (buildManifest env period entries) := by
  refine .bind hI.latestManifest fun latest => .bind (hI.ask _) fun _ =>
    .bind (hI.ask _) fun _ => ?_
  cases latest <;> exact .pure _

theorem Still.compose (hI : Still env.toEnv I) (cfg : Settings) : Keeps I (compose env cfg) :=
  .bind hI.witnessedEntries fun _ => .bind (hI.buildManifest _ _) fun _ => .pure _

theorem Still.admits (hI : Still env.toEnv I) (period : Str) : Keeps I (admits env period) := by
  refine .bind (keeps_attempt hI.latestManifest) fun latest => ?_
  split
  · exact .pure _
  · exact .pure _
  · refine .ite (fun _ => .pure _) fun _ => .ite (fun _ => .pure _) fun _ =>
      .bind (keeps_attempt ?_) fun _ => .pure _
    exact .bind (hI.listFiles _ _) fun paths => hI.labelledBefore paths

section Passes

variable {free : Place → Str → Prop} (hI : Sparing env.toEnv free I)
  (hbooks : ∀ name, isBook name = false → free .manifests name)
  (hcopies : ∀ name, isBook name = false → free .witnessed name)

include hI hbooks hcopies

/-- The passes of a run keep what may be kept, and a run with a failure before them does not end
well. -/
theorem Sparing.passesOf (failures : Nat) (w : World) (hw : I w) :
    Prog.wp (passesOf env failures) (fun code t => I t ∧ (code = 0 → failures = 0))
      (fun _ => I) w := by
  rw [Selfstamp.passesOf, Prog.wp_bind]
  refine Prog.wp_mono (hI.submitPass hbooks w hw) (fun own t ht => ?_) fun _ _ h => h
  rw [Prog.wp_bind]
  refine Prog.wp_mono (hI.submitPass hcopies t ht) (fun witnessed u hu => ?_) fun _ _ h => h
  rw [Prog.wp_bind]
  refine Prog.wp_mono (hI.upgradePass hbooks u hu) (fun own' v hv => ?_) fun _ _ h => h
  rw [Prog.wp_bind]
  refine Prog.wp_mono (hI.upgradePass hcopies v hv) (fun witnessed' x hx => ?_) fun _ _ h => h
  refine ⟨hx, fun hcode => ?_⟩
  split_ifs at hcode with hsum
  omega

theorem Sparing.upgradeOnly : Keeps I (upgradeOnly env) :=
  .bind (hI.upgradePass hbooks) fun _ => .bind (hI.upgradePass hcopies) fun _ => .pure _

end Passes

theorem Bookless.passesOf (hI : Bookless env.toEnv I) (failures : Nat) :
    Keeps I (passesOf env failures) :=
  fun w hw =>
  Prog.wp_mono (Sparing.passesOf hI (fun _ h => .inr h) (fun _ h => .inr h) failures w hw)
    (fun _ _ h => h.1) fun _ _ h => h

theorem Bookless.upgradeOnly (hI : Bookless env.toEnv I) : Keeps I (upgradeOnly env) :=
  Sparing.upgradeOnly hI (fun _ h => .inr h) fun _ h => .inr h

theorem still_free (env : Env) (name : Str) : Still env fun w => w.books name = none where
  next _ hw := (congrFun books_next name).trans hw

/-- Until it comes to its manifest a run changes none, and it comes there only if the manifest's
name is free. -/
theorem wp_arrive (hI : Bookless env.toEnv I) (cfg : Settings) (w : World) (hw : I w) :
    Prog.wp (arrive env cfg) (fun stage t => I t ∧ ∀ n, stage = .build n →
        t.books cfg.manifest = none) (fun _ => I) w := by
  have hrest : ∀ (report : Report) t, I t → Prog.wp (do
      if ← pathExists env.toEnv .manifests cfg.manifest then pure (Stage.noop report.failures)
      else if ← admits env cfg.period then pure (Stage.build report.failures)
      else pure (Stage.ends 1) : M Stage) (fun stage t => I t ∧ ∀ n, stage = .build n →
            t.books cfg.manifest = none) (fun _ => I) t := by
    intro report t ht
    rw [Prog.wp_bind, pathExists, Prog.wp_bind]
    refine Prog.wp_mono (hI.fileCall t ht) (fun _ u hu => ?_) fun _ _ hu => hu
    rw [Prog.wp_gets, Prog.wp_ite]
    refine ⟨fun _ => ⟨hu, nofun⟩, fun hfree => ?_⟩
    have hfree : u.books cfg.manifest = none := by
      rw [World.books, Option.not_isSome_iff_eq_none.mp hfree, ite_self]
    rw [Prog.wp_bind]
    refine Prog.wp_mono ((hI.toStill.and (still_free _ _)).admits _ u ⟨hu, hfree⟩)
      (fun admitted v hv => ?_) fun _ _ hv => hv.1
    cases admitted with
    | false => exact ⟨hv.1, nofun⟩
    | true => exact ⟨hv.1, fun _ _ => hv.2⟩
  rw [arrive, Prog.wp_ite]
  refine ⟨fun _ => ⟨hw, nofun⟩, fun _ => ?_⟩
  rw [Prog.wp_bind]
  refine Prog.wp_mono (keeps_attempt hI.mkdirDurable w hw) (fun made t ht => ?_) fun _ _ ht => ht
  cases made with
  | none => exact ⟨ht, nofun⟩
  | some _ =>
      dsimp only
      rw [Prog.wp_ite]
      refine ⟨fun _ => ?_, fun _ => hrest .none t ht⟩
      rw [Prog.wp_bind]
      exact Prog.wp_mono (hI.witnessInbox env.loads t ht)
        (fun report u hu => hrest report u hu) fun _ _ hu => hu

end Run

end OtsServer.Selfstamp
