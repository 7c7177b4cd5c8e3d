import OtsServer.Selfstamp.Inbox
import OtsServer.Selfstamp.Strongest

/-!
# What a program spares

A program that only reads keeps every property that no call alone ends: `Still`. One that also
changes files keeps those that no change of these files ends: `Sparing`, over which files it is free
to change. The proofs beside copies and manifests are written with temporary files, so all these
programs need is to be free to change what is no manifest.
-/

namespace OtsServer.Selfstamp

open Prog (Keeps)

/-! ## Names -/

/-- A name of a manifest, as `_files` lists them. -/
def isBook (name : Str) : Bool := Str.endsWith Str.json name && !name.isDot

section Names

variable {name : Str}

theorem listed_iff {suffix : Str} : (Str.endsWith suffix name && !name.isDot) = true ↔
    Str.endsWith suffix name = true ∧ name.isDot = false := by
  rw [Bool.and_eq_true, Bool.not_eq_true']

theorem not_isBook_of_dot (h : name.isDot = true) : isBook name = false := by
  rw [isBook, h, Bool.not_true, Bool.and_false]

/-- A proof is no manifest. -/
theorem not_isBook_proofName (name : Str) : isBook (proofName name) = false := by
  rw [isBook, Bool.and_eq_false_iff]
  refine .inl (Bool.eq_false_iff.mpr fun h => ?_)
  exact proofName_ne h rfl

theorem foreignName_ne_json {name : Str} (hjson : Str.endsWith Str.json name = true) (copy : Str) :
    foreignName copy ≠ name := by
  rw [foreignName]
  exact proofName_ne hjson

/-- A set-aside name ends in a hex digit. -/
theorem asideName_ne_of_endsWith {suffix name : Str} (target : Str) (held : Bytes)
    (hend : Str.endsWith suffix name = true) {c : Nat} (hlast : suffix.getLast? = some c)
    (hc : ¬((0x30 ≤ c ∧ c ≤ 0x39) ∨ (0x61 ≤ c ∧ c ≤ 0x66))) : asideName target held ≠ name := by
  rintro rfl
  obtain ⟨front, hfront⟩ := List.isSuffixOf_iff_suffix.mp hend
  have hne : hexPrefix held ≠ [] := fun hnil => by
    have hlength := hexPrefix_length held
    rw [hnil] at hlength
    exact nomatch hlength
  have hsuffix : suffix ≠ [] := by
    rintro rfl
    exact nomatch hlast
  have heq := congrArg List.getLast? hfront
  rw [List.getLast?_append_of_ne_nil _ hsuffix, hlast, asideName,
    List.getLast?_append_of_ne_nil _ hne] at heq
  exact hc (hexPrefix_hex held c (List.mem_of_getLast? heq.symm))

theorem asideName_ne_json {name : Str} (target : Str) (held : Bytes)
    (hjson : Str.endsWith Str.json name = true) : asideName target held ≠ name :=
  asideName_ne_of_endsWith target held hjson (c := 0x6e) rfl (by decide)

theorem isBook_foreignName (copy : Str) : isBook (foreignName copy) = false := by
  rw [isBook, Bool.and_eq_false_iff]
  exact .inl (Bool.eq_false_iff.mpr fun h => foreignName_ne_json h copy rfl)

theorem isBook_asideName (target : Str) (held : Bytes) :
    isBook (asideName target held) = false := by
  rw [isBook, Bool.and_eq_false_iff]
  exact .inl (Bool.eq_false_iff.mpr fun h => asideName_ne_json target held h rfl)

end Names

/-! ## Programs that only read -/

section Still

/-- A property that no call alone ends. -/
structure Still (env : Env) (I : World → Prop) : Prop where
  next : ∀ w, I w → I (w.next env)

variable {env : Env} {I : World → Prop} {α : Type}

theorem Still.ask (hI : Still env I) (answer : Nat → Except Fault α) :
    Keeps I (ask env answer) := by
  intro w hw
  cases h : answer w.calls with
  | ok a => exact Prog.wp_of_ok (congrArg (·, w.next env) h) (hI.next w hw)
  | error e => exact Prog.wp_of_error (congrArg (·, w.next env) h) (hI.next w hw)

theorem Still.fileCall (hI : Still env I) : Keeps I (fileCall env) := hI.ask _

theorem wp_attempt {m : M α} {catches : Fault → Bool}
    {Q : Option α → World → Prop} {E : Fault → World → Prop} {w : World}
    (h : Prog.wp m (fun a => Q (some a)) (fun e t => if catches e then Q none t else E e t) w) :
    Prog.wp (attempt catches m) Q E w := by
  rw [attempt, Prog.wp_handle, Prog.wp_bind]
  refine Prog.wp_mono h (fun _ _ ha => ha) fun e t he => ?_
  split_ifs at he with hcatch
  · rw [if_pos hcatch]
    exact he
  · rwa [if_neg hcatch]

theorem keeps_attempt {m : M α} {catches : Fault → Bool} (h : Keeps I m) :
    Keeps I (attempt catches m) := by
  refine .handle (.bind h fun a => .pure _) fun e n hn => ?_
  cases hcatch : catches e with
  | true =>
      rw [hcatch, if_pos rfl] at hn
      obtain rfl := Option.some.inj hn
      exact .pure _
  | false =>
      rw [hcatch] at hn
      exact nomatch hn

theorem Still.pathExists (hI : Still env I) (p : Place) (name : Str) :
    Keeps I (pathExists env p name) :=
  .bind hI.fileCall fun _ => .gets _

theorem Still.readBytes (hI : Still env I) (p : Place) (name : Str) :
    Keeps I (readBytes env p name) := by
  refine .bind hI.fileCall fun _ => .bind (.gets _) fun data => ?_
  cases data with
  | none => exact .raise _
  | some data => exact .pure _

theorem Still.listFiles (hI : Still env I) (p : Place) (suffix : Str) :
    Keeps I (listFiles env p suffix) :=
  .bind hI.fileCall fun _ => .gets _

theorem Still.fsyncDir (hI : Still env I) : Keeps I (fsyncDir env) :=
  .bind hI.fileCall fun _ => hI.fileCall

theorem Still.fsyncFile (hI : Still env I) (p : Place) (name : Str) :
    Keeps I (fsyncFile env p name) :=
  .bind (hI.readBytes p name) fun _ => hI.fileCall

theorem Still.mkdirDurable (hI : Still env I) : Keeps I (mkdirDurable env) :=
  .bind hI.fileCall fun _ => .bind hI.fileCall fun _ => hI.fsyncDir

theorem Still.claims (hI : Still env I) (suffix : Str) : Keeps I (claims env suffix) := by
  refine .bind hI.fileCall fun _ => .bind (.gets _) fun names => ?_
  split
  · exact .pure _
  · exact .raise _

theorem Still.readCopies (hI : Still env I) (names : List Str) :
    ∀ held, Keeps I (readCopies env held names) := by
  induction names with
  | nil => exact fun held => .pure _
  | cons name names ih =>
      refine fun held => .bind (keeps_attempt (hI.readBytes _ _)) fun data => ?_
      cases data with
      | none => exact ih held
      | some data => exact ih _

theorem Still.companionClaim (hI : Still env I) (path name : Str) :
    Keeps I (companionClaim env path name) := by
  refine .bind (hI.pathExists _ _) fun _ => .ite (fun _ => .pure _) fun _ => ?_
  exact .bind (hI.claims _) fun _ => .pure _

theorem Still.manifestWasRejected (hI : Still env I) (name : Str) :
    Keeps I (manifestWasRejected env name) :=
  .bind hI.fileCall fun _ => .bind (.gets _) fun _ => .pure _

theorem Still.describeProof (hI : Still env I) (p : Place) (path : Str) (raw : Bytes) :
    Keeps I (describeProof env p path raw) := by
  refine .bind (hI.pathExists _ _) fun _ => .ite (fun _ => .pure _) fun _ => ?_
  refine .bind (keeps_attempt (hI.readBytes _ _)) fun data => ?_
  cases data with
  | none => exact .pure _
  | some data => exact .ofExcept _

/-- The files that are listed, each once. -/
theorem Still.wp_listFiles (hI : Still env I) (p : Place) (suffix : Str) (w : World) (hw : I w) :
    Prog.wp (Selfstamp.listFiles env p suffix) (fun names t => I t ∧ names.Nodup ∧ ∀ name,
        name ∈ names ↔ (Str.endsWith suffix name && !name.isDot) = true ∧ ∃ raw,
        t.get p name = some raw) (fun _ => I) w := by
  rw [Selfstamp.listFiles, Prog.wp_bind]
  refine Prog.wp_mono (hI.fileCall w hw) (fun _ t ht => ?_) fun _ _ ht => ht
  refine ⟨ht, (List.Pairwise.imp ne_of_lt (Directory.names_sorted _)).filter _, fun name => ?_⟩
  rw [List.mem_filter, Directory.mem_names_iff, and_comm]
  exact Iff.rfl

theorem Still.and {J : World → Prop} (hI : Still env I) (hJ : Still env J) :
    Still env fun w => I w ∧ J w where
  next w hw := ⟨hI.next w hw.1, hJ.next w hw.2⟩

theorem keeps_tryOts {α : Type} {m : M α} (h : Keeps I m) : Keeps I (tryOts m) := by
  refine .handle (.bind h fun _ => .pure _) fun e n hn => ?_
  split at hn
  · obtain rfl := Option.some.inj hn
    exact .pure _
  · exact nomatch hn

end Still


/-! ## Programs that change some files -/

/-- A property that only a change of a file which is not `free` ends. -/
structure Sparing (env : Env) (free : Place → Str → Prop) (I : World → Prop) :
    Prop extends Still env I where
  put : ∀ w p name data, free p name → I w → I (w.put p name data)
  erase : ∀ w p name, free p name → I w → I (w.erase p name)
  store : ∀ w files, I w → I { w with stored := files }

section Sparing

variable {env : Env} {free : Place → Str → Prop} {I J : World → Prop} {p p' : Place}
  {name name' : Str}

theorem Sparing.and (hI : Sparing env free I) (hJ : Sparing env free J) :
    Sparing env free fun w => I w ∧ J w where
  next w hw := ⟨hI.next w hw.1, hJ.next w hw.2⟩
  put w p name data h hw := ⟨hI.put w p name data h hw.1, hJ.put w p name data h hw.2⟩
  erase w p name h hw := ⟨hI.erase w p name h hw.1, hJ.erase w p name h hw.2⟩
  store w files hw := ⟨hI.store w files hw.1, hJ.store w files hw.2⟩

theorem Sparing.removeFile (hI : Sparing env free I) (h : free p name) :
    Keeps I (removeFile env p name) :=
  .bind hI.fileCall fun _ => .modify fun w hw => hI.erase w p name h hw

theorem Sparing.rename (hI : Sparing env free I) (h : free p name) (h' : free p' name') :
    Keeps I (rename env p name p' name') := by
  refine .bind hI.fileCall fun _ => .bind (.gets _) fun data => ?_
  cases data with
  | none => exact .raise _
  | some data => exact .modify fun w hw => hI.put _ _ _ _ h' (hI.erase w p name h hw)

theorem Sparing.moveDurable (hI : Sparing env free I) (h : free p name) (h' : free p' name') :
    Keeps I (moveDurable env p name p' name') :=
  .bind (hI.fsyncFile _ _) fun _ => .bind (hI.rename h h') fun _ => .bind hI.fsyncDir fun _ =>
    .ite (fun _ => hI.fsyncDir) fun _ => .pure _

/-! ### Writing in place -/

theorem Sparing.writeTemp (hI : Sparing env free I) {tmp : Str} (htmp : free p tmp) (data : Bytes) :
    Keeps I (writeTemp env p tmp data) := by
  intro w hw
  have hput : ∀ data, I ((w.next env).put p tmp data) :=
    fun data => hI.put _ _ _ _ htmp (hI.next w hw)
  cases h : env.file w.calls with
  | done => exact Prog.wp_of_ok (by rw [Selfstamp.writeTemp, h]) (hput _)
  | raises => exact Prog.wp_of_error (by rw [Selfstamp.writeTemp, h]) (hput _)
  | stops => exact Prog.wp_of_error (by rw [Selfstamp.writeTemp, h]) (hput _)

/-- `mkstemp` returns a name that begins with a dot. -/
theorem Sparing.mkstemp (hI : Sparing env free I) (hp : ∀ name, isBook name = false → free p name)
    (w : World) (hw : I w) :
    Prog.wp (mkstemp env p name) (fun tmp t => free p tmp ∧ I t) (fun _ => I) w := by
  rw [Selfstamp.mkstemp, Prog.wp_bind]
  refine Prog.wp_mono (hI.ask _ w hw) (fun token t ht => ?_) fun _ _ ht => ht
  rw [Prog.wp_bind, Prog.wp_gets]
  split
  · exact ht
  · rw [Prog.wp_bind, Prog.wp_modify]
    have htmp := hp _ (not_isBook_of_dot (isDot_tmp name token))
    exact ⟨htmp, hI.put _ _ _ _ htmp ht⟩

/-- The cleanup ends in an exception. -/
theorem Sparing.discardTemp (hI : Sparing env free I) {tmp : Str} (htmp : free p tmp)
    {e : Fault} {n : M Unit} (hn : discardTemp env p tmp e = some n) (w : World) (hw : I w) :
    Prog.wp n (fun _ _ => False) (fun _ => I) w := by
  have hremove : Keeps I (do
      Selfstamp.fileCall env
      Prog.modify fun w : World => w.erase p tmp : M Unit) := hI.removeFile htmp
  have hcleanup : Prog.wp (do
      let _ ← Selfstamp.attempt Fault.isOsError (do
        Selfstamp.fileCall env
        Prog.modify fun w : World => w.erase p tmp)
      (Prog.raise e : M Unit)) (fun _ _ => False) (fun _ => I) w := by
    rw [Prog.wp_bind]
    exact Prog.wp_mono (keeps_attempt hremove w hw) (fun _ _ h => h) fun _ _ h => h
  cases e with
  | stop => cases hn
  | _ => exact Option.some.inj hn ▸ hcleanup

/-- What `write_atomic` keeps when it puts the file in place, and when it does not. -/
theorem Sparing.wp_writeAtomic (hI : Sparing env free I) (hJ : Sparing env free J)
    (hp : ∀ name, isBook name = false → free p name) (data : Bytes)
    (hput : ∀ w, I w → J (w.put p name data)) (w : World) (hw : I w) :
    Prog.wp (writeAtomic env p name data) (fun _ => J) (fun _ t => I t ∨ J t) w := by
  have hplace : ∀ tmp : Str, free p tmp → ∀ t, I t → Prog.wp (do
      Selfstamp.fileCall env
      Selfstamp.writeTemp env p tmp data
      Selfstamp.fileCall env
      Selfstamp.replaceTemp env p tmp name data) (fun _ => J) (fun _ => I) t := by
    intro tmp htmp t ht
    rw [Prog.wp_bind]
    refine Prog.wp_mono (hI.fileCall t ht) (fun _ u hu => ?_) fun _ _ hu => hu
    rw [Prog.wp_bind]
    refine Prog.wp_mono (hI.writeTemp htmp data u hu) (fun _ u hu => ?_) fun _ _ hu => hu
    rw [Prog.wp_bind]
    refine Prog.wp_mono (hI.fileCall u hu) (fun _ u hu => ?_) fun _ _ hu => hu
    rw [replaceTemp, Prog.wp_bind]
    refine Prog.wp_mono (hI.fileCall u hu) (fun _ u hu => ?_) fun _ _ hu => hu
    exact hJ.store _ _ (hput _ (hI.erase u p tmp htmp hu))
  rw [writeAtomic, Prog.wp_bind]
  refine Prog.wp_mono (hI.mkstemp hp w hw) (fun tmp t ht => ?_) fun _ _ ht => .inl ht
  rw [Prog.wp_bind, Prog.wp_handle]
  refine Prog.wp_mono (hplace tmp ht.1 t ht.2) (fun _ u hu => ?_) fun e u hu => ?_
  · exact Prog.wp_mono (hJ.fsyncDir u hu) (fun _ _ h => h) fun _ _ h => .inr h
  · split
    next n hn =>
      exact Prog.wp_mono (hI.discardTemp ht.1 hn u hu) (fun _ _ h => h.elim) fun _ _ h => .inl h
    next => exact .inl hu

theorem Sparing.writeAtomic (hI : Sparing env free I)
    (hp : ∀ name, isBook name = false → free p name) (h : free p name) (data : Bytes) :
    Keeps I (writeAtomic env p name data) :=
  fun w hw =>
  Prog.wp_mono (hI.wp_writeAtomic hI hp data (fun w hw => hI.put w p name data h hw) w hw)
    (fun _ _ h => h) fun _ _ h => h.elim id id

/-! ### The proofs of a copy -/

section Foreign

variable (hI : Sparing env free I) (hp : ∀ name, isBook name = false → free .witnessed name)

include hI hp

theorem Sparing.storeForeign (copy : Str) (data : Bytes) (proof : Proof) :
    Keeps I (storeForeign env copy data proof) :=
  .bind (hI.writeAtomic hp (hp _ (isBook_foreignName copy)) _) fun _ => .pure _

theorem Sparing.keepForeignProof (copy : Str) (data digest : Bytes) :
    Keeps I (keepForeignProof env copy data digest) := by
  refine .bind (.ofExcept _) fun proof => .bind (hI.pathExists _ _) fun _ => .ite (fun _ => ?_)
    fun _ => hI.storeForeign hp copy data proof
  refine .bind (hI.readBytes _ _) fun held => ?_
  rw [keepOver]
  split
  · refine .bind
      (hI.moveDurable (hp _ (isBook_foreignName copy)) (hp _ (isBook_asideName _ _))) fun _ => ?_
    exact hI.storeForeign hp copy data proof
  · exact .raise _
  · refine .ite (fun _ => ?_) fun _ => hI.storeForeign hp copy data proof
    exact .bind (hI.fsyncFile _ _) fun _ => .bind hI.fsyncDir fun _ => .pure _

end Foreign

/-! ### The passes -/

section Passes

variable (hI : Sparing env free I) (hp : ∀ name, isBook name = false → free p name)

include hI hp

theorem Sparing.submitPass : Keeps I (submitPass env p) := by
  refine .bind (hI.listFiles _ _) fun names => .total names fun name _ => ?_
  refine .bind (hI.pathExists _ _) fun _ => .ite (fun _ => .pure _) fun _ =>
    .bind (keeps_attempt ?_) fun built => ?_
  · refine .bind (hI.readBytes _ _) fun raw => .bind (hI.ask _) fun response =>
      .bind (.ofExcept _) fun ots => ?_
    exact .bind (hI.writeAtomic hp (hp _ (not_isBook_proofName name)) _) fun _ => .pure _
  · cases built with
    | none => exact .pure _
    | some ots => exact .bind (.ofExcept _) fun _ => .pure _

/-- What the upgrade pass writes is a proof. -/
theorem Sparing.upgradePending {path : Str} (h : isBook path = false) :
    Keeps I (upgradePending env p path) := by
  refine .bind (keeps_attempt ?_) fun asked => ?_
  · exact .bind (hI.readBytes _ _) fun _ => .bind (.ofExcept _) fun _ =>
      .bind (hI.ask _) fun _ => .pure _
  · split
    · exact .pure _
    · exact .pure _
    · refine .bind (keeps_attempt ?_) fun upgraded => ?_
      · exact .bind (.ofExcept _) fun _ => .bind (hI.writeAtomic hp (hp _ h) _) fun _ => .pure _
      · cases upgraded with
        | none => exact .pure _
        | some upgraded => exact .bind (.ofExcept _) fun _ => .pure _

theorem Sparing.upgradeOne {path : Str} (h : isBook path = false) :
    Keeps I (upgradeOne env p path) := by
  refine .bind (keeps_attempt (hI.readBytes _ _)) fun raw => ?_
  cases raw with
  | none => exact .pure _
  | some raw =>
      refine .bind (hI.describeProof _ _ _) fun state => .ite (fun _ => .pure _) fun _ =>
        .ite (fun _ => ?_) fun _ => hI.upgradePending hp h
      refine .bind (keeps_attempt (.bind (hI.fsyncFile _ _) fun _ => hI.fsyncDir)) fun synced => ?_
      cases synced <;> exact .pure _

theorem Sparing.upgradePass : Keeps I (upgradePass env p) := by
  intro w hw
  rw [Selfstamp.upgradePass, Prog.wp_bind]
  refine Prog.wp_mono (hI.wp_listFiles p _ w hw) ?_ fun _ _ ht => ht
  rintro paths t ⟨ht, -, hpaths⟩
  refine Keeps.total _ (fun path hpath => ?_) t ht
  obtain ⟨hsuffix, -⟩ := (Bool.and_eq_true _ _).mp ((hpaths path).mp hpath).1
  obtain ⟨name, rfl, -⟩ := exists_proofName hsuffix
  exact hI.upgradeOne hp (not_isBook_proofName name)

end Passes

end Sparing

end OtsServer.Selfstamp
