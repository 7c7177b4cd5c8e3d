import OtsServer.Selfstamp.Sparing

/-!
# Which faults a program raises

What a program may raise, whatever the files are: the faults of its calls to the file system, and
those it raises itself. A pass in which no call fails raises only what its loops catch.
-/

namespace OtsServer.Selfstamp

open Prog (Sees)

/-- A program that raises only faults of a kind. -/
def Raises {α : Type} (P : Fault → Prop) (m : M α) : Prop :=
  ∀ w, Prog.wp m (fun _ _ => True) (fun e _ => P e) w

/-- A kind of fault that has those of the calls to the file system. -/
structure FileFaults (env : Env) (P : Fault → Prop) : Prop where
  answer : ∀ n e, (env.file n).result = .error e → P e
  missing : P .fileNotFound
  osError : P .osError

/-- No `OtsError`. -/
def NotOts (e : Fault) : Prop := e.isOtsError = false

/-- A fault that the loops of a pass catch, when no call of the pass fails. -/
def Caught (env : Env) (e : Fault) : Prop := (∀ n, env.file n = .done) → e.isOsError = true

theorem fileFaults_notOts (env : Env) : FileFaults env NotOts where
  answer n e h := by
    cases hn : env.file n <;> rw [hn] at h
    · cases h
    · exact Except.error.inj h ▸ rfl
    · exact Except.error.inj h ▸ rfl
  missing := rfl
  osError := rfl

theorem fileFaults_caught (env : Env) : FileFaults env (Caught env) where
  answer n e h hdone := by
    rw [hdone] at h
    cases h
  missing _ := rfl
  osError _ := rfl

section Faults

variable (env : Env) {α β : Type} {P : Fault → Prop} {m : M α} {p : Place} {name : Str}

theorem Raises.pure (a : α) : Raises P (Pure.pure a : M α) := fun _ => trivial

theorem Raises.raise {e : Fault} (h : P e) : Raises P (Prog.raise e : M α) := fun _ => h

theorem Raises.gets (f : World → α) : Raises P (Prog.gets f) := fun _ => trivial

theorem Raises.modify (f : World → World) : Raises P (Prog.modify f) := fun _ => trivial

theorem Raises.bind {f : α → M β} (hm : Raises P m) (hf : ∀ a, Raises P (f a)) :
    Raises P (m >>= f) := by
  intro w
  rw [Prog.wp_bind]
  exact Prog.wp_mono (hm w) (fun a t _ => hf a t) fun _ _ h => h

theorem Raises.ite {c : Prop} [Decidable c] {n : M α} (hm : Raises P m) (hn : Raises P n) :
    Raises P (if c then m else n) := by
  split_ifs
  · exact hm
  · exact hn

theorem Raises.handle {h : Fault → Option (M α)} (hm : Raises P m)
    (hh : ∀ e n, P e → h e = some n → Raises P n) : Raises P (Prog.handle m h) := by
  intro w
  rw [Prog.wp_handle]
  refine Prog.wp_mono (hm w) (fun _ _ h => h) fun e t he => ?_
  split
  next n hn => exact hh e n he hn t
  next => exact he

theorem Raises.ask {answer : Nat → Except Fault α} (h : ∀ n e, answer n = .error e → P e) :
    Raises P (Selfstamp.ask env answer) := by
  intro w
  cases hr : answer w.calls with
  | ok a => exact Prog.wp_of_ok (congrArg (·, w.next env) hr) trivial
  | error e => exact Prog.wp_of_error (congrArg (·, w.next env) hr) (h _ e hr)

theorem Raises.attempt {catches : Fault → Bool} (h : Raises P m) :
    Raises P (Selfstamp.attempt catches m) := by
  refine .handle (.bind h fun a => .pure _) fun e n _ hn => ?_
  cases hcatch : catches e with
  | true =>
      rw [hcatch, if_pos rfl] at hn
      exact Option.some.inj hn ▸ .pure _
  | false =>
      rw [hcatch] at hn
      exact nomatch hn

theorem Raises.tryOts (h : Raises P m) : Raises P (Selfstamp.tryOts m) := by
  refine .handle (.bind h fun a => .pure _) fun e n _ hn => ?_
  split at hn
  · exact Option.some.inj hn ▸ .pure _
  · exact nomatch hn

/-- Two facts about one run. -/
theorem Raises.sees {τ : Type} {view : World → τ} {Q : α → τ → Prop} {E : Fault → τ → Prop}
    {s : τ} (hm : Raises P m) (h : Sees view m Q E s) :
    Sees view m Q (fun e t => P e ∧ E e t) s := by
  refine ⟨fun w hw => ?_⟩
  have hwp := h.out w hw
  have hraises := hm w
  revert hwp hraises
  simp only [Prog.wp]
  rcases m w with ⟨_ | _, t⟩
  · exact fun hE he => ⟨he, hE⟩
  · exact fun hQ _ => hQ

/-! ### Calls -/

/-- A call that fails is none of a pass in which no call fails. -/
theorem Raises.failing : Raises (fun _ => ¬∀ n, env.file n = .done) (Selfstamp.fileCall env) := by
  refine .ask env fun n e h hdone => ?_
  rw [hdone] at h
  cases h

section Files

variable (hP : FileFaults env P)

include hP

theorem Raises.fileCall : Raises P (Selfstamp.fileCall env) := .ask env hP.answer

theorem Raises.pathExists (p : Place) (name : Str) : Raises P (Selfstamp.pathExists env p name) :=
  .bind (.fileCall env hP) fun _ => .gets _

theorem Raises.readBytes (p : Place) (name : Str) : Raises P (Selfstamp.readBytes env p name) := by
  refine .bind (.fileCall env hP) fun _ => .bind (.gets _) fun data => ?_
  cases data with
  | none => exact .raise hP.missing
  | some data => exact .pure _

theorem Raises.listFiles (p : Place) (suffix : Str) : Raises P (Selfstamp.listFiles env p suffix) :=
  .bind (.fileCall env hP) fun _ => .gets _

theorem Raises.fsyncDir : Raises P (Selfstamp.fsyncDir env) :=
  .bind (.fileCall env hP) fun _ => .fileCall env hP

theorem Raises.fsyncFile (p : Place) (name : Str) : Raises P (Selfstamp.fsyncFile env p name) :=
  .bind (.readBytes env hP p name) fun _ => .fileCall env hP

theorem Raises.mkdirDurable : Raises P (Selfstamp.mkdirDurable env) :=
  .bind (.fileCall env hP) fun _ => .bind (.fileCall env hP) fun _ => .fsyncDir env hP

theorem Raises.removeFile (p : Place) (name : Str) : Raises P (Selfstamp.removeFile env p name) :=
  .bind (.fileCall env hP) fun _ => .modify _

theorem Raises.writeTemp (tmp : Str) (data : Bytes) :
    Raises P (Selfstamp.writeTemp env p tmp data) := by
  intro w
  have hanswer := hP.answer w.calls
  cases h : env.file w.calls <;> rw [h] at hanswer
  · exact Prog.wp_of_ok (by rw [Selfstamp.writeTemp, h]) trivial
  · exact Prog.wp_of_error (by rw [Selfstamp.writeTemp, h]) (hanswer _ rfl)
  · exact Prog.wp_of_error (by rw [Selfstamp.writeTemp, h]) (hanswer _ rfl)

theorem Raises.mkstemp (p : Place) (name : Str) : Raises P (Selfstamp.mkstemp env p name) := by
  refine .bind (.ask env fun n e h => ?_) fun token => .bind (.gets _) fun there => ?_
  · cases hr : (env.file n).result with
    | ok a =>
        rw [hr] at h
        exact nomatch h
    | error e' =>
        rw [hr] at h
        exact Except.error.inj h ▸ hP.answer n e' hr
  · cases there with
    | some _ => exact .raise hP.osError
    | none => exact .bind (.modify _) fun _ => .pure _

theorem Raises.writeAtomic (p : Place) (name : Str) (data : Bytes) :
    Raises P (Selfstamp.writeAtomic env p name data) := by
  refine .bind (.mkstemp env hP p name) fun tmp => .bind (.handle ?_ fun e n he hn => ?_) fun _ =>
    .fsyncDir env hP
  · exact .bind (.fileCall env hP) fun _ => .bind (.writeTemp env hP tmp data) fun _ =>
        .bind (.fileCall env hP) fun _ =>
      .bind (.fileCall env hP) fun _ => .modify _
  · have hcleanup : Raises P (do
        let _ ← Selfstamp.attempt Fault.isOsError (do
          Selfstamp.fileCall env
          Prog.modify fun w : World => w.erase p tmp)
        (Prog.raise e : M Unit)) :=
      .bind (.attempt (.bind (.fileCall env hP) fun _ => .modify _)) fun _ => .raise he
    cases e with
    | stop => exact nomatch hn
    | _ => exact Option.some.inj hn ▸ hcleanup

theorem Raises.moveDurable (p : Place) (name : Str) (p' : Place) (name' : Str) :
    Raises P (Selfstamp.moveDurable env p name p' name') := by
  refine .bind (.fsyncFile env hP p name) fun _ =>
      .bind (.bind (.fileCall env hP) fun _ => .bind (.gets _) fun data => ?_) fun _ =>
    .bind (.fsyncDir env hP) fun _ => .ite (.fsyncDir env hP) (.pure _)
  cases data with
  | none => exact .raise hP.missing
  | some data => exact .modify _

theorem Raises.quarantine (path name : Str) (data : Bytes) (kind : Kind) (reason : String) :
    Raises P (Selfstamp.quarantine env path name data kind reason) :=
  .bind (.mkdirDurable env hP) fun _ => .bind (.moveDurable env hP _ _ _ _) fun _ => .pure _

theorem Raises.storeForeign (copy : Str) (data : Bytes) (proof : Proof) :
    Raises P (Selfstamp.storeForeign env copy data proof) :=
  .bind (.writeAtomic env hP _ _ data) fun _ => .pure _

/-- Only the delivered bytes can be refused. -/
theorem Raises.keepForeignProof {copy : Str} {data digest : Bytes} {parsed : Proof}
    (h : checkForeignProof data digest = .ok parsed) :
    Raises P (Selfstamp.keepForeignProof env copy data digest) := by
  rw [Selfstamp.keepForeignProof, h]
  refine .bind (.pure parsed) fun proof => .bind (.pathExists env hP _ _) fun _ =>
    .ite ?_ (.storeForeign env hP copy data proof)
  refine .bind (.readBytes env hP _ _) fun held => ?_
  rw [keepOver]
  cases hheld : checkForeignProof held digest with
  | error e =>
      obtain ⟨text, rfl⟩ := Strength.checkForeignProof_onlyOtsError digest e hheld
      exact .bind (.moveDurable env hP _ _ _ _) fun _ => .storeForeign env hP copy data proof
  | ok old =>
      refine .ite ?_ (.storeForeign env hP copy data proof)
      exact .bind (.fsyncFile env hP _ _) fun _ => .bind (.fsyncDir env hP) fun _ => .pure _

theorem Raises.rejectManifest (path name companion : Str) (raw : Bytes) (reason : String) :
    Raises P (Selfstamp.rejectManifest env path name companion raw reason) := by
  refine .bind (.pathExists env hP _ _) fun _ =>
    .ite ?_ (.bind (.quarantine env hP _ _ _ _ _) fun _ => .pure _)
  refine .bind (.readBytes env hP _ _) fun data => .bind (.quarantine env hP _ _ _ _ _) fun _ => ?_
  exact .bind (.quarantine env hP _ _ _ _ _) fun _ => .pure _

theorem Raises.keepCopy (m : Items) (raw : Bytes) (held : Held) :
    Raises P (Selfstamp.keepCopy env m raw held) := by
  unfold Selfstamp.keepCopy
  split
  · exact .bind (.fsyncFile env hP _ _) fun _ => .bind (.fsyncDir env hP) fun _ => .pure _
  · exact .bind (.writeAtomic env hP _ _ _) fun _ => .pure _

theorem Raises.tryKeep (copy : Str) (data digest : Bytes) :
    Raises P (Selfstamp.tryOts (Selfstamp.keepForeignProof env copy data digest)) := by
  cases h : checkForeignProof data digest with
  | ok parsed => exact .tryOts (.keepForeignProof env hP h)
  | error e =>
      obtain ⟨text, rfl⟩ := Strength.checkForeignProof_onlyOtsError digest e h
      rw [Selfstamp.keepForeignProof, h]
      exact fun _ => trivial

theorem Raises.endManifest (rest : List Rejected ⊕ Rest) :
    Raises P (Selfstamp.endManifest env rest) := by
  cases rest with
  | inl rejected => exact .pure _
  | inr rest =>
      refine .bind (.bind (.pathExists env hP _ _) fun _ =>
            .ite (.bind (.readBytes env hP _ _) fun data =>
        .bind (.tryKeep env hP _ _ _) fun kept => ?_) (.pure _)) fun _ =>
          .bind (.removeFile env hP _ _) fun _ => .pure _
      cases kept with
      | error reason => exact .bind (.quarantine env hP _ _ _ _ _) fun _ => .pure _
      | ok _ => exact .bind (.removeFile env hP _ _) fun _ => .pure _

/-- A proof is checked against its own digest, so that none is refused. -/
theorem Raises.consumeOrphanProof (c : Claim) (held : Held) :
    Raises P (Selfstamp.consumeOrphanProof env c held) := by
  refine .bind (.readBytes env hP _ _) fun data => ?_
  cases h : parseOts data with
  | error e =>
      obtain ⟨text, rfl⟩ := parseOts_onlyOtsError data e h
      exact .bind (.quarantine env hP _ _ _ _ _) fun _ => .pure _
  | ok proof =>
      dsimp only
      cases held.lookup proof.digest with
      | none =>
          refine .bind (.bind (.fileCall env hP) fun _ => .bind (.gets _) fun _ => .pure _) fun _ =>
            .ite ?_ (.pure _)
          exact .bind (.quarantine env hP _ _ _ _ _) fun _ => .pure _
      | some copy =>
          have hcheck : checkForeignProof data proof.digest = .ok proof := by
            rw [checkForeignProof, h]
            exact if_neg (not_not_intro rfl)
          exact .bind (.keepForeignProof env hP hcheck) fun _ =>
            .bind (.removeFile env hP _ _) fun _ => .pure _

end Files

end Faults

end OtsServer.Selfstamp
