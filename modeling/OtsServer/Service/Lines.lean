import Mathlib.Data.List.DropRight
import OtsServer.Service.Moves

/-!
# Lines and calls

The complete lines of a file under appending and cutting, and what the calls that the
programs are made of do to the state: a call that only asks changes nothing but the
count of calls.
-/

namespace OtsServer.Service

/-! ## Lines -/

theorem linesFrom_append_tail {y : Bytes} (hy : newline ∉ y) :
    ∀ (x line : Bytes), linesFrom line (x ++ y) = linesFrom line x := by
  intro x
  induction x with
  | nil =>
      intro line
      induction y generalizing line with
      | nil => rfl
      | cons c y ih =>
          simp only [List.mem_cons, not_or] at hy
          simp only [List.nil_append, linesFrom, if_neg (Ne.symm hy.1)]
          exact ih hy.2 (line ++ [c])
  | cons c x ih =>
      intro line
      rw [List.cons_append, linesFrom, linesFrom]
      split_ifs
      · rw [ih]
      · exact ih _

theorem linesFrom_line {y : Bytes} (hy : newline ∉ y) :
    ∀ line : Bytes, linesFrom line (y ++ [newline]) = [line ++ y ++ [newline]] := by
  induction y with
  | nil =>
      intro line
      rw [List.nil_append, linesFrom, if_pos rfl, List.append_nil]
      rfl
  | cons c y ih =>
      intro line
      simp only [List.mem_cons, not_or] at hy
      rw [List.cons_append, linesFrom, if_neg (Ne.symm hy.1), ih hy.2]
      simp

theorem linesFrom_append_ended {y : Bytes} :
    ∀ (x line : Bytes), x.getLast? = some newline →
      linesFrom line (x ++ y) = linesFrom line x ++ linesFrom [] y := by
  intro x
  induction x with
  | nil => simp
  | cons c x ih =>
      intro line hx
      rw [List.cons_append, linesFrom, linesFrom]
      cases x with
      | nil =>
          obtain rfl : c = newline := by simpa using hx
          simp [linesFrom]
      | cons d x =>
          have hlast : (d :: x).getLast? = some newline := by simpa using hx
          split_ifs
          · rw [ih [] hlast, List.cons_append]
          · exact ih _ hlast

/-- Nothing of the file is after its last newline. -/
def Ended (file : Bytes) : Prop := file = [] ∨ file.getLast? = some newline

theorem completeLines_append_line {file line : Bytes} (hfile : Ended file)
    (hline : newline ∉ line) :
    completeLines (file ++ (line ++ [newline])) = completeLines file ++ [line ++ [newline]] := by
  unfold completeLines
  obtain rfl | hlast := hfile
  · rw [List.nil_append, linesFrom_line hline]
    rfl
  · rw [linesFrom_append_ended _ _ hlast, linesFrom_line hline]
    rfl

theorem completeLines_append_tail {file y : Bytes} (hy : newline ∉ y) :
    completeLines (file ++ y) = completeLines file :=
  linesFrom_append_tail hy file []

/-- A file up to and including its last newline; nothing, without one. -/
def wholeLines (file : Bytes) : Bytes := file.rdropWhile (· ≠ newline)

theorem wholeLines_of_ended {file : Bytes} (h : Ended file) : wholeLines file = file := by
  refine List.rdropWhile_eq_self_iff.mpr fun hne => ?_
  obtain rfl | hlast := h
  · exact absurd rfl hne
  · rw [List.getLast?_eq_some_getLast hne] at hlast
    simpa using Option.some.inj hlast

/-- Bytes without a newline add no line. -/
theorem wholeLines_append_tail {file y : Bytes} (hy : newline ∉ y) :
    wholeLines (file ++ y) = wholeLines file := by
  rw [wholeLines, wholeLines, List.rdropWhile, List.rdropWhile, List.reverse_append,
    List.dropWhile_append_of_pos]
  intro b hb
  simpa using fun heq : b = newline => hy (heq ▸ List.mem_reverse.mp hb)

theorem wholeLines_take {file : Bytes} {n : Nat} (hnone : newline ∉ file.drop n) :
    wholeLines (file.take n) = wholeLines file := by
  conv_rhs => rw [← List.take_append_drop n file]
  exact (wholeLines_append_tail hnone).symm

theorem ended_wholeLines (file : Bytes) : Ended (wholeLines file) := by
  by_cases hne : wholeLines file = []
  · exact .inl hne
  · right
    have hlast := List.rdropWhile_last_not (fun b : UInt8 => decide (b ≠ newline)) file hne
    rw [List.getLast?_eq_some_getLast hne]
    exact congrArg some (not_not.mp fun hother => hlast (decide_eq_true hother))

/-- What is behind the whole lines has no newline. -/
theorem exists_wholeLines_append (file : Bytes) :
    ∃ tail, newline ∉ tail ∧ wholeLines file ++ tail = file := by
  refine ⟨file.rtakeWhile (· ≠ newline), fun hmem => ?_, List.rdropWhile_append_rtakeWhile ..⟩
  simpa using List.mem_rtakeWhile_imp hmem

theorem completeLines_wholeLines (file : Bytes) :
    completeLines (wholeLines file) = completeLines file := by
  obtain ⟨tail, hnone, hfile⟩ := exists_wholeLines_append file
  conv_rhs => rw [← hfile]
  exact (completeLines_append_tail hnone).symm

theorem findReceipt_append {codec : Codec} {txid : Bytes} {lines more : List Bytes}
    (h : findReceipt codec txid lines = .ok false) :
    findReceipt codec txid (lines ++ more) = findReceipt codec txid more := by
  induction lines with
  | nil => rfl
  | cons line lines ih =>
      rw [List.cons_append, findReceipt]
      rw [findReceipt] at h
      cases hl : codec.lineTxid line with
      | ok found =>
          rw [hl] at h
          dsimp only at h ⊢
          split_ifs at h ⊢ with hfound
          · exact nomatch h
          · exact ih h
      | error e =>
          rw [hl] at h
          cases e <;> first | exact ih h | exact nomatch h

theorem findReceipt_line {lib : Lib} (receipt : Receipt) :
    findReceipt lib.codec receipt.txid [receiptLine lib receipt] = .ok true := by
  rw [findReceipt, receiptLine, lib.codec.lineTxid_line]
  exact if_pos rfl

/-- On the lines of receipts, the search finds a txid exactly when one of them has it. -/
theorem findReceipt_lines {lib : Lib} (receipts : List Receipt) (txid : Bytes) :
    findReceipt lib.codec txid (receipts.map (receiptLine lib)) =
      .ok (decide (∃ r ∈ receipts, r.txid = txid)) := by
  induction receipts with
  | nil => simp [findReceipt]
  | cons r receipts ih =>
      rw [List.map_cons, findReceipt, receiptLine, lib.codec.lineTxid_line]
      dsimp only
      by_cases h : r.txid = txid
      · rw [if_pos (by rw [h])]
        simp [h]
      · rw [if_neg (by simpa using h), ih]
        simp [h]

/-! ## Calls -/

section Calls

variable {env : Env} {α : Type} {s : State}

/-- What a program does to the state, whatever the number of calls before it. -/
abbrev Does (m : M α) (Q : α → State → Prop) (E : Exc → State → Prop) (s : State) : Prop :=
  Prog.Sees World.toState m Q E s

variable {Q : α → State → Prop} {E : Exc → State → Prop}

theorem does_ask {f : Nat → Except Exc α} (hok : ∀ n a, f n = .ok a → Q a s)
    (herr : ∀ n e, f n = .error e → E e s) : Does (ask f) Q E s := by
  refine ⟨?_⟩
  rintro w rfl
  rw [Prog.wp, ask]
  cases h : f w.tick with
  | ok a => exact hok _ a h
  | error e => exact herr _ e h

theorem does_gets {f : World → α} (g : State → α) (hf : ∀ w, f w = g w.toState) (h : Q (g s) s) :
    Does (Prog.gets f) Q E s :=
  Prog.Sees.gets hf h

theorem does_modifyStamper {f : Stamper → Stamper} {Q : Unit → State → Prop}
    (h : Q () (s.setStamper f)) : Does (modifyStamper f) Q E s :=
  Prog.Sees.modify (g := State.setStamper (f := f)) (fun _ => rfl) h

theorem does_modifyDisk {f : Disk → Disk} {Q : Unit → State → Prop}
    (h : Q () (s.setDisk f)) : Does (modifyDisk f) Q E s :=
  Prog.Sees.modify (g := State.setDisk (f := f)) (fun _ => rfl) h

theorem does_note {f : History → History} {Q : Unit → State → Prop} (h : Q () (s.log f)) :
    Does (note f) Q E s :=
  Prog.Sees.modify (g := State.log (f := f)) (fun _ => rfl) h

/-- What a call to the file system may raise. -/
def IsFileError (e : Exc) : Prop := e = .stop ∨ ∃ errno, e = .osError errno

theorem FileAnswer.result_error {a : FileAnswer} {e : Exc} (h : a.result = .error e) :
    IsFileError e := by
  cases a with
  | done => exact nomatch h
  | raises errno => exact .inr ⟨errno, by simpa [FileAnswer.result, eq_comm] using h⟩
  | stops => exact .inl (by simpa [FileAnswer.result, eq_comm] using h)

theorem does_fileCall {Q : Unit → State → Prop} (h : Q () s) (herr : ∀ e, IsFileError e → E e s) :
    Does (fileCall env) Q E s :=
  does_ask (fun _ _ _ => h) fun _ e he => herr e (FileAnswer.result_error he)

theorem does_fileEffect {f : Disk → Disk} {Q : Unit → State → Prop} (h : Q () (s.setDisk f))
    (herr : ∀ e, IsFileError e → E e s) : Does (fileEffect env f) Q E s :=
  Prog.Sees.bind (does_fileCall (does_modifyDisk h) herr)

theorem does_fsyncDir {Q : Unit → State → Prop} (h : Q () s) (herr : ∀ e, IsFileError e → E e s) :
    Does (fsyncDir env) Q E s :=
  Prog.Sees.bind (does_fileCall (does_fileCall h herr) herr)

theorem does_osWrite {put : Bytes → Disk → Disk} {data : Bytes} {Q : Nat → State → Prop}
    (h : ∀ n, Q (min n data.length) (s.setDisk (put (data.take n))))
    (hraise : ∀ errno, E (.osError errno) s)
    (hstop : ∀ n, E .stop (s.setDisk (put (data.take n)))) : Does (osWrite env put data) Q E s := by
  refine ⟨?_⟩
  rintro w rfl
  rw [Prog.wp, osWrite]
  cases env.write w.tick with
  | wrote n => exact h n
  | raises errno => exact hraise errno
  | stops n => exact hstop n

/-- A way of putting bytes on disk that may be done in parts. -/
structure Appends (put : Bytes → Disk → Disk) : Prop where
  nil : ∀ d, put [] d = d
  append : ∀ x y d, put (x ++ y) d = put y (put x d)

/-- `_write_all` writes everything, or raises with some first bytes written. -/
theorem does_writeAll {put : Bytes → Disk → Disk} (hput : Appends put) {data : Bytes}
    {Q : Unit → State → Prop} (h : Q () (s.setDisk (put data)))
    (herr : ∀ e k, IsFileError e → E e (s.setDisk (put (data.take k)))) :
    Does (writeAll env put data) Q E s := by
  -- what is left to write, and that the rounds suffice for it
  let inv (n : Nat) (view : Bytes) (t : State) : Prop :=
    ∃ k, view = data.drop k ∧ t = s.setDisk (put (data.take k)) ∧ view.length < n
  refine Prog.Sees.loop inv (fun n view t ht => ?_) (fun view t ht => ?_) _ data
    ⟨0, rfl, by rw [List.take_zero]; exact congrArg (State.setDisk s) (funext hput.nil).symm,
      by simp⟩
  · obtain ⟨k, rfl, rfl, hlt⟩ := ht
    have hall : data.drop k = [] → (s.setDisk (put (data.take k))) = s.setDisk (put data) := by
      intro hnil
      rw [List.take_of_length_le (List.drop_eq_nil_iff.mp hnil)]
    have hput' : ∀ n, (s.setDisk (put (data.take k))).setDisk (put ((data.drop k).take n)) =
        s.setDisk (put (data.take (k + n))) := by
      intro n
      rw [List.take_add]
      exact congrArg (fun d => { s with disk := d }) (hput.append _ _ _).symm
    refine Prog.Sees.ite (fun hnil => .pure (hall hnil ▸ h)) fun hne =>
      .bind (does_osWrite ?_ ?_ ?_)
    · intro m
      rw [hput' m]
      refine Prog.Sees.ite (fun _ => .raise (herr _ _ (.inr ⟨_, rfl⟩))) fun hm => .pure ?_
      have htake : data.take (k + m) = data.take (k + min m (data.drop k).length) := by
        rw [List.take_add, List.take_add, ← List.take_eq_take_min]
      refine ⟨k + min m (data.drop k).length, by rw [List.drop_drop], by rw [htake], ?_⟩
      · have := List.length_pos_of_ne_nil hne
        simp only [List.length_drop] at this hlt hm ⊢
        omega
    · exact fun errno => herr _ _ (.inr ⟨_, rfl⟩)
    · intro m
      rw [hput' m]
      exact herr _ _ (.inl rfl)
  · obtain ⟨_, _, _, hlt⟩ := ht
    exact absurd hlt (Nat.not_lt_zero _)

theorem does_dbRead {Q : Unit → State → Prop} (h : Q () s)
    (herr : ∀ e, e = .stop ∨ e = .levelDb → E e s) : Does (dbRead env) Q E s := by
  refine does_ask (fun _ _ _ => h) fun n e he => herr e ?_
  cases hr : env.read n <;> simp [hr, eq_comm] at he <;> simp [he]

theorem does_dbContains {key : Key} {Q : Bool → State → Prop} (h : Q (s.db.holds key) s)
    (herr : ∀ e, e = .stop ∨ e = .levelDb → E e s) : Does (dbContains env key) Q E s :=
  Prog.Sees.bind (does_dbRead (does_gets (fun s => s.db.holds key) (fun _ => rfl) h) herr)

theorem does_dbBatch {f : Db → Db} {Q : Unit → State → Prop}
    (h : Q () { s.setDisk (fun d => { d with db := f d.db }) with db := f s.db })
    (herr : ∀ e, e = .stop ∨ e = .levelDb → E e s)
    (hland : ∀ e, e = .stop ∨ e = .levelDb → E e (s.setDisk fun d => { d with db := f d.db })) :
    Does (dbBatch env f) Q E s := by
  refine ⟨?_⟩
  rintro w rfl
  rw [Prog.wp, dbBatch]
  cases env.batch w.tick with
  | returns => exact h
  | raises landed => cases landed <;> [exact herr _ (.inr rfl); exact hland _ (.inr rfl)]
  | stops landed => cases landed <;> [exact herr _ (.inl rfl); exact hland _ (.inl rfl)]

/-- What is caught is handled; the end of the process, and `sys.exit`, are not. -/
theorem does_guarded {m : M α} {handler : Exc → M α}
    (hm : Does m Q (fun e t => (e = .stop ∨ e = .systemExit → E e t) ∧
      (e ≠ .stop → e ≠ .systemExit → Does (handler e) Q E t)) s) :
    Does (guarded m handler) Q E s := by
  refine Prog.Sees.handle (hm.mono (fun _ _ h => h) fun e t h => ?_)
  cases e
  case stop => exact h.1 (.inl rfl)
  case systemExit => exact h.1 (.inr rfl)
  all_goals exact h.2 (by simp) (by simp)

end Calls

end OtsServer.Service
