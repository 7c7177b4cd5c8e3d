import OtsServer.Selfstamp.Passes

/-!
# The files that the passes see

The files of the state directory under names that do not begin with a dot: temporary files,
and what happens in the inbox, are not in this view. Every call leaves it alone, except that
`write_atomic` puts a whole file in place.
-/

namespace OtsServer.Selfstamp

open Prog (Sees)

/-- What the passes work on. -/
structure Shelf where
  file : Place → Str → Option Bytes
  stored : List (Place × Str)

def World.shelf (w : World) : Shelf :=
  ⟨fun p name => if p = .inbox ∨ name.isDot then none else w.get p name, w.stored⟩

namespace Shelf

/-- A file that `write_atomic` has put in place. -/
def store (s : Shelf) (p : Place) (name : Str) (data : Bytes) : Shelf :=
  ⟨fun p' name' => if p' = p ∧ name' = name then some data else s.file p' name',
    (p, name) :: s.stored⟩

@[simp] theorem store_self (s : Shelf) (p : Place) (name : Str) (data : Bytes) :
    (s.store p name data).file p name = some data := if_pos ⟨rfl, rfl⟩

theorem store_of_ne {s : Shelf} {p p' : Place} {name name' : Str} {data : Bytes}
    (h : ¬(p' = p ∧ name' = name)) : (s.store p name data).file p' name' = s.file p' name' :=
  if_neg h

/-- A file that something else has put where there was none. -/
def arrive (s : Shelf) (p : Place) (name : Str) (data : Bytes) : Shelf :=
  ⟨fun p' name' => if p' = p ∧ name' = name then some data else s.file p' name', s.stored⟩

end Shelf

/-! ## Calls -/

section Calls

variable (env : Env)

theorem get_put (w : World) (p p' : Place) (name name' : Str) (data : Bytes) :
    (w.put p name data).get p' name' = if p' = p ∧ name' = name then some data else
      w.get p' name' := by
  unfold World.put World.get
  by_cases hp : p' = p
  · subst hp
    simp only [Function.update_self, Directory.get_put, true_and]
    congr
  · simp only [Function.update_of_ne hp, hp, false_and, if_false]

theorem get_erase (w : World) (p p' : Place) (name name' : Str) :
    (w.erase p name).get p' name' = if p' = p ∧ name' = name then none else w.get p' name' := by
  unfold World.erase World.get
  by_cases hp : p' = p
  · subst hp
    simp only [Function.update_self, Directory.get_erase, true_and]
    congr
  · simp only [Function.update_of_ne hp, hp, false_and, if_false]

theorem get_next (w : World) {p : Place} (hp : p ≠ .inbox) (name : Str) :
    (w.next env).get p name = w.get p name := by
  unfold World.next World.deliver World.get
  exact congrArg (Directory.get · name) (Function.update_of_ne hp _ _)

@[simp] theorem shelf_next (w : World) : (w.next env).shelf = w.shelf := by
  unfold World.shelf
  refine congrArg₂ Shelf.mk (funext fun p => funext fun name => ?_) rfl
  by_cases hp : p = .inbox
  · rw [if_pos (.inl hp), if_pos (.inl hp)]
  · rw [get_next env w hp]

theorem shelf_file {w : World} {p : Place} {name : Str} (hp : p ≠ .inbox)
    (hname : name.isDot = false) : w.shelf.file p name = w.get p name := by
  refine if_neg ?_
  rintro (h | h)
  · exact hp h
  · exact nomatch hname.symm.trans h

/-- A file in the inbox, or under a name that begins with a dot, is not seen. -/
theorem shelf_put_hidden (w : World) {p : Place} {name : Str} (h : p = .inbox ∨ name.isDot = true)
    (data : Bytes) : (w.put p name data).shelf = w.shelf := by
  unfold World.shelf
  refine congrArg₂ Shelf.mk (funext fun p' => funext fun name' => ?_) rfl
  by_cases hdot : p' = .inbox ∨ name'.isDot
  · rw [if_pos hdot, if_pos hdot]
  · rw [if_neg hdot, if_neg hdot, get_put, if_neg]
    rintro ⟨rfl, rfl⟩
    exact hdot h

theorem shelf_erase_dot (w : World) (p : Place) {name : Str} (hname : name.isDot = true) :
    (w.erase p name).shelf = w.shelf := by
  unfold World.shelf
  refine congrArg₂ Shelf.mk (funext fun p' => funext fun name' => ?_) rfl
  by_cases hdot : p' = .inbox ∨ name'.isDot
  · rw [if_pos hdot, if_pos hdot]
  · rw [if_neg hdot, if_neg hdot, get_erase, if_neg]
    rintro ⟨-, rfl⟩
    exact hdot (.inr hname)

theorem shelf_put (w : World) {p : Place} {name : Str} (hp : p ≠ .inbox)
    (hname : name.isDot = false) (data : Bytes) :
    (w.put p name data).shelf = w.shelf.arrive p name data := by
  unfold World.shelf Shelf.arrive
  refine congrArg₂ Shelf.mk (funext fun p' => funext fun name' => ?_) rfl
  dsimp only
  by_cases heq : p' = p ∧ name' = name
  · obtain ⟨rfl, rfl⟩ := heq
    rw [if_neg, if_pos ⟨rfl, rfl⟩, get_put, if_pos ⟨rfl, rfl⟩]
    rintro (h | h)
    · exact hp h
    · exact nomatch hname.symm.trans h
  · rw [if_neg heq, get_put, if_neg heq]

variable {α : Type} {s : Shelf} {Q : α → Shelf → Prop} {E : Fault → Shelf → Prop}

/-- A call changes nothing that is seen. -/
theorem Sees.ask {answer : Nat → Except Fault α} (hok : ∀ n a, answer n = .ok a → Q a s)
    (herr : ∀ e, E e s) : Sees World.shelf (ask env answer) Q E s := by
  refine ⟨?_⟩
  rintro w rfl
  cases h : answer w.calls with
  | ok a => exact Prog.wp_of_ok (congrArg (·, w.next env) h) ((shelf_next env w).symm ▸ hok _ a h)
  | error e =>
      exact Prog.wp_of_error (congrArg (·, w.next env) h) ((shelf_next env w).symm ▸ herr e)

theorem Sees.fileCall {Q : Unit → Shelf → Prop} (hok : Q () s) (herr : ∀ e, E e s) :
    Sees World.shelf (fileCall env) Q E s :=
  Sees.ask env (fun _ _ _ => hok) herr

theorem Sees.attempt {m : M α} {catches : Fault → Bool} {Q : Option α → Shelf → Prop} (h : Sees
      World.shelf m (fun a => Q (some a)) (fun e t => if catches e then Q none t else E e t) s) :
    Sees World.shelf (attempt catches m) Q E s := by
  refine .handle (.bind (h.mono (fun a t ht => .pure ht) fun e t ht => ?_))
  split_ifs at ht with hc
  · rw [if_pos hc]
    exact .pure ht
  · rwa [if_neg hc]

theorem Sees.ofOts {r : Except Exc α} (hok : ∀ a, r = .ok a → Q a s) (herr : ∀ e, E (.ots e) s) :
    Sees World.shelf (ofOts r) Q E s := by
  refine .ofExcept (fun a ha => ?_) fun e he => ?_
  · cases r with
    | ok b => exact Except.ok.inj ha ▸ hok b rfl
    | error e => exact nomatch ha
  · cases r with
    | ok b => exact nomatch he
    | error e' => exact Except.error.inj he ▸ herr e'

variable {p : Place} {name : Str}

theorem Sees.pathExists {Q : Bool → Shelf → Prop} (hp : p ≠ .inbox) (hname : name.isDot = false)
    (hok : Q (s.file p name).isSome s) (herr : ∀ e, E e s) :
    Sees World.shelf (pathExists env p name) Q E s :=
  .bind (Sees.fileCall env
    (.gets (g := fun t => (t.file p name).isSome)
        (fun _ => congrArg Option.isSome (shelf_file hp hname).symm) hok) herr)

theorem Sees.readBytes {Q : Bytes → Shelf → Prop} (hp : p ≠ .inbox) (hname : name.isDot = false)
    (hok : ∀ data, s.file p name = some data → Q data s) (herr : ∀ e, E e s) :
    Sees World.shelf (readBytes env p name) Q E s := by
  refine .bind (Sees.fileCall env (.bind (.gets (g := fun t => t.file p name)
    (fun _ => (shelf_file hp hname).symm) ?_)) herr)
  split
  next data h => exact .pure (hok data h)
  next => exact .raise (herr _)

theorem Sees.listFiles {suffix : Str} {Q : List Str → Shelf → Prop} (hok : ∀ names,
      (∀ name ∈ names, Str.endsWith suffix name = true ∧ name.isDot = false) → Q names s)
    (herr : ∀ e, E e s) : Sees World.shelf (listFiles env p suffix) Q E s := by
  refine .bind (Sees.fileCall env ⟨?_⟩ herr)
  rintro w rfl
  refine hok _ fun name hmem => ?_
  obtain ⟨-, h⟩ := List.mem_filter.mp hmem
  simpa using h

theorem Sees.fsyncDir {Q : Unit → Shelf → Prop} (hok : Q () s) (herr : ∀ e, E e s) :
    Sees World.shelf (fsyncDir env) Q E s :=
  .bind (Sees.fileCall env (Sees.fileCall env hok herr) herr)

theorem Sees.fsyncFile {Q : Unit → Shelf → Prop} (hp : p ≠ .inbox) (hname : name.isDot = false)
    (hok : Q () s) (herr : ∀ e, E e s) : Sees World.shelf (fsyncFile env p name) Q E s :=
  .bind (Sees.readBytes env hp hname (fun _ _ => Sees.fileCall env hok herr) herr)

theorem isDot_tmp (name token : Str) : Str.isDot (0x2e :: (name ++ 0x2e :: token)) = true := rfl

theorem Sees.mkstemp {Q : Str → Shelf → Prop} (hok : ∀ tmp, Str.isDot tmp = true → Q tmp s)
    (herr : ∀ e, E e s) : Sees World.shelf (mkstemp env p name) Q E s := by
  refine .bind (Sees.ask env (fun _ token _ => .bind (.gets_any fun there => ?_)) herr)
  cases there with
  | some _ => exact .raise (herr _)
  | none =>
      refine .bind (.modify (g := id)
          (fun w => shelf_put_hidden w (.inr (isDot_tmp name token)) _) ?_)
      exact .pure (hok _ (isDot_tmp name token))

theorem Sees.writeTemp {tmp : Str} {data : Bytes} {Q : Unit → Shelf → Prop}
    (htmp : tmp.isDot = true) (hok : Q () s) (herr : ∀ e, E e s) :
    Sees World.shelf (writeTemp env p tmp data) Q E s := by
  refine ⟨?_⟩
  rintro w rfl
  have hput : ∀ data, ((w.next env).put p tmp data).shelf = w.shelf := fun data =>
    (shelf_put_hidden _ (.inr htmp) data).trans (shelf_next env w)
  cases h : env.file w.calls with
  | done => exact Prog.wp_of_ok (by rw [Selfstamp.writeTemp, h]) ((hput _).symm ▸ hok)
  | raises => exact Prog.wp_of_error (by rw [Selfstamp.writeTemp, h]) ((hput _).symm ▸ herr _)
  | stops => exact Prog.wp_of_error (by rw [Selfstamp.writeTemp, h]) ((hput _).symm ▸ herr _)

theorem Sees.replaceTemp {tmp : Str} {data : Bytes} {Q : Unit → Shelf → Prop} (hp : p ≠ .inbox)
    (hname : name.isDot = false) (htmp : tmp.isDot = true) (hok : Q () (s.store p name data))
    (herr : ∀ e, E e s) : Sees World.shelf (replaceTemp env p tmp name data) Q E s := by
  refine .bind (Sees.fileCall env
      (.modify (g := fun t => t.store p name data) (fun w => ?_) hok) herr)
  have hput := shelf_put (w.erase p tmp) hp hname data
  rw [shelf_erase_dot w p htmp] at hput
  exact congrArg₂ Shelf.mk (congrArg Shelf.file hput) rfl

theorem Sees.discardTemp {tmp : Str} (htmp : tmp.isDot = true) {Q : Unit → Shelf → Prop}
    (herr : ∀ e, E e s) (e : Fault) :
    (∀ n, discardTemp env p tmp e = some n → Sees World.shelf n Q E s) ∧
      (discardTemp env p tmp e = none → E e s) := by
  refine ⟨fun n hn => ?_, fun _ => herr e⟩
  have hcleanup : Sees World.shelf (do
      let _ ← Selfstamp.attempt Fault.isOsError (do
        Selfstamp.fileCall env
        Prog.modify fun w : World => w.erase p tmp)
      (Prog.raise e : M Unit)) Q E s := by
    refine .bind (Sees.attempt (.bind (Sees.fileCall env ?_ fun e' => ?_)))
    · exact .modify (g := id) (fun w => shelf_erase_dot w p htmp) (.raise (herr e))
    · split_ifs
      · exact .raise (herr e)
      · exact herr e'
  cases e with
  | stop => exact nomatch hn
  | _ => exact Option.some.inj hn ▸ hcleanup

/-- `write_atomic` puts the whole of the data in place, or nothing. -/
theorem Sees.writeAtomic {data : Bytes} {Q : Unit → Shelf → Prop} (hp : p ≠ .inbox)
    (hname : name.isDot = false) (hok : Q () (s.store p name data)) (hbefore : ∀ e, E e s)
    (hafter : ∀ e, E e (s.store p name data)) :
    Sees World.shelf (writeAtomic env p name data) Q E s := by
  refine .bind (Sees.mkstemp env (fun tmp htmp => .bind (.catching ?_)) hbefore)
  have hraise := Sees.discardTemp env (p := p) (s := s) (E := E)
    (Q := fun _ t => Sees World.shelf (Selfstamp.fsyncDir env) Q E t) htmp hbefore
  refine .bind (Sees.fileCall env
      (.bind (Sees.writeTemp env htmp (.bind (Sees.fileCall env ?_ hraise)) hraise)) hraise)
  exact Sees.replaceTemp env hp hname htmp (Sees.fsyncDir env hok hafter) hraise

end Calls

end OtsServer.Selfstamp
