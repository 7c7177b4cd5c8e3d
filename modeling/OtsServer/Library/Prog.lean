import Mathlib.Data.List.Basic

/-!
# Programs with state and exceptions

A program reads and changes a state and returns a value or raises an exception; what
it did to the state before it raised stays done. `wp` is its weakest precondition for
a condition on returning and one on raising, with one rule for each way of building a
program, loops included. `Keeps` is the case where both conditions and the
precondition are one property of the state: an invariant that the program keeps
wherever it stops.
-/

def Prog (σ ε α : Type) : Type := σ → Except ε α × σ

namespace Prog

variable {σ ε α β : Type}

instance : Monad (Prog σ ε) where
  pure a := fun s => (.ok a, s)
  bind m f := fun s =>
    match m s with
    | (.ok a, t) => f a t
    | (.error e, t) => (.error e, t)

def raise (e : ε) : Prog σ ε α := fun s => (.error e, s)

def gets (f : σ → α) : Prog σ ε α := fun s => (.ok (f s), s)

def modify (f : σ → σ) : Prog σ ε Unit := fun s => (.ok (), f s)

/-- A result that is known already: a value, or an exception. -/
def ofExcept : Except ε α → Prog σ ε α
  | .ok a => pure a
  | .error e => raise e

/-- `try` with the handlers `h` gives; an exception without one is raised on. -/
def handle (m : Prog σ ε α) (h : ε → Option (Prog σ ε α)) : Prog σ ε α := fun s =>
  match m s with
  | (.ok a, t) => (.ok a, t)
  | (.error e, t) =>
      match h e with
      | some n => n t
      | none => (.error e, t)

/-- A loop of at most `n` rounds, each of which goes on or ends it; `out` is what happens
when the rounds are used up. -/
def loop (body : β → Prog σ ε (β ⊕ α)) (out : β → Prog σ ε α) : Nat → β → Prog σ ε α
  | 0, b => out b
  | n + 1, b => body b >>= fun
      | .inl b => loop body out n b
      | .inr a => pure a

def forEach (f : β → Prog σ ε Unit) : List β → Prog σ ε Unit
  | [] => pure ()
  | b :: bs => f b >>= fun _ => forEach f bs

/-- The sum of what `f` returns for the elements of a list. -/
def total (f : β → Prog σ ε Nat) : List β → Prog σ ε Nat
  | [] => pure 0
  | b :: bs => f b >>= fun n => total f bs >>= fun m => pure (n + m)

/-! ## Weakest preconditions -/

/-- From `s`, the program ends in `Q` when it returns and in `E` when it raises. -/
def wp (m : Prog σ ε α) (Q : α → σ → Prop) (E : ε → σ → Prop) (s : σ) : Prop :=
  match m s with
  | (.ok a, t) => Q a t
  | (.error e, t) => E e t

variable {m : Prog σ ε α} {Q Q' : α → σ → Prop} {E E' : ε → σ → Prop} {s : σ}

@[simp] theorem wp_pure (a : α) : wp (pure a : Prog σ ε α) Q E s ↔ Q a s := Iff.rfl

@[simp] theorem wp_raise (e : ε) : wp (raise e : Prog σ ε α) Q E s ↔ E e s := Iff.rfl

@[simp] theorem wp_gets (f : σ → α) : wp (gets f : Prog σ ε α) Q E s ↔ Q (f s) s := Iff.rfl

@[simp] theorem wp_modify (f : σ → σ) {Q : Unit → σ → Prop} :
    wp (modify f : Prog σ ε Unit) Q E s ↔ Q () (f s) := Iff.rfl

@[simp] theorem wp_bind (f : α → Prog σ ε β) {Q : β → σ → Prop} :
    wp (m >>= f) Q E s ↔ wp m (fun a => wp (f a) Q E) E s := by
  change wp (fun s => match m s with | (.ok a, t) => f a t | (.error e, t) => (.error e, t)) Q E s ↔
    _
  simp only [wp]
  rcases m s with ⟨_ | _, t⟩ <;> exact Iff.rfl

theorem wp_handle (h : ε → Option (Prog σ ε α)) :
    wp (handle m h) Q E s ↔
      wp m Q (fun e t => match h e with | some n => wp n Q E t | none => E e t) s := by
  unfold wp handle
  rcases m s with ⟨e | _, t⟩
  · dsimp only
    cases h e <;> rfl
  · rfl

theorem bind_of_ok {f : α → Prog σ ε β} {a : α} {t : σ} (h : m s = (.ok a, t)) :
    (m >>= f) s = f a t := by
  change (match m s with | (.ok a, t) => f a t | (.error e, t) => (.error e, t)) = f a t
  rw [h]

theorem bind_of_error {f : α → Prog σ ε β} {e : ε} {t : σ} (h : m s = (.error e, t)) :
    (m >>= f) s = (.error e, t) := by
  change (match m s with | (.ok a, t) => f a t | (.error e, t) => (.error e, t)) = (.error e, t)
  rw [h]

theorem exists_of_bind_ok {f : α → Prog σ ε β} {b : β} {t : σ} (h : (m >>= f) s = (.ok b, t)) :
    ∃ a u, m s = (.ok a, u) ∧ f a u = (.ok b, t) := by
  change (match m s with | (.ok a, t) => f a t | (.error e, t) => (.error e, t)) = _ at h
  rcases hm : m s with ⟨_ | a, u⟩
  · rw [hm] at h
    exact nomatch (Prod.mk.inj h).1
  · rw [hm] at h
    exact ⟨a, u, rfl, h⟩

theorem pure_bind (a : α) (f : α → Prog σ ε β) : (pure a >>= f) = f a := rfl

theorem bind_assoc {γ : Type} (m : Prog σ ε α) (f : α → Prog σ ε β) (g : β → Prog σ ε γ) :
    (m >>= f >>= g) = (m >>= fun a => f a >>= g) := by
  funext s
  rcases hm : m s with ⟨_ | a, t⟩
  · rw [bind_of_error (bind_of_error hm), bind_of_error hm]
  · rw [bind_of_ok hm]
    exact congrArg (fun r => match r with | (.ok b, u) => g b u | (.error e, u) => (.error e, u))
      (bind_of_ok hm)

section Loop

variable {body : β → Prog σ ε (β ⊕ α)} {out : β → Prog σ ε α} {n : Nat} {b : β}

theorem loop_of_inl {b' : β} {t : σ} (h : body b s = (.ok (.inl b'), t)) :
    loop body out (n + 1) b s = loop body out n b' t :=
  bind_of_ok h

theorem loop_of_inr {a : α} {t : σ} (h : body b s = (.ok (.inr a), t)) :
    loop body out (n + 1) b s = (.ok a, t) :=
  bind_of_ok h

theorem loop_of_error {e : ε} {t : σ} (h : body b s = (.error e, t)) :
    loop body out (n + 1) b s = (.error e, t) :=
  bind_of_error h

end Loop

theorem handle_of_ok {h : ε → Option (Prog σ ε α)} {a : α} {t : σ} (hm : m s = (.ok a, t)) :
    handle m h s = (.ok a, t) := by
  rw [handle, hm]

theorem handle_of_error {h : ε → Option (Prog σ ε α)} {n : Prog σ ε α} {e : ε}
    {t : σ} (hm : m s = (.error e, t)) (hn : h e = some n) : handle m h s = n t := by
  rw [handle, hm]
  dsimp only
  rw [hn]

theorem wp_of_ok {a : α} {t : σ} (h : m s = (.ok a, t)) (hq : Q a t) : wp m Q E s := by
  rw [wp, h]
  exact hq

theorem wp_of_error {e : ε} {t : σ} (h : m s = (.error e, t)) (he : E e t) : wp m Q E s := by
  rw [wp, h]
  exact he

theorem wp_mono (h : wp m Q E s) (hQ : ∀ a t, Q a t → Q' a t) (hE : ∀ e t, E e t → E' e t) :
    wp m Q' E' s := by
  revert h
  simp only [wp]
  rcases m s with ⟨_ | _, t⟩
  · exact hE _ _
  · exact hQ _ _

/-- The state a program leaves, when it may not matter how the program ended. -/
theorem of_wp {P : σ → Prop} (h : wp m (fun _ => P) (fun _ => P) s) : P (m s).2 := by
  revert h
  simp only [wp]
  rcases m s with ⟨_ | _, t⟩ <;> exact id

theorem wp_ofExcept {r : Except ε α} (hok : ∀ a, r = .ok a → Q a s)
    (herr : ∀ e, r = .error e → E e s) : wp (ofExcept r) Q E s := by
  cases r with
  | ok a => exact hok a rfl
  | error e => exact herr e rfl

theorem wp_ite (c : Prop) [Decidable c] (m n : Prog σ ε α) :
    wp (if c then m else n) Q E s ↔ (c → wp m Q E s) ∧ (¬c → wp n Q E s) := by
  split_ifs with h <;> simp [h]

/-- The loop rule: `inv n` holds where `n` more rounds are left. -/
theorem wp_loop {body : β → Prog σ ε (β ⊕ α)} {out : β → Prog σ ε α} (inv : Nat → β → σ → Prop)
    (hbody : ∀ n b t, inv (n + 1) b t →
      wp (body b) (fun r u => match r with | .inl b => inv n b u | .inr a => Q a u) E t)
    (hout : ∀ b t, inv 0 b t → wp (out b) Q E t) :
    ∀ n b s, inv n b s → wp (loop body out n b) Q E s := by
  intro n
  induction n with
  | zero => exact hout
  | succ n ih =>
      intro b s hb
      rw [loop, wp_bind]
      refine wp_mono (hbody n b s hb) ?_ fun _ _ h => h
      rintro (b | a) t ht
      · exact ih b t ht
      · exact ht

/-- The rule for lists: `inv` holds of what is left before every element. -/
theorem wp_forEach {f : β → Prog σ ε Unit} (inv : List β → σ → Prop) {Q : Unit → σ → Prop}
    (hbody : ∀ b bs t, inv (b :: bs) t → wp (f b) (fun _ => inv bs) E t)
    (hdone : ∀ t, inv [] t → Q () t) :
    ∀ bs s, inv bs s → wp (forEach f bs) Q E s := by
  intro bs
  induction bs with
  | nil => exact fun s hs => hdone s hs
  | cons b bs ih =>
      intro s hs
      rw [forEach, wp_bind]
      exact wp_mono (hbody b bs s hs) (fun _ t ht => ih t ht) fun _ _ h => h

/-! ## Invariants -/

/-- The program keeps `I`, whether it returns or raises. -/
def Keeps (I : σ → Prop) (m : Prog σ ε α) : Prop := ∀ s, I s → wp m (fun _ => I) (fun _ => I) s

section Keeps

variable {I J : σ → Prop}

theorem Keeps.pure (a : α) : Keeps I (pure a : Prog σ ε α) := fun _ h => h

theorem Keeps.raise (e : ε) : Keeps I (raise e : Prog σ ε α) := fun _ h => h

theorem Keeps.gets (f : σ → α) : Keeps I (gets f : Prog σ ε α) := fun _ h => h

theorem Keeps.modify {f : σ → σ} (h : ∀ s, I s → I (f s)) : Keeps I (modify f : Prog σ ε Unit) := h

theorem Keeps.ofExcept (r : Except ε α) : Keeps I (ofExcept r : Prog σ ε α) := by
  cases r <;> exact fun _ h => h

theorem Keeps.bind {f : α → Prog σ ε β} (hm : Keeps I m) (hf : ∀ a, Keeps I (f a)) :
    Keeps I (m >>= f) := by
  intro s hs
  rw [wp_bind]
  exact wp_mono (hm s hs) (fun a t ht => hf a t ht) fun _ _ h => h

theorem Keeps.handle {h : ε → Option (Prog σ ε α)} (hm : Keeps I m)
    (hh : ∀ e n, h e = some n → Keeps I n) : Keeps I (handle m h) := by
  intro s hs
  rw [wp_handle]
  refine wp_mono (hm s hs) (fun _ _ h => h) fun e t ht => ?_
  split
  next n hn => exact hh e n hn t ht
  next => exact ht

theorem Keeps.ite {c : Prop} [Decidable c] {m n : Prog σ ε α} (hm : c → Keeps I m)
    (hn : ¬c → Keeps I n) : Keeps I (if c then m else n) := by
  split_ifs with h
  · exact hm h
  · exact hn h

theorem Keeps.loop {body : β → Prog σ ε (β ⊕ α)} {out : β → Prog σ ε α}
    (hbody : ∀ b, Keeps I (body b)) (hout : ∀ b, Keeps I (out b)) (n : Nat) (b : β) :
    Keeps I (loop body out n b) := by
  intro s hs
  refine wp_loop (fun _ _ => I) (fun _ b t ht => ?_) (fun b t ht => hout b t ht) n b s hs
  exact wp_mono (hbody b t ht) (fun r _ h => by cases r <;> exact h) fun _ _ h => h

theorem Keeps.forEach {f : β → Prog σ ε Unit} (h : ∀ b, Keeps I (f b)) (bs : List β) :
    Keeps I (forEach f bs) :=
  fun s hs => wp_forEach (fun _ => I) (fun b _ t ht => h b t ht) (fun _ h => h) bs s hs

theorem Keeps.total {f : β → Prog σ ε Nat} (bs : List β) (h : ∀ b ∈ bs, Keeps I (f b)) :
    Keeps I (total f bs) := by
  induction bs with
  | nil => exact .pure _
  | cons b bs ih =>
      exact .bind (h b (List.mem_cons_self ..)) fun _ =>
        .bind (ih fun b' hb' => h b' (List.mem_cons_of_mem _ hb')) fun _ => .pure _

/-- The state a program leaves has what the program keeps. -/
theorem Keeps.apply (h : Keeps I m) (hs : I s) : I (m s).2 := of_wp (h s hs)

/-- What a program keeps it has beside all else that is known of its end. -/
theorem Keeps.wp_and (h : Keeps I m) (hs : I s) (hwp : wp m Q E s) :
    wp m (fun a t => I t ∧ Q a t) (fun e t => I t ∧ E e t) s := by
  have hi := h s hs
  revert hi hwp
  simp only [wp]
  rcases m s with ⟨_ | _, t⟩ <;> exact fun hwp hi => ⟨hi, hwp⟩

end Keeps

/-! ## Views

A view hides part of the state: what a program does to the rest is said for all hidden parts
at once. -/

section Sees

variable {τ : Type} {view : σ → τ} {Q Q' : α → τ → Prop} {E E' : ε → τ → Prop} {s : τ}

/-- From the states that `view` shows as `s`, the program ends in `Q` when it returns and in `E`
when it raises. -/
structure Sees (view : σ → τ) (m : Prog σ ε α) (Q : α → τ → Prop) (E : ε → τ → Prop) (s : τ) :
    Prop where
  out : ∀ w, view w = s → wp m (fun a t => Q a (view t)) (fun e t => E e (view t)) w

theorem Sees.pure {a : α} (h : Q a s) : Sees view (pure a) Q E s := by
  refine ⟨?_⟩
  rintro w rfl
  exact h

theorem Sees.raise {e : ε} (h : E e s) : Sees view (raise e) Q E s := by
  refine ⟨?_⟩
  rintro w rfl
  exact h

theorem Sees.gets {f : σ → α} {g : τ → α} (hf : ∀ w, f w = g (view w)) (h : Q (g s) s) :
    Sees view (gets f) Q E s := by
  refine ⟨?_⟩
  rintro w rfl
  rw [wp_gets, hf w]
  exact h

/-- A value that the view does not show may be any. -/
theorem Sees.gets_any {f : σ → α} (h : ∀ a, Q a s) : Sees view (Prog.gets f) Q E s := by
  refine ⟨?_⟩
  rintro w rfl
  exact h _

theorem Sees.modify {f : σ → σ} {g : τ → τ} {Q : Unit → τ → Prop}
    (hf : ∀ w, view (f w) = g (view w)) (h : Q () (g s)) : Sees view (modify f) Q E s := by
  refine ⟨?_⟩
  rintro w rfl
  rw [wp_modify, hf w]
  exact h

theorem Sees.ofExcept {r : Except ε α} (hok : ∀ a, r = .ok a → Q a s)
    (herr : ∀ e, r = .error e → E e s) : Sees view (ofExcept r) Q E s := by
  refine ⟨?_⟩
  rintro w rfl
  exact wp_ofExcept hok herr

theorem Sees.bind {f : α → Prog σ ε β} {Q : β → τ → Prop}
    (h : Sees view m (fun a t => Sees view (f a) Q E t) E s) : Sees view (m >>= f) Q E s := by
  refine ⟨?_⟩
  rintro w rfl
  rw [wp_bind]
  exact wp_mono (h.out w rfl) (fun a t ht => ht.out t rfl) fun _ _ h => h

theorem Sees.mono (h : Sees view m Q E s) (hQ : ∀ a t, Q a t → Q' a t)
    (hE : ∀ e t, E e t → E' e t) : Sees view m Q' E' s := by
  refine ⟨?_⟩
  rintro w rfl
  exact wp_mono (h.out w rfl) (fun a t => hQ a _) fun e t => hE e _

theorem Sees.handle {h : ε → Option (Prog σ ε α)} (hm :
      Sees view m Q (fun e t => match h e with | some n => Sees view n Q E t | none => E e t) s) :
    Sees view (Prog.handle m h) Q E s := by
  refine ⟨?_⟩
  rintro w rfl
  rw [wp_handle]
  refine wp_mono (hm.out w rfl) (fun _ _ h => h) fun e t ht => ?_
  cases hn : h e with
  | none => simpa only [hn] using ht
  | some n => exact (show Sees view n Q E (view t) by simpa only [hn] using ht).out t rfl

/-- The same rule, where the handlers are known only by what they are found to be. -/
theorem Sees.catching {h : ε → Option (Prog σ ε α)} (hm :
      Sees view m Q (fun e t => (∀ n, h e = some n → Sees view n Q E t) ∧ (h e = none → E e t)) s) :
    Sees view (Prog.handle m h) Q E s := by
  refine .handle (hm.mono (fun _ _ hq => hq) fun e t ht => ?_)
  cases hn : h e with
  | none => exact ht.2 hn
  | some n => exact ht.1 n hn

theorem Sees.ite {c : Prop} [Decidable c] {m n : Prog σ ε α} (hm : c → Sees view m Q E s)
    (hn : ¬c → Sees view n Q E s) : Sees view (if c then m else n) Q E s := by
  split_ifs with h
  · exact hm h
  · exact hn h

theorem Sees.loop {body : β → Prog σ ε (β ⊕ α)} {out : β → Prog σ ε α} (inv : Nat → β → τ → Prop)
    (hbody : ∀ n b t, inv (n + 1) b t →
      Sees view (body b) (fun r u => match r with | .inl b => inv n b u | .inr a => Q a u) E t)
    (hout : ∀ b t, inv 0 b t → Sees view (out b) Q E t) (n : Nat) (b : β) (h : inv n b s) :
    Sees view (Prog.loop body out n b) Q E s := by
  refine ⟨?_⟩
  rintro w rfl
  refine wp_loop (fun n b t => inv n b (view t)) (fun n b t ht => ?_)
    (fun b t ht => (hout b _ ht).out t rfl) n b w h
  exact wp_mono ((hbody n b _ ht).out t rfl) (fun r _ h => by cases r <;> exact h) fun _ _ h => h

theorem Sees.forEach {f : β → Prog σ ε Unit} (inv : List β → τ → Prop) {Q : Unit → τ → Prop}
    (hbody : ∀ b bs t, inv (b :: bs) t → Sees view (f b) (fun _ => inv bs) E t)
    (hdone : ∀ t, inv [] t → Q () t) (bs : List β) (h : inv bs s) :
    Sees view (Prog.forEach f bs) Q E s := by
  refine ⟨?_⟩
  rintro w rfl
  exact wp_forEach (fun bs t => inv bs (view t)) (fun b bs t ht => (hbody b bs _ ht).out t rfl)
    (fun t ht => hdone _ ht) bs w h

theorem Sees.total {f : β → Prog σ ε Nat} {I : τ → Prop} {Q : Nat → τ → Prop} (bs : List β)
    (hbody : ∀ b ∈ bs, ∀ t, I t → Sees view (f b) (fun _ => I) E t)
    (hdone : ∀ n t, I t → Q n t) (h : I s) : Sees view (Prog.total f bs) Q E s := by
  induction bs generalizing Q s with
  | nil => exact .pure (hdone 0 s h)
  | cons b bs ih =>
      refine .bind ((hbody b (List.mem_cons_self ..) s h).mono
          (fun n t ht => .bind ?_) fun _ _ h => h)
      exact ih (fun b' hb' => hbody b' (List.mem_cons_of_mem _ hb'))
        (fun m t ht => .pure (hdone (n + m) t ht)) ht

/-- The state a program leaves, when it may not matter how the program ended. -/
theorem Sees.apply {P : τ → Prop} {w : σ} (h : Sees view m (fun _ => P) (fun _ => P) (view w)) :
    P (view (m w).2) := of_wp (P := fun t => P (view t)) (h.out w rfl)

end Sees

end Prog
