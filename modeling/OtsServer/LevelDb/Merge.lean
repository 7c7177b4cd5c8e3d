import OtsServer.LevelDb.Facts

/-!
# Merging a timestamp

A batch says what its cache holds, and for the other messages what the database holds. Adding
a timestamp adds exactly its facts, and changes nothing at messages which are not its own. The
messages on a path of a timestamp have to differ, so that the record being merged is not
touched by the nested calls.
-/

namespace OtsServer.LevelDb

variable {Op Att : Type} {lib : Lib Op Att} {db : Db}

/-! ## Puts and the cache -/

theorem Db.write_append (puts : List (Bytes × Bytes)) (msg data : Bytes) :
    db.write (puts ++ [(msg, data)]) = Function.update (db.write puts) msg (some data) := by
  rw [write, List.foldl_append]
  rfl

namespace Batch

variable {msg : Bytes}

/-- The puts of a batch are its cached records, at these messages. -/
def Tracked (b : Batch lib) (db : Db) (P : Bytes → Prop) : Prop :=
  ∀ m, P m → db.write b.puts m = match b.cache m with | some r => some r.serialize | none => db m

theorem Tracked.mutate {b : Batch lib} {P : Bytes → Prop} (h : b.Tracked db P) (hmsg : ¬ P msg)
    (shared : Bool) (r : Shallow lib msg) : (b.mutate shared r).Tracked db P := by
  cases shared with
  | false => exact h
  | true =>
      intro m hm
      have hne : m ≠ msg := fun heq => hmsg (heq ▸ hm)
      change db.write b.puts m =
        match Function.update b.cache msg (some r) m with | some r => _ | none => _
      rw [Function.update_of_ne hne]
      exact h m hm

theorem Tracked.put {b : Batch lib} {P : Bytes → Prop} (h : b.Tracked db fun m => P m ∧ m ≠ msg)
    (r : Shallow lib msg) : (b.put r).Tracked db P := by
  intro m hm
  change db.write (b.puts ++ _) m =
    match Function.update b.cache msg (some r) m with | some r => _ | none => _
  rw [Db.write_append]
  by_cases hne : m = msg
  · subst hne
    simp
  · rw [Function.update_of_ne hne, Function.update_of_ne hne]
    exact h m ⟨hm, hne⟩

theorem cache_put_of_ne {b : Batch lib} {r : Shallow lib msg} {m : Bytes} (h : m ≠ msg) :
    (b.put r).cache m = b.cache m :=
  Function.update_of_ne h ..

theorem cache_mutate_of_ne {b : Batch lib} {shared : Bool} {r : Shallow lib msg}
    {m : Bytes} (h : m ≠ msg) : (b.mutate shared r).cache m = b.cache m := by
  cases shared with
  | false => rfl
  | true => exact Function.update_of_ne h ..

/-- The object being merged after a nested call which kept off its message. -/
theorem current_eq {b b' : Batch lib} {shared : Bool} {r : Shallow lib msg}
    (h : b'.cache msg = (b.mutate shared r).cache msg) : b'.current shared r = r := by
  cases shared with
  | false => rfl
  | true =>
      have h : b'.cache msg = some r := h.trans (Function.update_self ..)
      change (b'.cache msg).getD r = r
      rw [h]
      rfl

end Batch

/-- Bare results say no more than that their messages have nodes. -/
theorem Ops.has_of_bare {msg : Bytes} {f : Fact Op Att} :
    ∀ {ops : Ops Op Att}, ops.bare lib msg = true → ops.Has msg f →
      ∃ op ∈ ops.keys, f = .op msg op ∨ ∃ result, lib.call op msg = some result ∧ f = .node result
  | .cons op (.mk result [] .nil) rest, hbare, h => by
      rw [bare, Bool.and_eq_true, beq_iff_eq] at hbare
      obtain h | (h | ⟨a, ha, _⟩ | h) | h := h
      · exact ⟨op, List.mem_cons_self .., .inl h⟩
      · exact ⟨op, List.mem_cons_self .., .inr ⟨result, hbare.1, h⟩⟩
      · cases ha
      · exact h.elim
      · obtain ⟨o, ho, hf⟩ := has_of_bare hbare.2 h
        exact ⟨o, List.mem_cons_of_mem _ ho, hf⟩
  | .cons _ (.mk _ (_ :: _) _) _, hbare, _ => nomatch hbare
  | .cons _ (.mk _ [] (.cons ..)) _, hbare, _ => nomatch hbare

variable [DecidableEq Op] [DecidableEq Att]

/-! ## What a batch says -/

/-- The records of a database. -/
def shelf (lib : Lib Op Att) (db : Db) : View lib := fun msg => (getTimestamp lib db msg).toOption

/-- Every value under a message is the bytes of a record. -/
def Sound (lib : Lib Op Att) (db : Db) : Prop :=
  ∀ msg data, isMeta msg = false → db msg = some data → ∃ r : Shallow lib msg, data = r.serialize

theorem getTimestamp_none {msg : Bytes} (h : db msg = none) :
    getTimestamp lib db msg = .error (.keyError msg) := by
  rw [getTimestamp, h, ite_self]

theorem getTimestamp_serialize {msg : Bytes} (hmeta : isMeta msg = false) {r : Shallow lib msg}
    (h : db msg = some r.serialize) : getTimestamp lib db msg = .ok r := by
  rw [getTimestamp, if_neg (by rw [hmeta]; exact Bool.false_ne_true), h]
  exact r.deserialize_serialize

/-- Away from the database's own keys, a record is found or its message is not there. -/
theorem Sound.cases (h : Sound lib db) {msg : Bytes} (hmeta : isMeta msg = false) :
    (∃ r, db msg = some r.serialize ∧ getTimestamp lib db msg = .ok r) ∨
      db msg = none ∧ getTimestamp lib db msg = .error (.keyError msg) := by
  cases hdata : db msg with
  | none => exact .inr ⟨rfl, getTimestamp_none hdata⟩
  | some data =>
      obtain ⟨r, rfl⟩ := h msg data hmeta hdata
      exact .inl ⟨r, rfl, getTimestamp_serialize hmeta hdata⟩

namespace Batch

variable {msg : Bytes}

/-- The record of every message as the batch stands: the cached one, or the stored one. -/
def view (b : Batch lib) (db : Db) : View lib := fun msg =>
  match b.cache msg with
  | some r => some r
  | none => shelf lib db msg

theorem view_setCache (b : Batch lib) (r : Shallow lib msg) :
    (b.setCache r).view db = Function.update (b.view db) msg (some r) := by
  funext m
  by_cases h : m = msg
  · subst h
    simp [view, setCache]
  · simp [view, setCache, Function.update_of_ne h]

theorem view_put (b : Batch lib) (r : Shallow lib msg) :
    (b.put r).view db = Function.update (b.view db) msg (some r) :=
  b.view_setCache r

/-- While a record is merged, the batch with the record in place does not depend on where the
object is. -/
theorem view_mutate (b : Batch lib) (shared : Bool) (r : Shallow lib msg) :
    Function.update ((b.mutate shared r).view db) msg (some r) =
      Function.update (b.view db) msg (some r) := by
  cases shared with
  | false => rfl
  | true =>
      change Function.update ((b.setCache r).view db) msg (some r) = _
      rw [view_setCache, Function.update_idem]

/-- A batch that is closed and whose puts are its cached records, at these messages. -/
structure Fine (b : Batch lib) (db : Db) (P : Bytes → Prop) : Prop where
  closed : ClosedOn P (b.view db)
  tracked : b.Tracked db P

/-- A batch that says more by these facts, with its cache changed at their messages only. -/
structure Merged (db : Db) (F : Fact Op Att → Prop) (b b' : Batch lib) : Prop where
  has : ∀ f, (b'.view db).Has f ↔ (b.view db).Has f ∨ F f
  frame : ∀ m, ¬ F (.node m) → b'.cache m = b.cache m

theorem Fine.mono {b : Batch lib} {P Q : Bytes → Prop} (h : b.Fine db P) (hsub : ∀ m, Q m → P m) :
    b.Fine db Q :=
  ⟨fun m op hm => h.closed m op (hsub m hm), fun m hm => h.tracked m (hsub m hm)⟩

theorem Fine.mutate {b : Batch lib} {P : Bytes → Prop} (h : b.Fine db P) (hmsg : ¬ P msg)
    (shared : Bool) (r : Shallow lib msg) : (b.mutate shared r).Fine db P := by
  refine ⟨?_, h.tracked.mutate hmsg shared r⟩
  cases shared with
  | false => exact h.closed
  | true =>
      change ClosedOn P ((b.setCache r).view db)
      rw [view_setCache]
      exact h.closed.set hmsg r

end Batch

/-! ## One timestamp -/

/-- The early return: a timestamp equal to the record of its message says nothing new, because
the results of the record's operations are there already. -/
theorem has_of_same {v : View lib} {msg : Bytes} {r : Shallow lib msg} {attestations : List Att}
    {ops : Ops Op Att} {P : Bytes → Prop} (hr : v msg = some r) (hclosed : ClosedOn P v)
    (hmsg : P msg) (hsame : r.same attestations ops = true) {f : Fact Op Att}
    (hf : (Timestamp.mk msg attestations ops).Has f) : v.Has f := by
  simp only [Shallow.same, Bool.and_eq_true, decide_eq_true_iff] at hsame
  obtain ⟨⟨⟨⟨_, hattestations⟩, _⟩, hops⟩, hbare⟩ := hsame
  obtain rfl | ⟨a, ha, rfl⟩ | hf := hf
  · exact ⟨r, hr, trivial⟩
  · exact ⟨r, hr, hattestations a ha⟩
  · obtain ⟨op, hop, rfl | ⟨result, hcall, rfl⟩⟩ := Ops.has_of_bare hbare hf
    · exact ⟨r, hr, hops op hop⟩
    · obtain ⟨m', hcall', hnode⟩ := hclosed msg op hmsg ⟨r, hr, hops op hop⟩
      obtain rfl := Option.some.inj (hcall.symm.trans hcall')
      exact hnode

/-- The search for the record of a message finds what the batch says. -/
theorem existing_cases (hsound : Sound lib db) {msg : Bytes} (hmeta : isMeta msg = false)
    (b : Batch lib) :
    (∃ r, existing db b msg = .ok (.cached r) ∧ b.cache msg = some r ∧ b.view db msg = some r) ∨
    (∃ r, existing db b msg = .ok (.stored r) ∧ b.cache msg = none ∧ b.view db msg = some r) ∨
    existing db b msg = .ok .missing ∧ b.cache msg = none ∧ b.view db msg = none := by
  cases hcache : b.cache msg with
  | some r => exact .inl ⟨r, by rw [existing, hcache], rfl, by rw [Batch.view, hcache]⟩
  | none =>
      obtain ⟨r, _, hget⟩ | ⟨_, hget⟩ := hsound.cases hmeta
      · refine .inr (.inl ⟨r, ?_, rfl, ?_⟩)
        · rw [existing, hcache, hget]
        · rw [Batch.view, hcache]
          change (getTimestamp lib db msg).toOption = some r
          rw [hget]
          rfl
      · refine .inr (.inr ⟨?_, rfl, ?_⟩)
        · rw [existing, hcache, hget]
        · rw [Batch.view, hcache]
          change (getTimestamp lib db msg).toOption = none
          rw [hget]
          rfl

variable {facts : Fact Op Att → Prop}

mutual

/-- Adding a timestamp adds its facts. -/
theorem addTimestamp_ok (hacyclic : Acyclic lib facts) (hsound : Sound lib db)
    (hmeta : ∀ m, facts (.node m) → isMeta m = false) :
    ∀ (t : Timestamp Op Att) {P : Bytes → Prop} {b : Batch lib}, t.Made lib →
      (∀ f, t.Has f → facts f) → (∀ m, t.Has (.node m) → P m) → b.Fine db P →
      ∃ b', addTimestamp db t b = .ok b' ∧ b.Merged db t.Has b' ∧ b'.Fine db P
  | .mk msg attestations ops, P, b, hmade, hfacts, hP, hfine => by
      have hmsg : P msg := hP msg (.inl rfl)
      -- the messages below this one are others, since no message leads back to itself
      have hbelow : ∀ m, ops.Has msg (.node m) → P m ∧ m ≠ msg := by
        refine fun m hm => ⟨hP m (.inr (.inr hm)), ?_⟩
        rintro rfl
        exact hacyclic m (Ops.Made.leads hmade (fun f hf => hfacts f (.inr (.inr hf))) hm)
      have hmerge : ∀ (shared : Bool) (r : Shallow lib msg),
          (b.view db msg = some r ∨ b.view db msg = none ∧ r = Shallow.empty lib msg) →
          ∃ b', finish (addOps db msg shared ops (r.update attestations)
              (b.mutate shared (r.update attestations))) = .ok b' ∧
            b.Merged db (Timestamp.mk msg attestations ops).Has b' ∧ b'.Fine db P := by
        intro shared r hr
        have hoff : ¬ (P msg ∧ msg ≠ msg) := fun h => h.2 rfl
        obtain ⟨r', b', hloop, hfine', hframe, hhas⟩ := addOps_ok hacyclic hsound hmeta shared ops
          (r := r.update attestations) hmade (fun f hf => hfacts f (.inr (.inr hf))) hbelow hoff
          ((hfine.mono fun m hm => hm.1).mutate hoff shared (r.update attestations))
        have hput : ∀ f, ((b'.put r').view db).Has f ↔
            (b.view db).Has f ∨ (Timestamp.mk msg attestations ops).Has f := by
          intro f
          rw [Batch.view_put, hhas, Batch.view_mutate, View.has_update hr, or_assoc, or_assoc]
          rfl
        refine ⟨b'.put r', by rw [hloop]; rfl, ⟨hput, fun m hm => ?_⟩,
          hfine.closed.add (fun m op hop => Timestamp.Made.closed hmade hop) hput,
          hfine'.tracked.put r'⟩
        have hne : m ≠ msg := fun heq => hm (heq ▸ .inl rfl)
        rw [Batch.cache_put_of_ne hne, hframe m hne fun h => hm (.inr (.inr h)),
          Batch.cache_mutate_of_ne hne]
      have hreturn : ∀ r : Shallow lib msg, b.view db msg = some r → r.same attestations ops =
          true → b.Merged db (Timestamp.mk msg attestations ops).Has b ∧ b.Fine db P :=
        fun r hr hsame =>
          ⟨⟨fun f => ⟨.inl, fun h => h.elim id (has_of_same hr hfine.closed hmsg hsame)⟩,
          fun _ _ => rfl⟩, hfine⟩
      obtain ⟨r, hexisting, _, hr⟩ | ⟨r, hexisting, _, hr⟩ | ⟨hexisting, _, hr⟩ :=
        existing_cases hsound (hmeta msg (hfacts _ (.inl rfl))) b
      · by_cases hsame : r.same attestations ops = true
        · exact ⟨b, by rw [addTimestamp, hexisting]; exact if_pos hsame, hreturn r hr hsame⟩
        · obtain ⟨b', hfinish, hb'⟩ := hmerge true r (.inl hr)
          exact ⟨b', by rw [addTimestamp, hexisting]; exact (if_neg hsame).trans hfinish, hb'⟩
      · by_cases hsame : r.same attestations ops = true
        · exact ⟨b, by rw [addTimestamp, hexisting]; exact if_pos hsame, hreturn r hr hsame⟩
        · obtain ⟨b', hfinish, hb'⟩ := hmerge false r (.inl hr)
          exact ⟨b', by rw [addTimestamp, hexisting]; exact (if_neg hsame).trans hfinish, hb'⟩
      · obtain ⟨b', hfinish, hb'⟩ := hmerge false (Shallow.empty lib msg) (.inr ⟨hr, rfl⟩)
        exact ⟨b', by rw [addTimestamp, hexisting]; exact hfinish, hb'⟩

/-- The loop over the operations adds them to the record being merged, and the facts of their
results to the batch. -/
theorem addOps_ok (hacyclic : Acyclic lib facts) (hsound : Sound lib db)
    (hmeta : ∀ m, facts (.node m) → isMeta m = false) {msg : Bytes} (shared : Bool) :
    ∀ (ops : Ops Op Att) {P : Bytes → Prop} {r : Shallow lib msg} {b : Batch lib},
      ops.Made lib msg →
      (∀ f, ops.Has msg f → facts f) → (∀ m, ops.Has msg (.node m) → P m) → ¬ P msg → b.Fine db P →
      ∃ r' b', addOps db msg shared ops r b = .ok (r', b') ∧ b'.Fine db P ∧
        (∀ m, m ≠ msg → ¬ ops.Has msg (.node m) → b'.cache m = b.cache m) ∧
        ∀ f, View.Has (Function.update (b'.view db) msg (some r')) f ↔
          View.Has (Function.update (b.view db) msg (some r)) f ∨ ops.Has msg f
  | .nil, P, r, b, _, _, _, _, hfine =>
      ⟨r, b, rfl, hfine, fun _ _ _ => rfl, fun _ => ⟨.inl, fun h => h.elim id False.elim⟩⟩
  | .cons op result rest, P, r, b, hmade, hfacts, hP, hmsg, hfine => by
      obtain ⟨hcall, hresult, hrest⟩ := hmade
      obtain ⟨r₁, hadd, hr₁⟩ := r.addOp_has hcall
      obtain ⟨b₂, hchild, hmerged, hfine₂⟩ := addTimestamp_ok hacyclic hsound hmeta result hresult
        (fun f hf => hfacts f (.inr (.inl hf))) (fun m hm => hP m (.inr (.inl hm)))
        (hfine.mutate hmsg shared r₁)
      have hoff : ∀ {f}, result.Has f → f.msg ≠ msg := fun hf heq =>
        hmsg (hP msg (.inr (.inl (heq ▸ hf.node))))
      have hcurrent : b₂.current shared r₁ = r₁ := Batch.current_eq <|
        hmerged.frame msg fun hnode => hoff hnode rfl
      obtain ⟨r', b', hloop, hfine', hframe, hhas⟩ :=
        addOps_ok hacyclic hsound hmeta shared rest (r := r₁) hrest
        (fun f hf => hfacts f (.inr (.inr hf))) (fun m hm => hP m (.inr (.inr hm))) hmsg hfine₂
      refine ⟨r', b', ?_, hfine', fun m hne hm => ?_, fun f => ?_⟩
      · rw [addOps, hadd]
        change
          (match addTimestamp db result (b.mutate shared r₁) with | .error e => _ | .ok b => _) = _
        rw [hchild]
        change addOps db msg shared rest (b₂.current shared r₁) b₂ = _
        rw [hcurrent, hloop]
      · rw [hframe m hne fun h => hm (.inr (.inr h)), hmerged.frame m fun h => hm (.inr (.inl h))]
        exact Batch.cache_mutate_of_ne hne
      · have hop : View.Has (Function.update (b.view db) msg (some r₁)) f ↔
            View.Has (Function.update (b.view db) msg (some r)) f ∨ f = .op msg op := by
          rw [View.has_set, View.has_set]
          split_ifs with heq
          · exact hr₁ f heq
          · exact ⟨.inl, fun h => h.elim id fun h => absurd (h ▸ rfl) heq⟩
        have hunder : View.Has (Function.update (b₂.view db) msg (some r₁)) f ↔
            View.Has (Function.update (b.view db) msg (some r₁)) f ∨ result.Has f := by
          rw [← Batch.view_mutate b shared r₁, View.has_set, View.has_set]
          split_ifs with heq
          · exact ⟨.inl, fun h => h.elim id fun h => absurd heq (hoff h)⟩
          · exact hmerged.has f
        rw [hhas, hunder, hop, or_assoc, or_assoc]
        rfl

end

end OtsServer.LevelDb
