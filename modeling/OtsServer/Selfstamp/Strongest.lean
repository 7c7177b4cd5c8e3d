import OtsServer.Selfstamp.Foreign

/-!
# The strongest foreign proof

Whatever is delivered for a copy, and wherever a delivery stops, what is held for it only gets
stronger, and a delivery that was kept is worth no more than it. So what is held in the end
depends on what was delivered and not on the order.
-/

namespace OtsServer.Selfstamp

open Prog (Sees)

/-! ## Moves that are seen -/

section Moves

variable (env : Env) {p : Place} {name name' : Str} {s : Shelf} {E : Fault → Shelf → Prop}
  {Q : Unit → Shelf → Prop}

/-- A file under another name. -/
def Shelf.move (s : Shelf) (p : Place) (name name' : Str) (data : Bytes) : Shelf :=
  ⟨fun p' n => if p' = p ∧ n = name' then some data else if p' = p ∧ n = name then
    none else s.file p' n, s.stored⟩

theorem shelf_move (w : World) (hp : p ≠ .inbox) (hname : name.isDot = false)
    (hname' : name'.isDot = false) (data : Bytes) :
    ((w.erase p name).put p name' data).shelf = w.shelf.move p name name' data := by
  unfold World.shelf Shelf.move
  refine congrArg₂ Shelf.mk (funext fun p' => funext fun n => ?_) rfl
  dsimp only
  by_cases hdot : p' = .inbox ∨ n.isDot = true
  · rw [if_pos hdot, if_neg, if_neg, if_pos hdot]
    · rintro ⟨rfl, rfl⟩
      exact hdot.elim hp fun h => nomatch hname.symm.trans h
    · rintro ⟨rfl, rfl⟩
      exact hdot.elim hp fun h => nomatch hname'.symm.trans h
  · rw [if_neg hdot, if_neg hdot, get_put, get_erase]

theorem Sees.rename (hp : p ≠ .inbox) (hname : name.isDot = false) (hname' : name'.isDot = false)
    (hok : ∀ data, s.file p name = some data → Q () (s.move p name name' data))
    (herr : ∀ e, E e s) : Sees World.shelf (rename env p name p name') Q E s := by
  refine .bind (Sees.fileCall env
      (.bind (.gets (g := fun t => t.file p name) (fun _ => (shelf_file hp hname).symm) ?_)) herr)
  split
  next => exact .raise (herr _)
  next data h =>
      exact .modify (g := fun t => t.move p name name' data)
        (fun w => shelf_move w hp hname hname' data) (hok data h)

theorem Sees.moveDurable (hp : p ≠ .inbox) (hname : name.isDot = false)
    (hname' : name'.isDot = false) (hok : ∀ data, s.file p name = some data →
      Q () (s.move p name name' data)) (hbefore : ∀ e, E e s)
    (hafter : ∀ data e, s.file p name = some data → E e (s.move p name name' data)) :
    Sees World.shelf (moveDurable env p name p name') Q E s := by
  refine .bind (Sees.fsyncFile env hp hname
      (.bind (Sees.rename env hp hname hname' (fun data h => ?_) hbefore)) hbefore)
  exact .bind (Sees.fsyncDir env (.ite (fun hne => absurd rfl hne) fun _ =>
        .pure (hok data h)) fun e => hafter data e h)

end Moves

/-! ## One delivery -/

section Delivery

variable {copy : Str} {raw data : Bytes} {s t : Shelf}

theorem isDot_append {name : Str} (hjson : Str.endsWith Str.json name = true) (suffix : Str) :
    Str.isDot (name ++ suffix) = name.isDot := by
  cases name with
  | nil => exact nomatch hjson
  | cons c name => rfl

theorem isDot_foreignName (hjson : Str.endsWith Str.json copy = true) :
    (foreignName copy).isDot = copy.isDot := by
  rw [foreignName, List.append_assoc, isDot_append hjson]

theorem isDot_asideName (hjson : Str.endsWith Str.json copy = true) (held : Bytes) :
    (asideName (foreignName copy) held).isDot = copy.isDot := by
  rw [asideName, foreignName, List.append_assoc, List.append_assoc, List.append_assoc,
    isDot_append hjson]

theorem asideName_ne (target : Str) (held : Bytes) : asideName target held ≠ target := by
  intro h
  have hlength := congrArg List.length h
  rw [asideName, List.append_assoc, List.length_append] at hlength
  exact absurd hlength (by simp [Str.ofChars])

/-- The file held for a copy. -/
abbrev Shelf.foreign (s : Shelf) (copy : Str) : Option Bytes := s.file .witnessed (foreignName copy)

/-- The held file is set aside. -/
abbrev Shelf.setAside (s : Shelf) (copy : Str) (held : Bytes) : Shelf :=
  s.move .witnessed (foreignName copy) (asideName (foreignName copy) held) held

/-- What a delivery can do to the files, whether it returns or not. -/
inductive Delivered (copy : Str) (raw data : Bytes) (s : Shelf) : Shelf → Prop
  | same : Delivered copy raw data s s
  | aside {held : Bytes} : s.foreign copy = some held → Strength.of raw held = .nothing →
      Delivered copy raw data s (s.setAside copy held)
  | stored : (∀ held, s.foreign copy = some held → .nothing < Strength.of raw held) →
      Strength.held raw (s.foreign copy) < Strength.of raw data →
      Delivered copy raw data s (s.store .witnessed (foreignName copy) data)
  | replaced {held : Bytes} : s.foreign copy = some held →
      Strength.of raw held = .nothing → .nothing < Strength.of raw data →
      Delivered copy raw data s ((s.setAside copy held).store .witnessed (foreignName copy) data)

/-- What is held when a delivery returns is the stronger of what was held and what was delivered. -/
structure Kept (copy : Str) (raw data : Bytes) (s t : Shelf) : Prop where
  delivered : Delivered copy raw data s t
  proof : .nothing < Strength.of raw data
  strength : Strength.held raw (t.foreign copy) =
    max (Strength.held raw (s.foreign copy)) (Strength.of raw data)

theorem foreign_store (s : Shelf) (copy : Str) (data : Bytes) :
    (s.store .witnessed (foreignName copy) data).foreign copy = some data := Shelf.store_self ..

theorem foreign_setAside (s : Shelf) (copy : Str) (held : Bytes) :
    (s.setAside copy held).foreign copy = none := by
  refine (if_neg ?_).trans (if_pos ⟨rfl, rfl⟩)
  exact fun h => asideName_ne _ held h.2.symm

variable (env : Env)

/-- Putting the delivered proof in place, after what was done to the held file. -/
theorem storeForeign_sees (hjson : Str.endsWith Str.json copy = true) (hdot : copy.isDot = false)
    {u : Shelf} {parsed : Proof} (hbefore : Delivered copy raw data s u)
    (hafter : Delivered copy raw data s (u.store .witnessed (foreignName copy) data))
    (hdata : .nothing < Strength.of raw data)
    (hheld : Strength.held raw (s.foreign copy) ≤ Strength.of raw data) :
    Sees World.shelf (storeForeign env copy data parsed) (fun _ => Kept copy raw data s)
      (fun _ => Delivered copy raw data s) u := by
  refine .bind (Sees.writeAtomic env nofun ((isDot_foreignName hjson).trans hdot)
      (.pure ?_) (fun _ => hbefore) fun _ => hafter)
  refine ⟨hafter, hdata, ?_⟩
  rw [foreign_store, max_eq_right hheld]
  rfl

theorem keepOver_sees (hjson : Str.endsWith Str.json copy = true) (hdot : copy.isDot = false)
    {s : Shelf} {parsed : Proof} {held : Bytes} (hheld : s.foreign copy = some held)
    (hparsed : checkForeignProof data (Sha256.digest raw) = .ok parsed) :
    Sees World.shelf (keepOver env copy data (Sha256.digest raw) parsed held)
      (fun _ => Kept copy raw data s) (fun _ => Delivered copy raw data s) s := by
  have hforeign := (isDot_foreignName hjson).trans hdot
  have hdata : .nothing < Strength.of raw data :=
    Strength.isProofOf_iff.mp ⟨parsed, Strength.checkForeignProof_ok.mp hparsed⟩
  have hstrength : Strength.held raw (s.foreign copy) = Strength.of raw held := by rw [hheld]; rfl
  rw [keepOver]
  cases hcheck : checkForeignProof held (Sha256.digest raw) with
  | error e =>
      obtain ⟨text, rfl⟩ := Strength.checkForeignProof_onlyOtsError (Sha256.digest raw) e hcheck
      have hbad : Strength.of raw held = .nothing := by rw [Strength.of, hcheck]
      refine .bind (Sees.moveDurable env Place.noConfusion hforeign
          ((isDot_asideName hjson held).trans hdot) (fun d hd => ?_)
          (fun _ => .same) fun d _ hd => ?_)
      · obtain rfl := Option.some.inj (hheld.symm.trans hd)
        refine storeForeign_sees env hjson hdot (.aside hheld hbad)
          (.replaced hheld hbad hdata) hdata ?_
        rw [hstrength, hbad]
        exact hdata.le
      · obtain rfl := Option.some.inj (hheld.symm.trans hd)
        exact .aside hheld hbad
  | ok old =>
      have hof := Strength.of_of_ok hcheck
      have hofData := Strength.of_of_ok hparsed
      refine .ite (fun hkeep => ?_) fun hkeep => ?_
      · refine .bind (Sees.fsyncFile env Place.noConfusion hforeign
            (.bind (Sees.fsyncDir env (.pure ?_) fun _ => .same)) fun _ => .same)
        refine ⟨.same, hdata, (max_eq_left ?_).symm⟩
        rw [hstrength, hof, hofData]
        cases hb : old.attestation.isBitcoin with
        | true => exact Strength.le_bitcoin _
        | false =>
            rw [hb, Bool.false_or, Bool.not_eq_true'] at hkeep
            rw [hkeep]
      · rw [Bool.or_eq_true, not_or, Bool.not_eq_true, Bool.not_eq_true,
          Bool.not_eq_false'] at hkeep
        have hlt : Strength.held raw (s.foreign copy) < Strength.of raw data := by
          rw [hstrength, hof, hofData, hkeep.1, hkeep.2]
          decide
        refine storeForeign_sees env hjson hdot .same (.stored (fun d hd => ?_) hlt) hdata hlt.le
        obtain rfl := Option.some.inj (hheld.symm.trans hd)
        exact Strength.isProofOf_iff.mp ⟨old, Strength.checkForeignProof_ok.mp hcheck⟩

theorem keepForeignProof_sees (hjson : Str.endsWith Str.json copy = true)
    (hdot : copy.isDot = false) (s : Shelf) :
    Sees World.shelf (keepForeignProof env copy data (Sha256.digest raw))
      (fun _ => Kept copy raw data s) (fun _ => Delivered copy raw data s) s := by
  have hforeign := (isDot_foreignName hjson).trans hdot
  refine .bind (Sees.ofOts (fun parsed hparsed => ?_) fun _ => .same)
  refine .bind (Sees.pathExists env (p := .witnessed) nofun hforeign
      (.ite (fun _ => ?_) fun hnone => ?_) fun _ => .same)
  · refine .bind
      (Sees.readBytes env (p := .witnessed) nofun hforeign (fun held hheld => ?_) fun _ => .same)
    exact keepOver_sees env hjson hdot hheld hparsed
  · have hheld : s.foreign copy = none := Option.not_isSome_iff_eq_none.mp hnone
    have hdata : .nothing < Strength.of raw data :=
      Strength.isProofOf_iff.mp ⟨parsed, Strength.checkForeignProof_ok.mp hparsed⟩
    have hnothing : Strength.held raw (s.foreign copy) = .nothing := by rw [hheld]; rfl
    refine storeForeign_sees env hjson hdot .same (.stored (fun held h => ?_) (hnothing ▸ hdata))
      hdata (hnothing ▸ hdata.le)
    exact nomatch hheld.symm.trans h

end Delivery

/-! ## Every sequence of deliveries -/

/-- What was delivered for a copy so far: each attempt, and those that returned. -/
structure Keeping where
  world : World
  tried : List Bytes
  kept : List Bytes

/-- An attempt to keep a proof, which may return, raise, or be where the process stops. -/
def Keeping.deliver (k : Keeping) (env : Env) (copy : Str) (raw data : Bytes) : Keeping :=
  match keepForeignProof env copy data (Sha256.digest raw) k.world with
  | (.ok _, w) => ⟨w, k.tried ++ [data], k.kept ++ [data]⟩
  | (.error _, w) => ⟨w, k.tried ++ [data], k.kept⟩

/-- The deliveries for a copy whose bytes are `raw`, from a directory on. -/
def keeping (start : World) (copy : Str) (raw : Bytes) : Transition.System Keeping where
  init k := k = ⟨start, [], []⟩
  step k k' := ∃ env data, k' = k.deliver env copy raw data

/-- What is held for the copy. -/
abbrev Keeping.held (k : Keeping) (copy : Str) : Option Bytes :=
  k.world.get .witnessed (foreignName copy)

abbrev Keeping.strength (k : Keeping) (copy : Str) (raw : Bytes) : Strength :=
  .held raw (k.held copy)

section Keeping

variable {start : World} {copy : Str} {raw data : Bytes} {k k' : Keeping} {s t : Shelf}

theorem Delivered.strength (h : Delivered copy raw data s t) :
    Strength.held raw (s.foreign copy) ≤ Strength.held raw (t.foreign copy) ∧ Strength.held raw
        (t.foreign copy) ≤ max (Strength.held raw (s.foreign copy)) (Strength.of raw data) := by
  cases h with
  | same => exact ⟨le_refl _, le_max_left ..⟩
  | aside hheld hbad =>
      rw [foreign_setAside, hheld]
      exact ⟨hbad.le, Strength.nothing_le _⟩
  | stored _ hlt =>
      rw [foreign_store]
      exact ⟨hlt.le, le_max_right ..⟩
  | replaced hheld hbad _ =>
      rw [foreign_store, hheld]
      exact ⟨hbad.le.trans (Strength.nothing_le _), le_max_right ..⟩

/-- A held file that is not a proof of the copy stays, or is under its set-aside name. -/
def Preserved (copy : Str) (raw held : Bytes) (s : Shelf) : Prop :=
  s.foreign copy = some held ∨
    s.file .witnessed (asideName (foreignName copy) held) = some held ∧
      ∀ d, s.foreign copy = some d → .nothing < Strength.of raw d

theorem aside_store (s : Shelf) (copy : Str) (held data : Bytes) :
    (s.store .witnessed (foreignName copy) data).file .witnessed
      (asideName (foreignName copy) held) = s.file .witnessed (asideName (foreignName copy) held) :=
  Shelf.store_of_ne fun h => asideName_ne _ held h.2

theorem aside_setAside (s : Shelf) (copy : Str) (held : Bytes) :
    (s.setAside copy held).file .witnessed (asideName (foreignName copy) held) = some held :=
  if_pos ⟨rfl, rfl⟩

theorem Preserved.delivered {held : Bytes} (h : Preserved copy raw held s)
    (hbad : Strength.of raw held = .nothing) (hdelivered : Delivered copy raw data s t) :
    Preserved copy raw held t := by
  cases hdelivered with
  | same => exact h
  | aside hheld hbad' =>
      obtain hheld' | ⟨_, hproof⟩ := h
      · obtain rfl := Option.some.inj (hheld'.symm.trans hheld)
        refine .inr ⟨aside_setAside s copy held, fun d hd => ?_⟩
        exact nomatch (foreign_setAside s copy held).symm.trans hd
      · exact absurd hbad' (hproof _ hheld).ne'
  | stored hproof' hlt =>
      obtain hheld' | ⟨haside, _⟩ := h
      · exact absurd hbad (hproof' _ hheld').ne'
      · refine .inr ⟨(aside_store s copy held data).trans haside, fun d hd => ?_⟩
        obtain rfl := Option.some.inj ((foreign_store s copy data).symm.trans hd)
        exact (Strength.nothing_le _).trans_lt hlt
  | replaced hheld hbad' hdata =>
      obtain hheld' | ⟨_, hproof⟩ := h
      · obtain rfl := Option.some.inj (hheld'.symm.trans hheld)
        refine .inr ⟨(aside_store _ copy held data).trans (aside_setAside s copy held),
          fun d hd => ?_⟩
        obtain rfl := Option.some.inj ((foreign_store _ copy data).symm.trans hd)
        exact hdata
      · exact absurd hbad' (hproof _ hheld).ne'

/-- What was kept is worth no more than what is held, and that no more than what was delivered. -/
structure Keeping.Sound (start : World) (copy : Str) (raw : Bytes) (k : Keeping) : Prop where
  proofs : ∀ d ∈ k.kept, .nothing < Strength.of raw d
  lower : (Strength.held raw (start.shelf.foreign copy)).strongest (k.kept.map (.of raw)) ≤
    Strength.held raw (k.world.shelf.foreign copy)
  upper : Strength.held raw (k.world.shelf.foreign copy) ≤
    (Strength.held raw (start.shelf.foreign copy)).strongest (k.tried.map (.of raw))
  preserved : ∀ held, start.shelf.foreign copy = some held → Strength.of raw held = .nothing →
    Preserved copy raw held k.world.shelf

theorem deliver_cases (k : Keeping) (env : Env) (hjson : Str.endsWith Str.json copy = true)
    (hdot : copy.isDot = false) (raw data : Bytes) :
    (∃ w, k.deliver env copy raw data = ⟨w, k.tried ++ [data], k.kept⟩ ∧
        Delivered copy raw data k.world.shelf w.shelf) ∨
      ∃ w, k.deliver env copy raw data = ⟨w, k.tried ++ [data], k.kept ++ [data]⟩ ∧
        Kept copy raw data k.world.shelf w.shelf := by
  have hsees : Sees World.shelf (keepForeignProof env copy data (Sha256.digest raw))
      (fun _ => Kept copy raw data k.world.shelf)
      (fun _ => Delivered copy raw data k.world.shelf) k.world.shelf :=
      keepForeignProof_sees env hjson hdot k.world.shelf
  have hwp := hsees.out k.world rfl
  rw [Prog.wp] at hwp
  rw [Keeping.deliver]
  cases hrun : keepForeignProof env copy data (Sha256.digest raw) k.world with
  | mk result w =>
      rw [hrun] at hwp
      cases result with
      | error e => exact .inl ⟨w, rfl, hwp⟩
      | ok state => exact .inr ⟨w, rfl, hwp⟩

theorem Keeping.Sound.deliver (h : k.Sound start copy raw) (env : Env)
    (hjson : Str.endsWith Str.json copy = true) (hdot : copy.isDot = false) (data : Bytes) :
    (k.deliver env copy raw data).Sound start copy raw := by
  obtain ⟨w, heq, hdelivered⟩ | ⟨w, heq, hkept⟩ := deliver_cases k env hjson hdot raw data
  · rw [heq]
    refine ⟨h.proofs, h.lower.trans hdelivered.strength.1, ?_, fun held hheld hbad => ?_⟩
    · rw [List.map_append, List.map_singleton, Strength.strongest_concat]
      exact hdelivered.strength.2.trans (max_le_max_right _ h.upper)
    · exact (h.preserved held hheld hbad).delivered hbad hdelivered
  · rw [heq]
    refine ⟨fun d hd => ?_, ?_, ?_, fun held hheld hbad => ?_⟩
    · obtain hd | hd := List.mem_append.mp hd
      · exact h.proofs d hd
      · exact List.mem_singleton.mp hd ▸ hkept.proof
    · rw [List.map_append, List.map_singleton, Strength.strongest_concat, hkept.strength]
      exact max_le_max_right _ h.lower
    · rw [List.map_append, List.map_singleton, Strength.strongest_concat, hkept.strength]
      exact max_le_max_right _ h.upper
    · exact (h.preserved held hheld hbad).delivered hbad hkept.delivered

theorem keeping_sound (hjson : Str.endsWith Str.json copy = true) (hdot : copy.isDot = false) :
    (keeping start copy raw).Inductive (Keeping.Sound start copy raw) where
  init := by
    rintro _ rfl
    exact {
      proofs := fun _ hd => nomatch hd
      lower := le_refl _
      upper := le_refl _
      preserved := fun _ hheld _ => .inl hheld }
  step := by
    rintro k _ _ h ⟨env, data, rfl⟩
    exact h.deliver env hjson hdot data

/-- What is held only gets stronger. -/
theorem strength_mono (hjson : Str.endsWith Str.json copy = true) (hdot : copy.isDot = false)
    (hrun : (keeping start copy raw).Run k k') :
    Strength.held raw (k.world.shelf.foreign copy) ≤
      Strength.held raw (k'.world.shelf.foreign copy) := by
  induction hrun with
  | refl => exact le_refl _
  | @tail k' _ _ hstep ih =>
      obtain ⟨env, data, rfl⟩ := hstep
      refine ih.trans ?_
      obtain ⟨w, heq, hdelivered⟩ | ⟨w, heq, hkept⟩ := deliver_cases k' env hjson hdot raw data
      · rw [heq]
        exact hdelivered.strength.1
      · rw [heq]
        exact hkept.delivered.strength.1

/-- Every proof of the copy that was tried was kept, if need be when it was delivered again. -/
def Keeping.Complete (raw : Bytes) (k : Keeping) : Prop :=
  ∀ d ∈ k.tried, IsProofOf raw d → d ∈ k.kept

theorem Keeping.Sound.complete (h : k.Sound start copy raw) (hcomplete : k.Complete raw) :
    Strength.held raw (k.world.shelf.foreign copy) = .bitcoin ↔
      Strength.held raw (start.shelf.foreign copy) = .bitcoin ∨ ∃ d ∈ k.tried,
        IsBitcoinProofOf raw d := by
  have hlower := h.lower
  have hupper := h.upper
  constructor
  · intro hbitcoin
    rw [hbitcoin] at hupper
    have hstrongest := le_antisymm (Strength.le_bitcoin _) hupper
    refine (Strength.strongest_eq_bitcoin.mp hstrongest).imp_right fun hmem => ?_
    obtain ⟨d, hd, hof⟩ := List.mem_map.mp hmem
    exact ⟨d, hd, Strength.of_eq_bitcoin.mp hof⟩
  · intro hsome
    refine le_antisymm (Strength.le_bitcoin _) (le_trans (le_of_eq (Eq.symm ?_)) hlower)
    refine Strength.strongest_eq_bitcoin.mpr (hsome.imp_right ?_)
    rintro ⟨d, hd, hbitcoin⟩
    have hof := Strength.of_eq_bitcoin.mpr hbitcoin
    have hproof : IsProofOf raw d := Strength.isProofOf_iff.mpr (by rw [hof]; decide)
    exact List.mem_map.mpr ⟨d, hcomplete d hd hproof, hof⟩

theorem held_bitcoin_iff {held : Option Bytes} :
    Strength.held raw held = .bitcoin ↔ ∃ data, held = some data ∧ IsBitcoinProofOf raw data := by
  cases held with
  | none => exact iff_of_false nofun fun ⟨_, h, _⟩ => nomatch h
  | some data =>
      rw [Strength.held, Strength.of_eq_bitcoin]
      exact ⟨fun h => ⟨data, rfl, h⟩, fun ⟨_, hdata, h⟩ => Option.some.inj hdata ▸ h⟩

theorem held_proof_iff {held : Option Bytes} :
    .nothing < Strength.held raw held ↔ ∃ data, held = some data ∧ IsProofOf raw data := by
  cases held with
  | none => exact iff_of_false (lt_irrefl _) fun ⟨_, h, _⟩ => nomatch h
  | some data =>
      rw [Strength.held, ← Strength.isProofOf_iff]
      exact ⟨fun h => ⟨data, rfl, h⟩, fun ⟨_, hdata, h⟩ => Option.some.inj hdata ▸ h⟩

theorem Keeping.Sound.of_kept (h : k.Sound start copy raw) {d : Bytes} (hd : d ∈ k.kept) :
    Strength.of raw d ≤ Strength.held raw (k.world.shelf.foreign copy) :=
  (Strength.le_strongest_of_mem (List.mem_map_of_mem hd)).trans h.lower

/-- The strongest proof delivered for a copy is the one that is held, in whatever order. -/
theorem strongest_proof_wins (hjson : Str.endsWith Str.json copy = true) (hdot : copy.isDot = false)
    (hk : (keeping start copy raw).Reachable k) :
    (k.kept ≠ [] → ∃ data, k.held copy = some data ∧ IsProofOf raw data) ∧
    (∀ d ∈ k.kept, IsBitcoinProofOf raw d →
      ∃ data, k.held copy = some data ∧ IsBitcoinProofOf raw data) ∧
    (∀ k', (keeping start copy raw).Run k k' →
      ((∃ data, k.held copy = some data ∧ IsProofOf raw data) →
        ∃ data, k'.held copy = some data ∧ IsProofOf raw data) ∧
      ((∃ data, k.held copy = some data ∧ IsBitcoinProofOf raw data) →
        ∃ data, k'.held copy = some data ∧ IsBitcoinProofOf raw data)) ∧
    (k.Complete raw → ((∃ data, k.held copy = some data ∧ IsBitcoinProofOf raw data) ↔
      (∃ data, start.get .witnessed (foreignName copy) = some data ∧ IsBitcoinProofOf raw data) ∨
        ∃ d ∈ k.tried, IsBitcoinProofOf raw d)) ∧
    (∀ k', (keeping start copy raw).Reachable k' → k.Complete raw → k'.Complete raw →
      k.tried.Perm k'.tried → ((∃ data, k.held copy = some data ∧ IsBitcoinProofOf raw data) ↔
        ∃ data, k'.held copy = some data ∧ IsBitcoinProofOf raw data)) ∧
    ∀ held, start.get .witnessed (foreignName copy) = some held → ¬IsProofOf raw held →
      (k.held copy = some held ∨
        k.world.get .witnessed (asideName (foreignName copy) held) = some held) ∧
      (k.kept ≠ [] → k.world.get .witnessed (asideName (foreignName copy) held) = some held) := by
  have hsee : ∀ w : World, w.get .witnessed (foreignName copy) = w.shelf.foreign copy := fun w =>
    (shelf_file (p := .witnessed) nofun ((isDot_foreignName hjson).trans hdot)).symm
  have hsound : ∀ {k}, (keeping start copy raw).Reachable k → k.Sound start copy raw := fun h =>
    (keeping_sound hjson hdot).reachable h
  have hcomplete : ∀ {k}, (keeping start copy raw).Reachable k → k.Complete raw → _ := fun h =>
    (hsound h).complete
  simp only [Keeping.held, hsee, ← held_bitcoin_iff, ← held_proof_iff]
  have hproof : k.kept ≠ [] → .nothing < Strength.held raw (k.world.shelf.foreign copy) :=
      fun hne => by
    obtain ⟨d, hd⟩ := List.exists_mem_of_ne_nil _ hne
    exact ((hsound hk).proofs d hd).trans_le ((hsound hk).of_kept hd)
  refine ⟨hproof, fun d hd hbitcoin => ?_, fun k' hrun => ?_, hcomplete hk,
    fun k' hk' hc hc' hperm => ?_, ?_⟩
  · have hof := Strength.of_eq_bitcoin.mpr hbitcoin
    exact le_antisymm (Strength.le_bitcoin _) (hof ▸ (hsound hk).of_kept hd)
  · have hle := strength_mono hjson hdot hrun
    refine ⟨fun h => h.trans_le hle, fun h => ?_⟩
    exact le_antisymm (Strength.le_bitcoin _) (h ▸ hle)
  · rw [hcomplete hk hc, hcomplete hk' hc']
    simp only [hperm.mem_iff]
  · intro held hheld hnot
    have hbad := Strength.of_eq_nothing.mpr hnot
    have haside : k.world.get .witnessed (asideName (foreignName copy) held) =
        k.world.shelf.file .witnessed (asideName (foreignName copy) held) :=
      (shelf_file (p := .witnessed) nofun ((isDot_asideName hjson held).trans hdot)).symm
    rw [haside]
    obtain hsame | ⟨hmoved, -⟩ := (hsound hk).preserved held hheld hbad
    · refine ⟨.inl hsame, fun hne => ?_⟩
      have hlt := hproof hne
      rw [hsame] at hlt
      exact absurd hbad hlt.ne'
    · exact ⟨.inr hmoved, fun _ => hmoved⟩

end Keeping

namespace Junk

/-! ### A held file that is no proof, a pending proof and a Bitcoin proof -/

open Upgraded

def start : World :=
  ⟨fun p => if p = .witnessed then (Directory.empty.put name raw).put (foreignName name) [0x00] else
    .empty, 0, []⟩

def pending : Bytes := header ++ submitted

def anchored : Bytes := header ++ upgraded

def last : Keeping :=
  ((⟨start, [], []⟩ : Keeping).deliver env name raw pending).deliver env name raw anchored

theorem reachable_last : (keeping start name raw).Reachable last :=
  .step (.step (.init rfl) ⟨env, pending, rfl⟩) ⟨env, anchored, rfl⟩

theorem kept_last : last.kept = [pending, anchored] := by decide +kernel

theorem set_aside : (∃ data, last.held name = some data ∧ IsBitcoinProofOf raw data) ∧
    last.world.get .witnessed (asideName (foreignName name) [0x00]) = some [0x00] := by
  obtain ⟨-, hbitcoin, -, -, -, haside⟩ :=
    strongest_proof_wins (by decide) (by decide) reachable_last
  rw [kept_last] at hbitcoin haside
  constructor
  · apply hbitcoin anchored (List.mem_cons_of_mem _ (List.mem_singleton_self _))
    exact Strength.of_eq_bitcoin.mp (by decide +kernel)
  · have hjunk : start.get .witnessed (foreignName name) = some [0x00] := by decide +kernel
    exact (haside [0x00] hjunk (Strength.of_eq_nothing.mp (by decide +kernel))).2
      (List.cons_ne_nil _ _)

end Junk

end OtsServer.Selfstamp
