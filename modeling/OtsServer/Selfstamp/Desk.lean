import OtsServer.Selfstamp.Sparing

/-!
# The files that the inbox's pass sees

The claims in the inbox and the files in `rejected`, beside the files that the passes see.
Deliveries come under final names and no claim is one, so nothing but the pass changes what is in
this view.
-/

namespace OtsServer.Selfstamp

open Prog (Sees Keeps)

/-- What the inbox's pass works on. -/
@[ext] structure Desk where
  shelf : Shelf
  /-- The files in the inbox under names that begin with a dot. -/
  claim : Str → Option Bytes
  /-- The files in `rejected`. -/
  refused : Str → Option Bytes

def World.claimed (w : World) (name : Str) : Option Bytes :=
  if name.isDot then w.get .inbox name else none

def World.refused (w : World) (name : Str) : Option Bytes := w.get .rejected name

def World.desk (w : World) : Desk := ⟨w.shelf, w.claimed, w.refused⟩

theorem witnessed_ne : Place.witnessed ≠ .inbox := nofun

/-! ## Claims that nothing touches -/

section Claimed

variable (env : Env) {w : World} {p : Place} {name : Str}

theorem claimed_of_dot (w : World) (hname : name.isDot = true) :
    w.claimed name = w.get .inbox name :=
  if_pos hname

theorem get_of_claimed {w : World} {data : Bytes} (h : w.claimed name = some data) :
    w.get .inbox name = some data := by
  unfold World.claimed at h
  split_ifs at h
  exact h

theorem claimed_put (w : World) (h : p ≠ .inbox ∨ name.isDot = false) (data : Bytes) :
    (w.put p name data).claimed = w.claimed := by
  funext n
  unfold World.claimed
  split_ifs with hdot
  · rw [get_put, if_neg]
    rintro ⟨rfl, rfl⟩
    exact h.elim (fun hne => hne rfl) fun hname => nomatch hname.symm.trans hdot
  · rfl

theorem claimed_erase (w : World) (h : p ≠ .inbox ∨ name.isDot = false) :
    (w.erase p name).claimed = w.claimed := by
  funext n
  unfold World.claimed
  split_ifs with hdot
  · rw [get_erase, if_neg]
    rintro ⟨rfl, rfl⟩
    exact h.elim (fun hne => hne rfl) fun hname => nomatch hname.symm.trans hdot
  · rfl

/-- What is delivered is under a final name. -/
theorem get_deliveries (ds : List Delivery) (hname : name.isDot = true) :
    ∀ inbox : Dir, (ds.foldl (fun inbox d => d.deliver inbox) inbox).get name = inbox.get name := by
  induction ds with
  | nil => exact fun _ => rfl
  | cons d ds ih =>
      intro inbox
      have hne : name ≠ d.name := by
        rintro rfl
        exact nomatch hname.symm.trans d.final
      rw [List.foldl_cons, ih, Delivery.deliver]
      split
      · exact inbox.get_put_of_ne hne _
      · exact inbox.get_erase_of_ne hne

theorem claimed_next (w : World) : (w.next env).claimed = w.claimed := by
  funext n
  unfold World.claimed
  split_ifs with hdot
  · unfold World.next World.deliver World.get
    dsimp only
    rw [Function.update_self, get_deliveries _ hdot]
  · rfl

theorem refused_put (w : World) (h : p ≠ .rejected) (data : Bytes) :
    (w.put p name data).refused = w.refused := by
  funext n
  unfold World.refused
  rw [get_put, if_neg]
  exact fun hboth => h hboth.1.symm

theorem refused_erase (w : World) (h : p ≠ .rejected) : (w.erase p name).refused = w.refused := by
  funext n
  unfold World.refused
  rw [get_erase, if_neg]
  exact fun hboth => h hboth.1.symm

theorem refused_next (w : World) : (w.next env).refused = w.refused :=
  funext fun _ => get_next env w (p := .rejected) nofun _

/-- A program that leaves the claims alone, and what was rejected. -/
abbrev Unclaiming {α : Type} (m : M α) : Prop :=
  ∀ c, Keeps (fun w : World => (w.claimed, w.refused) = c) m

/-- Claims and what was rejected do not depend on the copies and what is beside them. -/
theorem sparing_claims (c : (Str → Option Bytes) × (Str → Option Bytes)) :
    Sparing env (fun p _ => p = .witnessed) fun w => (w.claimed, w.refused) = c where
  next w hw := (congrArg₂ Prod.mk (claimed_next env w) (refused_next env w)).trans hw
  put w p name data hp hw := by
    subst hp
    exact (congrArg₂ Prod.mk (claimed_put w (.inl witnessed_ne) data)
        (refused_put w (p := .witnessed) nofun data)).trans hw
  erase w p name hp hw := by
    subst hp
    exact (congrArg₂ Prod.mk (claimed_erase w (.inl witnessed_ne))
        (refused_erase w (p := .witnessed) nofun)).trans hw
  store _ _ hw := hw

theorem Unclaiming.writeAtomic (name : Str) (data : Bytes) :
    Unclaiming (Selfstamp.writeAtomic env .witnessed name data) :=
  fun c => (sparing_claims env c).writeAtomic (fun _ _ => rfl) rfl data

theorem Unclaiming.keepForeignProof (copy : Str) (data digest : Bytes) :
    Unclaiming (Selfstamp.keepForeignProof env copy data digest) :=
  fun c => (sparing_claims env c).keepForeignProof (fun _ _ => rfl) copy data digest

end Claimed

/-! ## Calls -/

namespace Desk

/-- A claim that is gone. -/
def unclaim (s : Desk) (path : Str) : Desk :=
  { s with claim := fun n => if n = path then none else s.claim n }

/-- A claim that was moved to `rejected`. -/
def reject (s : Desk) (path name : Str) (data : Bytes) : Desk :=
  { s.unclaim path with
    shelf := s.shelf.arrive .rejected (rejectedName data name) data
    refused := fun n => if n = rejectedName data name then some data else s.refused n }

@[simp] theorem unclaim_shelf (s : Desk) (path : Str) : (s.unclaim path).shelf = s.shelf := rfl

@[simp] theorem reject_claim (s : Desk) (path name : Str) (data : Bytes) :
    (s.reject path name data).claim = (s.unclaim path).claim := rfl

@[simp] theorem unclaim_self (s : Desk) (path : Str) : (s.unclaim path).claim path = none :=
  if_pos rfl

theorem unclaim_of_ne (s : Desk) {path path' : Str} (h : path' ≠ path) :
    (s.unclaim path).claim path' = s.claim path' :=
  if_neg h

end Desk

section Calls

variable (env : Env) {α : Type} {s : Desk} {path name : Str} {E : Fault → Desk → Prop}

/-- A program that leaves the claims alone does to the shelf what it does. -/
theorem desk_onShelf {m : M α} {Q : α → Desk → Prop} (hclaim : Unclaiming m) (h : Sees World.shelf m
      (fun a t => Q a { s with shelf := t }) (fun e t => E e { s with shelf := t }) s.shelf) :
    Sees World.desk m Q E s := by
  refine ⟨?_⟩
  rintro w rfl
  have hshelf := h.out w rfl
  have hkeeps := hclaim _ w rfl
  revert hshelf hkeeps
  simp only [Prog.wp]
  have hdesk : ∀ t : World, (t.claimed, t.refused) = (w.claimed, w.refused) →
      ({ w.desk with shelf := t.shelf } : Desk) = t.desk := by
    intro t ht
    obtain ⟨hclaimed, hrefused⟩ := Prod.mk.inj ht
    rw [World.desk, World.desk, hclaimed, hrefused]
  rcases m w with ⟨_ | _, t⟩
  · intro hq ht
    have heq := hdesk t ht
    dsimp only at hq ht ⊢
    rwa [heq] at hq
  · intro hq ht
    have heq := hdesk t ht
    dsimp only at hq ht ⊢
    rwa [heq] at hq

theorem desk_fileCall {Q : Unit → Desk → Prop} (hok : Q () s) (herr : ∀ e, E e s) :
    Sees World.desk (fileCall env) Q E s :=
  desk_onShelf (fun c => (sparing_claims env c).fileCall) (Sees.fileCall env hok herr)

theorem desk_fsyncDir {Q : Unit → Desk → Prop} (hok : Q () s) (herr : ∀ e, E e s) :
    Sees World.desk (fsyncDir env) Q E s :=
  desk_onShelf (fun c => (sparing_claims env c).fsyncDir) (Sees.fsyncDir env hok herr)

theorem desk_mkdirDurable {Q : Unit → Desk → Prop} (hok : Q () s) (herr : ∀ e, E e s) :
    Sees World.desk (mkdirDurable env) Q E s :=
  .bind (desk_fileCall env (.bind (desk_fileCall env (desk_fsyncDir env hok herr) herr)) herr)

theorem desk_attempt {m : M α} {catches : Fault → Bool} {Q : Option α → Desk → Prop} (h : Sees
      World.desk m (fun a => Q (some a)) (fun e t => if catches e then Q none t else E e t) s) :
    Sees World.desk (attempt catches m) Q E s := by
  refine .handle (.bind (h.mono (fun a t ht => .pure ht) fun e t ht => ?_))
  split_ifs at ht with hc
  · rw [if_pos hc]
    exact .pure ht
  · rwa [if_neg hc]

theorem desk_claimExists {Q : Bool → Desk → Prop} (hname : name.isDot = true)
    (hok : Q (s.claim name).isSome s) (herr : ∀ e, E e s) :
    Sees World.desk (pathExists env .inbox name) Q E s :=
  .bind (desk_fileCall env (.gets (g := fun t : Desk => (t.claim name).isSome)
    (fun w => congrArg Option.isSome (claimed_of_dot w hname).symm) hok) herr)

theorem desk_readClaim {Q : Bytes → Desk → Prop} (hname : name.isDot = true)
    (hok : ∀ data, s.claim name = some data → Q data s) (herr : ∀ e, E e s) :
    Sees World.desk (readBytes env .inbox name) Q E s := by
  refine .bind (desk_fileCall env (.bind (.gets (g := fun t : Desk => t.claim name)
    (fun w => (claimed_of_dot w hname).symm) ?_)) herr)
  split
  next data h => exact .pure (hok data h)
  next => exact .raise (herr _)

theorem desk_erase (w : World) (hname : name.isDot = true) :
    (w.erase .inbox name).desk = w.desk.unclaim name := by
  refine Desk.ext (shelf_erase_dot w .inbox hname) (funext fun n => ?_)
    (refused_erase w (p := .inbox) nofun)
  · change World.claimed _ n = if n = name then none else w.claimed n
    unfold World.claimed
    by_cases hn : n = name
    · rw [if_pos hn, hn, if_pos hname, get_erase, if_pos ⟨rfl, rfl⟩]
    · rw [if_neg hn, get_erase, if_neg (fun h => hn h.2 : ¬(Place.inbox = .inbox ∧ n = name))]

theorem desk_removeFile {Q : Unit → Desk → Prop} (hname : name.isDot = true)
    (hok : Q () (s.unclaim name)) (herr : ∀ e, E e s) :
    Sees World.desk (removeFile env .inbox name) Q E s :=
  .bind (desk_fileCall env
      (.modify (g := fun t : Desk => t.unclaim name) (fun w => desk_erase w hname) hok) herr)

theorem isDot_rejectedName (data : Bytes) (name : Str) :
    (rejectedName data name).isDot = false := by
  have hlength := hexPrefix_length data
  have hhex := hexPrefix_hex data
  rw [rejectedName]
  cases hhead : hexPrefix data with
  | nil =>
      rw [hhead] at hlength
      exact nomatch hlength
  | cons c cs =>
      have hc := hhex c (hhead ▸ List.mem_cons_self ..)
      rw [List.cons_append, Str.isDot, List.head?_cons, beq_eq_false_iff_ne]
      intro hdot
      obtain rfl := Option.some.inj hdot
      omega

theorem rejected_ne : Place.rejected ≠ .inbox := nofun

theorem desk_reject (w : World) (hpath : path.isDot = true) (data : Bytes) :
    ((w.erase .inbox path).put .rejected (rejectedName data name) data).desk =
      w.desk.reject path name data := by
  refine Desk.ext ?_ ?_ (funext fun n => ?_)
  · change World.shelf _ = w.shelf.arrive .rejected (rejectedName data name) data
    rw [shelf_put _ rejected_ne (isDot_rejectedName data name), shelf_erase_dot w .inbox hpath]
  · change World.claimed _ = (w.desk.unclaim path).claim
    rw [claimed_put _ (.inl rejected_ne)]
    exact congrArg Desk.claim (desk_erase w hpath)
  · change World.get _ .rejected n = if n = rejectedName data name then some data else
      w.get .rejected n
    rw [get_put, get_erase]
    simp only [true_and, reduceCtorEq, false_and, if_false]

/-- A claim is moved to `rejected` with its bytes, or stays. -/
theorem desk_quarantine {data : Bytes} {kind : Kind} {reason : String}
    {Q : Rejected → Desk → Prop} (hpath : path.isDot = true) (hdata : s.claim path = some data)
    (hok : Q ⟨path, kind, name, data, reason⟩ (s.reject path name data)) (hbefore : ∀ e, E e s)
    (hafter : ∀ e, E e (s.reject path name data)) :
    Sees World.desk (quarantine env path name data kind reason) Q E s := by
  refine .bind (desk_mkdirDurable env
      (.bind (.bind (.bind (desk_readClaim env hpath (fun _ _ => ?_) hbefore)))) hbefore)
  refine desk_fileCall env
    (.bind (.bind (desk_fileCall env (.bind (.gets (g := fun t : Desk => t.claim path)
        (fun w => (claimed_of_dot w hpath).symm) ?_)) hbefore))) hbefore
  rw [hdata]
  refine .modify (g := fun t : Desk => t.reject path name data)
    (fun w => desk_reject w hpath data) ?_
  refine .bind (desk_fsyncDir env (.ite (fun _ => ?_) fun h => absurd nofun h) hafter)
  exact desk_fsyncDir env (.pure hok) hafter

end Calls

end OtsServer.Selfstamp
