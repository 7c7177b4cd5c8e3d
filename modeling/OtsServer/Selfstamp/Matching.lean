import OtsServer.Selfstamp.Desk
import OtsServer.Selfstamp.Faults

/-!
# Claims and companions

The claims of a kind that an inbox holds, in their order, and which of the claimed proofs each
claimed manifest takes for its companion when they are taken one after the other.
-/

namespace OtsServer.Selfstamp

open Prog (Sees)

/-! ## Listing -/

/-- The claims with a suffix, in their order. -/
structure Lists (s : Desk) (suffix : Str) (found : List Claim) : Prop where
  sorted : found.Pairwise fun c d => c.key < d.key
  mem_iff : ∀ c, c ∈ found ↔ isClaim suffix c.path = true ∧ deliveredName c.path = some c.name ∧
    (s.claim c.path).isSome
  named : ∀ path, isClaim suffix path = true → (s.claim path).isSome → (deliveredName path).isSome

section Lists

variable {s t : Desk} {suffix path : Str} {found found' : List Claim} {names : List Str}

theorem Claim.key_injective : Function.Injective Claim.key := by
  intro c d h
  obtain ⟨hname, hpath⟩ := Prod.mk.inj (toLex_inj.mp h)
  exact Claim.ext hpath hname

theorem isDot_of_isClaim (h : isClaim suffix path = true) : path.isDot = true := by
  rw [isClaim, Bool.and_eq_true] at h
  obtain ⟨rest, rfl⟩ := List.isPrefixOf_iff_prefix.mp h.1
  rfl

theorem Lists.dot (h : Lists s suffix found) {c : Claim} (hc : c ∈ found) : c.path.isDot = true :=
  isDot_of_isClaim ((h.mem_iff c).mp hc).1

theorem Lists.unique (h : Lists s suffix found) (h' : Lists s suffix found') : found = found' := by
  have hnodup : ∀ {l : List Claim}, (l.Pairwise fun c d => c.key < d.key) → l.Nodup := fun hl =>
    hl.imp fun hlt heq => (heq ▸ hlt).false
  have hperm : found.Perm found' := by
    refine (List.perm_ext_iff_of_nodup (hnodup h.sorted) (hnodup h'.sorted)).mpr fun c => ?_
    rw [h.mem_iff, h'.mem_iff]
  exact hperm.eq_of_pairwise (fun c d _ _ hcd hdc => (hcd.asymm hdc).elim) h.sorted h'.sorted

/-- What a listing depends on. -/
theorem Lists.congr (h : Lists s suffix found)
    (hsame : ∀ path, isClaim suffix path = true → (t.claim path).isSome = (s.claim path).isSome) :
    Lists t suffix found where
  sorted := h.sorted
  mem_iff c := by
    rw [h.mem_iff]
    refine and_congr_right fun hclaim => ?_
    rw [hsame _ hclaim]
  named path hclaim hsome := h.named path hclaim (hsame path hclaim ▸ hsome)

theorem Lists.unclaim (h : Lists s suffix found) {c : Claim} (hc : c ∈ found) :
    Lists (s.unclaim c.path) suffix (found.erase c) where
  sorted := h.sorted.sublist List.erase_sublist
  mem_iff d := by
    have hnodup : found.Nodup := h.sorted.imp fun hlt heq => (heq ▸ hlt).false
    rw [hnodup.mem_erase_iff, h.mem_iff]
    by_cases hpath : d.path = c.path
    · refine iff_of_false ?_ ?_
      · rintro ⟨hne, -, hname, -⟩
        have hcname := ((h.mem_iff c).mp hc).2.1
        rw [hpath, hcname] at hname
        exact hne (Claim.ext hpath (Option.some.inj hname).symm)
      · rintro ⟨-, -, hsome⟩
        rw [hpath, Desk.unclaim_self] at hsome
        exact nomatch hsome
    · rw [s.unclaim_of_ne hpath]
      exact and_iff_right fun heq => hpath (heq ▸ rfl)
  named path hclaim hsome := by
    refine h.named path hclaim ?_
    by_cases hpath : path = c.path
    · exact hpath ▸ ((h.mem_iff c).mp hc).2.2
    · exact s.unclaim_of_ne hpath ▸ hsome

/-- A claim of another kind is not listed. -/
theorem Lists.unclaim_other (h : Lists s suffix found) (hpath : isClaim suffix path = false) :
    Lists (s.unclaim path) suffix found := by
  refine h.congr fun path' hclaim => ?_
  rw [s.unclaim_of_ne]
  rintro rfl
  exact nomatch hpath.symm.trans hclaim

theorem mapM_claims {found : List Claim}
    (h : names.mapM (fun path => (deliveredName path).map (Claim.mk path)) = some found) :
    found.map Claim.path = names ∧ ∀ c ∈ found, deliveredName c.path = some c.name := by
  induction names generalizing found with
  | nil =>
      obtain rfl := Option.some.inj h
      exact ⟨rfl, fun _ hc => nomatch hc⟩
  | cons path names ih =>
      rw [List.mapM_cons] at h
      obtain ⟨c, hc, h⟩ := Option.bind_eq_some_iff.mp h
      obtain ⟨cs, hcs, h⟩ := Option.bind_eq_some_iff.mp h
      obtain rfl := Option.some.inj h
      obtain ⟨name, hname, rfl⟩ := Option.map_eq_some_iff.mp hc
      obtain ⟨hmap, hmem⟩ := ih hcs
      refine ⟨by rw [List.map_cons, hmap], fun d hd => ?_⟩
      obtain rfl | hd := List.mem_cons.mp hd
      · exact hname
      · exact hmem d hd

/-- What `_claims` lists of a directory are its claims. -/
theorem lists_of_claimsOf {w : World} (h : claimsOf suffix (w.files .inbox).names = some found) :
    Lists w.desk suffix found := by
  obtain ⟨cs, hcs, rfl⟩ := Option.map_eq_some_iff.mp h
  obtain ⟨hpaths, hnames⟩ := mapM_claims hcs
  have hmem : ∀ c, c ∈ cs ↔ isClaim suffix c.path = true ∧ deliveredName c.path = some c.name ∧
      (w.desk.claim c.path).isSome := by
    intro c
    have hpath : c.path ∈ cs.map Claim.path ↔ isClaim suffix c.path = true ∧
        (w.desk.claim c.path).isSome := by
      rw [hpaths, List.mem_filter, Directory.mem_names_iff, and_comm]
      refine and_congr_right fun hclaim => ?_
      change _ ↔ (w.claimed c.path).isSome
      rw [claimed_of_dot w (isDot_of_isClaim hclaim), Option.isSome_iff_exists]
      rfl
    constructor
    · intro hc
      obtain ⟨hclaim, hsome⟩ := hpath.mp (List.mem_map_of_mem hc)
      exact ⟨hclaim, hnames c hc, hsome⟩
    · rintro ⟨hclaim, hname, hsome⟩
      obtain ⟨d, hd, hdpath⟩ := List.mem_map.mp (hpath.mpr ⟨hclaim, hsome⟩)
      have hdname := hnames d hd
      rw [hdpath, hname] at hdname
      exact Claim.ext hdpath (Option.some.inj hdname).symm ▸ hd
  have hnodup : cs.Nodup := by
    refine List.Nodup.of_map Claim.path ?_
    rw [hpaths]
    exact ((w.files .inbox).names_sorted.imp fun hlt heq => (heq ▸ hlt).false).filter _
  refine ⟨?_, fun c => by rw [List.mem_insertionSort, hmem], fun path hclaim hsome => ?_⟩
  rotate_left
  · have hpath : path ∈ cs.map Claim.path := by
      rw [hpaths, List.mem_filter, Directory.mem_names_iff]
      change (w.claimed path).isSome = true at hsome
      rw [claimed_of_dot w (isDot_of_isClaim hclaim), Option.isSome_iff_exists] at hsome
      exact ⟨hsome, hclaim⟩
    obtain ⟨c, hc, rfl⟩ := List.mem_map.mp hpath
    rw [hnames c hc]
    rfl
  have htotal : Std.Total fun c d : Claim => c.key ≤ d.key := ⟨fun c d => le_total c.key d.key⟩
  have htrans : IsTrans Claim fun c d => c.key ≤ d.key := ⟨fun _ _ _ => le_trans⟩
  have hsorted := List.pairwise_insertionSort (fun c d : Claim => c.key ≤ d.key) cs
  have hnodup' : (cs.insertionSort fun c d => c.key ≤ d.key).Nodup :=
    (List.perm_insertionSort _ cs).nodup_iff.mpr hnodup
  refine (hsorted.and hnodup').imp fun {c d} hcd => lt_of_le_of_ne hcd.1 fun hkey =>
    hcd.2 (Claim.key_injective hkey)

end Lists

section Claims

variable (env : Env) {s : Desk} {suffix path name : Str} {E : Fault → Desk → Prop}

/-- Every claim of a kind has the name it was delivered under. -/
def ClaimsNamed (s : Desk) (suffix : Str) : Prop :=
  ∀ path, isClaim suffix path = true → (s.claim path).isSome → (deliveredName path).isSome

/-- The claims that cannot be listed have no names. -/
theorem not_claimsNamed {w : World} (h : claimsOf suffix (w.files .inbox).names = none) :
    ¬ClaimsNamed w.desk suffix := by
  intro hnamed
  have hsome : ∀ names : List Str, (∀ path ∈ names, (deliveredName path).isSome) →
      (names.mapM fun path => (deliveredName path).map (Claim.mk path)).isSome := by
    intro names
    induction names with
    | nil => exact fun _ => rfl
    | cons path names ih =>
        intro hall
        obtain ⟨hpath, hnames⟩ := List.forall_mem_cons.mp hall
        obtain ⟨name, hname⟩ := Option.isSome_iff_exists.mp hpath
        obtain ⟨cs, hcs⟩ := Option.isSome_iff_exists.mp (ih hnames)
        rw [List.mapM_cons, hname, hcs]
        rfl
  have hlisted := hsome ((w.files .inbox).names.filter (isClaim suffix)) fun path hpath => by
    obtain ⟨hmem, hclaim⟩ := List.mem_filter.mp hpath
    refine hnamed path hclaim (Option.isSome_iff_exists.mpr ?_)
    obtain ⟨data, hdata⟩ := Directory.mem_names_iff.mp hmem
    exact ⟨data, (claimed_of_dot w (isDot_of_isClaim hclaim)).trans hdata⟩
  rw [claimsOf, Option.map_eq_none_iff] at h
  rw [h] at hlisted
  exact nomatch hlisted

/-- A call leaves everything as it was, and one that fails is none of a pass without failing
calls. -/
theorem desk_call (s : Desk) :
    Sees World.desk (fileCall env) (fun _ t => t = s)
      (fun _ t => (¬∀ n, env.file n = .done) ∧ t = s) s :=
  (Raises.failing env).sees (desk_fileCall env rfl fun _ => rfl)

/-- The claims are listed, when no call fails and each has its name. -/
theorem desk_claims {Q : List Claim → Desk → Prop} (hok : ∀ found, Lists s suffix found → Q found s)
    (herr : ∀ e, (ClaimsNamed s suffix → Caught env e) → E e s) :
    Sees World.desk (claims env suffix) Q E s := by
  refine .bind ((desk_call env s).mono ?_ ?_)
  · rintro _ _ rfl
    refine ⟨?_⟩
    rintro w rfl
    rw [Prog.wp_bind, Prog.wp_gets]
    cases h : claimsOf suffix (w.files .inbox).names with
    | none => exact herr _ fun hnamed => absurd hnamed (not_claimsNamed h)
    | some found => exact hok found (lists_of_claimsOf h)
  · rintro e _ ⟨hfailed, rfl⟩
    exact herr e fun _ hdone => absurd hdone hfailed

/-! ## Matching -/

/-- The companion a claimed manifest finds: the proof claimed beside it, else the first of those
that were delivered under its name. -/
def companionOf (proofs : List Claim) (c : Claim) : Option Claim :=
  (proofs.find? fun p => p.path = c.path ++ Str.ots).or (proofs.find? fun p =>
      p.name = c.name ++ Str.ots)

/-- The manifests that find a companion, taken in their order, each with the one it takes. -/
def pairs : List Claim → List Claim → List (Claim × Claim)
  | [], _ => []
  | c :: cs, proofs =>
      match companionOf proofs c with
      | none => pairs cs proofs
      | some p => (c, p) :: pairs cs (proofs.erase p)

theorem companionOf_mem {proofs : List Claim} {c p : Claim} (h : companionOf proofs c = some p) :
    p ∈ proofs := by
  rw [companionOf, Option.or_eq_some_iff] at h
  exact h.elim List.mem_of_find?_eq_some fun h => List.mem_of_find?_eq_some h.2

theorem pairs_mem :
    ∀ {manifests proofs : List Claim} {c p : Claim}, (c, p) ∈ pairs manifests proofs →
    c ∈ manifests ∧ p ∈ proofs := by
  intro manifests
  induction manifests with
  | nil => exact fun h => nomatch h
  | cons c cs ih =>
      intro proofs d p h
      rw [pairs] at h
      cases hp : companionOf proofs c with
      | none =>
          rw [hp] at h
          exact ⟨List.mem_cons_of_mem _ (ih h).1, (ih h).2⟩
      | some q =>
          rw [hp] at h
          obtain heq | h := List.mem_cons.mp h
          · obtain ⟨rfl, rfl⟩ := Prod.mk.inj heq
            exact ⟨List.mem_cons_self .., companionOf_mem hp⟩
          · exact ⟨List.mem_cons_of_mem _ (ih h).1, List.mem_of_mem_erase (ih h).2⟩

/-- A proof is taken once. -/
theorem pairs_unique :
    ∀ {manifests proofs : List Claim} {c c' p : Claim}, proofs.Nodup →
      (c, p) ∈ pairs manifests proofs → (c', p) ∈ pairs manifests proofs → c = c' := by
  intro manifests
  induction manifests with
  | nil => exact fun _ h => nomatch h
  | cons d cs ih =>
      intro proofs c c' p hnodup h h'
      rw [pairs] at h h'
      cases hq : companionOf proofs d with
      | none =>
          rw [hq] at h h'
          exact ih hnodup h h'
      | some q =>
          rw [hq] at h h'
          have hleft : ∀ {c : Claim}, (c, p) ∈ (d, q) :: pairs cs (proofs.erase q) →
              c = d ∧ p = q ∨ p ≠ q ∧ (c, p) ∈ pairs cs (proofs.erase q) := fun h => by
            obtain heq | h := List.mem_cons.mp h
            · exact .inl (Prod.mk.inj heq)
            · exact .inr ⟨(hnodup.mem_erase_iff.mp (pairs_mem h).2).1, h⟩
          obtain ⟨rfl, rfl⟩ | ⟨hne, h⟩ := hleft h
          · exact (hleft h').elim (fun heq => heq.1.symm) fun hr => absurd rfl hr.1
          · exact (hleft h').elim (fun heq => absurd heq.2 hne) fun hr => ih (hnodup.erase q) h hr.2

theorem deliveredName_append {path name suffix : Str} (h : deliveredName path = some name) :
    deliveredName (path ++ suffix) = some (name ++ suffix) := by
  have happend : ∀ {text rest : Str}, afterDash text = some rest →
      afterDash (text ++ suffix) = some (rest ++ suffix) := by
    intro text
    induction text with
    | nil => exact fun h => nomatch h
    | cons c cs ih =>
        intro rest h
        rw [afterDash] at h
        rw [List.cons_append, afterDash]
        split_ifs at h ⊢
        · rw [Option.some.inj h]
        · exact ih h
  obtain ⟨rest, hrest, hname⟩ := Option.bind_eq_some_iff.mp h
  exact Option.bind_eq_some_iff.mpr ⟨rest ++ suffix, happend hrest, happend hname⟩

theorem isClaim_ots (h : isClaim Str.json path = true) :
    isClaim jsonOts (path ++ Str.ots) = true := by
  rw [isClaim, Bool.and_eq_true] at h ⊢
  obtain ⟨rest, rfl⟩ := List.isPrefixOf_iff_prefix.mp h.1
  obtain ⟨front, hfront⟩ := List.isSuffixOf_iff_suffix.mp h.2
  refine ⟨List.isPrefixOf_iff_prefix.mpr ?_, List.isSuffixOf_iff_suffix.mpr ⟨front, ?_⟩⟩
  · rw [List.append_assoc]
    exact List.prefix_append ..
  · rw [jsonOts, ← List.append_assoc, hfront]

/-- `_companion_claim` finds the companion among the claimed proofs. -/
theorem desk_companionClaim {proofs : List Claim} {c : Claim}
    (hlists : Lists s jsonOts proofs) (hclaim : isClaim Str.json c.path = true)
    (hname : deliveredName c.path = some c.name) {Q : Option Str → Desk → Prop}
    (hok : Q ((companionOf proofs c).map Claim.path) s) (herr : ∀ e, E e s) :
    Sees World.desk (companionClaim env c.path c.name) Q E s := by
  have hots := isClaim_ots hclaim
  have hmem : (s.claim (c.path ++ Str.ots)).isSome = true ↔
      (⟨c.path ++ Str.ots, c.name ++ Str.ots⟩ : Claim) ∈ proofs := by
    rw [hlists.mem_iff]
    exact ⟨fun h => ⟨hots, deliveredName_append hname, h⟩, fun h => h.2.2⟩
  refine .bind (desk_claimExists env (isDot_of_isClaim hots)
      (.ite (fun hthere => .pure ?_) fun hnone => ?_) herr)
  · cases hfind : proofs.find? fun p => p.path = c.path ++ Str.ots with
    | none =>
        have hnot := List.find?_eq_none.mp hfind _ (hmem.mp hthere)
        exact absurd (decide_eq_true rfl) hnot
    | some p =>
        have hpath := of_decide_eq_true
          (List.find?_some (p := fun p : Claim => decide (p.path = c.path ++ Str.ots)) hfind)
        rw [companionOf, hfind, Option.some_or, Option.map_some, hpath] at hok
        exact hok
  · refine .bind (desk_claims env (fun found hfound => .pure ?_) fun e _ => herr e)
    obtain rfl := hfound.unique hlists
    have hfind : (found.find? fun p => p.path = c.path ++ Str.ots) = none := by
      refine List.find?_eq_none.mpr fun p hp => ?_
      intro hpath
      obtain ⟨-, -, hsome⟩ := (hfound.mem_iff p).mp hp
      rw [of_decide_eq_true hpath] at hsome
      exact hnone hsome
    rw [companionOf, hfind, Option.none_or] at hok
    exact hok

/-- A companion was delivered under its manifest's name. -/
theorem companionOf_name {proofs : List Claim} {c p : Claim} (hlists : Lists s jsonOts proofs)
    (hname : deliveredName c.path = some c.name) (h : companionOf proofs c = some p) :
    p.name = c.name ++ Str.ots := by
  rw [companionOf, Option.or_eq_some_iff] at h
  obtain hbeside | ⟨-, hnamed⟩ := h
  · have hpath := of_decide_eq_true
      (List.find?_some (p := fun p : Claim => decide (p.path = c.path ++ Str.ots)) hbeside)
    have hpname := ((hlists.mem_iff p).mp (List.mem_of_find?_eq_some hbeside)).2.1
    rw [hpath, deliveredName_append hname] at hpname
    exact (Option.some.inj hpname).symm
  · exact of_decide_eq_true
      (List.find?_some (p := fun p : Claim => decide (p.name = c.name ++ Str.ots)) hnamed)

/-- So was each of those that the manifests take, one after the other. -/
theorem pairs_name {manifests proofs : List Claim} {c p : Claim} (hlists : Lists s jsonOts proofs)
    (hnames : ∀ c ∈ manifests, deliveredName c.path = some c.name)
    (h : (c, p) ∈ pairs manifests proofs) : p.name = c.name ++ Str.ots := by
  induction manifests generalizing s proofs with
  | nil => exact nomatch h
  | cons d ds ih =>
      obtain ⟨hd, hds⟩ := List.forall_mem_cons.mp hnames
      rw [pairs] at h
      cases hq : companionOf proofs d with
      | none =>
          rw [hq] at h
          exact ih hlists hds h
      | some q =>
          rw [hq] at h
          obtain heq | h := List.mem_cons.mp h
          · obtain ⟨rfl, rfl⟩ := Prod.mk.inj heq
            exact companionOf_name hlists hd hq
          · exact ih (hlists.unclaim (companionOf_mem hq)) hds h

end Claims

end OtsServer.Selfstamp
