import OtsServer.Selfstamp.Companions
import Mathlib.Data.List.DropRight

/-!
# Consuming the claimed manifests

What the loop over the claimed manifests does, when no call of it fails: each valid manifest has
its copy, each companion it took is kept with the copy or rejected, and no other proof is touched.
-/

namespace OtsServer.Selfstamp

open Prog (Sees)

/-! ## Names of copies -/

section CopyName

variable {m : Items} {raw : Bytes}

theorem endsWith_copyName (m : Items) (raw : Bytes) :
    Str.endsWith Str.json (copyName m raw) = true :=
  List.isSuffixOf_iff_suffix.mpr (List.suffix_append ..)

theorem isDot_append_of_ne_nil {text : Str} (hne : text ≠ []) (rest : Str) :
    Str.isDot (text ++ rest) = text.isDot := by
  cases text with
  | nil => exact absurd rfl hne
  | cons c text => rfl

/-- What is left of a text that is stripped begins with a letter that is not stripped. -/
theorem isDot_stripped (text : Str) : (stripped text).isDot = false := by
  have hstart : stripped text <+: text.dropWhile fun c => c == 0x2e || c == 0x5f || c == 0x2d :=
    List.rdropWhile_prefix _ _
  cases hname : stripped text with
  | nil => rfl
  | cons c rest =>
      rw [hname] at hstart
      obtain ⟨more, hmore⟩ := hstart
      have hhead := List.head?_dropWhile_not (fun c => c == 0x2e || c == 0x5f || c == 0x2d) text
      rw [← hmore, List.cons_append, List.head?_cons] at hhead
      rw [Str.isDot, List.head?_cons, beq_eq_false_iff_ne]
      intro hdot
      obtain rfl := Option.some.inj hdot
      cases hhead

theorem safeName_spec (text : Str) : safeName text ≠ [] ∧ (safeName text).isDot = false := by
  have htake : ∀ name : Str, name ≠ [] → name.take 64 ≠ [] ∧
      Str.isDot (name.take 64) = name.isDot := by
    intro name hne
    cases name with
    | nil => exact absurd rfl hne
    | cons c name => exact ⟨List.cons_ne_nil _ _, rfl⟩
  rw [safeName]
  by_cases hname : stripped (cleaned text) = []
  · simp only [hname, if_true]
    exact ⟨by decide, by decide⟩
  · simp only [if_neg hname]
    obtain ⟨hne, hdot⟩ := htake _ hname
    exact ⟨hne, hdot.trans (isDot_stripped _)⟩

theorem isDot_copyName (m : Items) (raw : Bytes) : (copyName m raw).isDot = false := by
  have hfirst : (label m).elim (Str.ofString "legacy") safeName ≠ [] ∧
      ((label m).elim (Str.ofString "legacy") safeName).isDot = false := by
    cases label m with
    | none => exact ⟨by decide, by decide⟩
    | some chain => exact safeName_spec chain
  rw [copyName, List.append_assoc, List.append_assoc, isDot_append_of_ne_nil hfirst.1]
  exact hfirst.2

end CopyName

/-! ## Copies held -/

/-- What is held is on file, and a copy of the digest is held for nothing else. -/
structure HeldOn (digest : Bytes) (s : Shelf) (held : Held) : Prop where
  name : ∀ d copy, held.lookup d = some copy → Str.endsWith Str.json copy = true ∧
    copy.isDot = false
  key : ∀ d copy, held.lookup d = some copy → ∃ raw, Sha256.digest raw = d
  file : ∀ d copy, held.lookup d = some copy → (s.file .witnessed copy).isSome
  copy : ∀ copy, held.lookup digest = some copy → s.Copy digest copy
  only : ∀ d copy, held.lookup d = some copy → s.Copy digest copy → d = digest

/-- The proof is answered: a copy of its digest is held with a proof that is worth at least as
much. -/
def Answered (digest : Bytes) (s : Shelf) (data : Bytes) : Prop :=
  ∃ copy raw, s.Copy digest copy ∧ Sha256.digest raw = digest ∧
    Strength.of raw data ≤ Strength.held raw (s.foreign copy)

section HeldOn

variable {digest : Bytes} {s t : Shelf} {held : Held}

theorem Answered.better {data : Bytes} (h : Answered digest s data) (hbetter : Better digest s t) :
    Answered digest t data := by
  obtain ⟨copy, raw, hcopy, hdigest, hle⟩ := h
  exact ⟨copy, raw, hbetter.copy copy hcopy, hdigest,
    hle.trans (hbetter.held copy raw hcopy hdigest)⟩

theorem HeldOn.congr (h : HeldOn digest s held) (hfile : ∀ name, Str.endsWith Str.json name = true →
      t.file .witnessed name = s.file .witnessed name) : HeldOn digest t held := by
  have hcopy : ∀ copy, t.Copy digest copy ↔ s.Copy digest copy := fun copy =>
    and_congr_right fun hjson => by rw [hfile copy hjson]
  exact
    { name := h.name
      key := h.key
      file := fun d copy hlookup => (hfile copy (h.name d copy hlookup).1) ▸ h.file d copy hlookup
      copy := fun copy hlookup => (hcopy copy).mpr (h.copy copy hlookup)
      only := fun d copy hlookup hc => h.only d copy hlookup ((hcopy copy).mp hc) }

theorem lookup_cons {d digest : Bytes} {copy name : Str}
    (h : ((digest, name) :: held).lookup d = some copy) :
    d = digest ∧ copy = name ∨ d ≠ digest ∧ held.lookup d = some copy := by
  rw [List.lookup_cons] at h
  split at h
  next heq => exact .inl ⟨eq_of_beq heq, (Option.some.inj h).symm⟩
  next hne => exact .inr ⟨ne_of_beq_false hne, h⟩

/-- A copy that is on file may be held. -/
theorem HeldOn.read {s : Shelf} (h : HeldOn digest s held)
    {name : Str} {raw : Bytes} (hjson : Str.endsWith Str.json name = true)
    (hdot : name.isDot = false) (hraw : s.file .witnessed name = some raw) :
    HeldOn digest s ((Sha256.digest raw, name) :: held) := by
  refine ⟨fun d copy hlookup => ?_, fun d copy hlookup => ?_, fun d copy hlookup => ?_,
    fun copy hlookup => ?_, fun d copy hlookup hcopy => ?_⟩
  · obtain ⟨-, rfl⟩ | ⟨-, hlookup⟩ := lookup_cons hlookup
    · exact ⟨hjson, hdot⟩
    · exact h.name d copy hlookup
  · obtain ⟨rfl, -⟩ | ⟨-, hlookup⟩ := lookup_cons hlookup
    · exact ⟨raw, rfl⟩
    · exact h.key d copy hlookup
  · obtain ⟨-, rfl⟩ | ⟨-, hlookup⟩ := lookup_cons hlookup
    · exact Option.isSome_iff_exists.mpr ⟨raw, hraw⟩
    · exact h.file d copy hlookup
  · obtain ⟨heq, rfl⟩ | ⟨-, hlookup⟩ := lookup_cons hlookup
    · exact ⟨hjson, raw, hraw, heq.symm⟩
    · exact h.copy copy hlookup
  · obtain ⟨rfl, rfl⟩ | ⟨-, hlookup⟩ := lookup_cons hlookup
    · obtain ⟨-, raw', hraw', hdigest⟩ := hcopy
      rw [Option.some.inj (hraw.symm.trans hraw'), hdigest]
    · exact h.only d copy hlookup hcopy

/-- A copy that is written, whether or not it is held from then on. -/
theorem HeldOn.overwrite (h : HeldOn digest s held) {name : Str} {raw : Bytes}
    (hjson : Str.endsWith Str.json name = true) (hagree : ∀ raw', s.file .witnessed name =
      some raw' → (Sha256.digest raw' = digest ↔ Sha256.digest raw = digest)) :
    HeldOn digest (s.store .witnessed name raw) held := by
  have hself : (s.store .witnessed name raw).file .witnessed name = some raw := Shelf.store_self ..
  have hother : ∀ n, n ≠ name → (s.store .witnessed name raw).file .witnessed n =
      s.file .witnessed n := fun n hn =>
    Shelf.store_of_ne fun hnames => hn hnames.2
  have hsame : ∀ copy, copy ≠ name →
      ((s.store .witnessed name raw).Copy digest copy ↔ s.Copy digest copy) := fun copy hn =>
    and_congr_right fun _ => by rw [hother copy hn]
  refine ⟨h.name, h.key, fun d copy hlookup => ?_, fun copy hlookup => ?_,
    fun d copy hlookup hcopy => ?_⟩
  · by_cases hname : copy = name
    · rw [hname, hself]
      rfl
    · exact (hother copy hname).symm ▸ h.file d copy hlookup
  · by_cases hname : copy = name
    · subst hname
      obtain ⟨-, raw', hraw', hdigest⟩ := h.copy copy hlookup
      exact ⟨hjson, raw, hself, (hagree raw' hraw').mp hdigest⟩
    · exact (hsame copy hname).mpr (h.copy copy hlookup)
  · by_cases hname : copy = name
    · subst hname
      obtain ⟨-, raw', hraw', hdigest⟩ := hcopy
      obtain rfl := Option.some.inj (hself.symm.trans hraw')
      obtain ⟨old, hold⟩ := Option.isSome_iff_exists.mp (h.file d copy hlookup)
      exact h.only d copy hlookup ⟨hjson, old, hold, (hagree old hold).mpr hdigest⟩
    · exact h.only d copy hlookup ((hsame copy hname).mp hcopy)

/-- A copy that is written is held from then on. -/
theorem HeldOn.store (h : HeldOn digest s held)
    {name : Str} {raw : Bytes} (hjson : Str.endsWith Str.json name = true)
    (hdot : name.isDot = false) (hagree : ∀ raw', s.file .witnessed name = some raw' →
      (Sha256.digest raw' = digest ↔ Sha256.digest raw = digest)) :
    HeldOn digest (s.store .witnessed name raw) ((Sha256.digest raw, name) :: held) :=
  (h.overwrite hjson hagree).read hjson hdot (Shelf.store_self ..)

end HeldOn

/-! ## One manifest -/

/-- A claimed file that the validator lets through. -/
def Valid (loads : Loads) (s : Desk) (c : Claim) (m : Items) (raw : Bytes) : Prop :=
  s.claim c.path = some raw ∧ parseForeignManifest loads raw = .ok m

/-- Whether a claimed file is a manifest that the proof is of. -/
def Fits (loads : Loads) (raw data : Bytes) : Prop :=
  (∃ m, parseForeignManifest loads raw = .ok m) ∧ IsProofOf raw data

/-- Files that share a name with a manifest's copy are of the digest exactly when it is. -/
structure Apart (loads : Loads) (digest : Bytes) (s : Desk) (manifests : List Claim) : Prop where
  held : ∀ c ∈ manifests, ∀ m raw raw', Valid loads s c m raw →
    s.shelf.file .witnessed (copyName m raw) = some raw' →
    (Sha256.digest raw' = digest ↔ Sha256.digest raw = digest)
  claimed : ∀ c ∈ manifests, ∀ c' ∈ manifests,
    ∀ m raw m' raw', Valid loads s c m raw → Valid loads s c' m' raw' →
    copyName m raw = copyName m' raw' → (Sha256.digest raw' = digest ↔ Sha256.digest raw = digest)

/-- What the claims are once a manifest and the companion it takes are gone. -/
def Desk.without (s : Desk) (proofs : List Claim) (c : Claim) : Str → Option Bytes :=
  match companionOf proofs c with
  | none => (s.unclaim c.path).claim
  | some q => ((s.unclaim q.path).unclaim c.path).claim

section One

variable (env : Env) (loads : Loads) {digest raw : Bytes} {s : Desk} {c : Claim} {held : Held}
  {proofs : List Claim} {m : Items}

/-- What keeping a manifest's copy does. -/
structure Copied (digest : Bytes) (m : Items) (raw : Bytes) (s : Shelf) (held held' : Held)
    (copy : Str) (t : Shelf) : Prop where
  heldOn : HeldOn digest t held'
  better : Better digest s t
  lookup : held'.lookup (Sha256.digest raw) = some copy
  lookup_iff : (held'.lookup digest).isSome ↔ (held.lookup digest).isSome ∨
    Sha256.digest raw = digest
  files : ∀ name, t.file .witnessed name = s.file .witnessed name ∨ name = copyName m raw ∧
    t.file .witnessed name = some raw

theorem desk_keepCopy (hheld : HeldOn digest s.shelf held)
    (hagree : ∀ raw', s.shelf.file .witnessed (copyName m raw) = some raw' →
      (Sha256.digest raw' = digest ↔ Sha256.digest raw = digest))
    {Q : Held × Str → Desk → Prop} {E : Fault → Desk → Prop}
    (hok : ∀ held' copy shelf, Copied digest m raw s.shelf held held' copy shelf →
      Q (held', copy) { s with shelf := shelf }) (hbefore : ∀ e, E e s)
    (hstored : ∀ e, E e { s with shelf := s.shelf.store .witnessed (copyName m raw) raw }) :
    Sees World.desk (keepCopy env m raw held) Q E s := by
  have hjson := endsWith_copyName m raw
  have hdot := isDot_copyName m raw
  rw [keepCopy]
  split
  next copy hlookup =>
    obtain ⟨-, hcopydot⟩ := hheld.name _ _ hlookup
    have hcopied : Copied digest m raw s.shelf held held copy s.shelf :=
      ⟨hheld, .refl digest _, hlookup,
        (or_iff_left_of_imp fun hdigest => by rw [← hdigest, hlookup]; rfl).symm, fun _ => .inl rfl⟩
    refine .bind (desk_onShelf (fun c => (sparing_claims env c).fsyncFile _ _)
        (Sees.fsyncFile env nofun hcopydot ?_ hbefore))
    exact .bind (desk_fsyncDir env (.pure (hok held copy s.shelf hcopied)) hbefore)
  next hlookup =>
    refine .bind (desk_onShelf (.writeAtomic env _ _)
        (Sees.writeAtomic env nofun hdot ?_ hbefore hstored))
    refine .pure (hok _ _ _ ⟨hheld.store hjson hdot hagree, ?_, ?_, ?_, fun name => ?_⟩)
    · exact .store s.shelf hjson fun ⟨_, raw', hraw', hdigest⟩ => (hagree raw' hraw').mp hdigest
    · rw [List.lookup_cons_self]
    · rw [List.lookup_cons]
      split
      next heq => exact iff_of_true rfl (.inr (eq_of_beq heq).symm)
      next hne => exact (or_iff_left fun heq => ne_of_beq_false hne heq.symm).symm
    · by_cases hname : name = copyName m raw
      · exact .inr ⟨hname, by rw [hname, Shelf.store_self]⟩
      · exact .inl (Shelf.store_of_ne fun h => hname h.2)

/-- The last letters of the two kinds of claim differ. -/
theorem claim_ne {path path' : Str} (hjson : isClaim Str.json path = true)
    (hots : isClaim jsonOts path' = true) : path ≠ path' := by
  rintro rfl
  rw [isClaim, Bool.and_eq_true] at hjson hots
  obtain ⟨front, hfront⟩ := List.isSuffixOf_iff_suffix.mp hjson.2
  obtain ⟨front', hfront'⟩ := List.isSuffixOf_iff_suffix.mp hots.2
  have hlast := congrArg List.getLast? (hfront.trans hfront'.symm)
  rw [List.getLast?_append_of_ne_nil _ (by decide),
    List.getLast?_append_of_ne_nil _ (by decide)] at hlast
  exact absurd hlast (by decide)

/-- A claimed manifest. -/
structure IsManifest (c : Claim) : Prop where
  claim : isClaim Str.json c.path = true
  name : deliveredName c.path = some c.name

theorem Lists.isManifest {manifests : List Claim} (h : Lists s Str.json manifests)
    (hc : c ∈ manifests) : IsManifest c :=
  ⟨((h.mem_iff c).mp hc).1, ((h.mem_iff c).mp hc).2.1⟩

/-- What the companion's path is when none is claimed. -/
def companionPath (proofs : List Claim) (c : Claim) : Str :=
  ((companionOf proofs c).map Claim.path).getD (c.path ++ Str.ots)

theorem companionPath_cases (hlists : Lists s jsonOts proofs) (hc : IsManifest c) :
    isClaim jsonOts (companionPath proofs c) = true ∧
      (companionOf proofs c = none ∧ s.claim (companionPath proofs c) = none ∨
        ∃ q data, companionOf proofs c = some q ∧ companionPath proofs c = q.path ∧
          s.claim q.path = some data) := by
  have hots := isClaim_ots hc.claim
  rw [companionPath]
  cases h : companionOf proofs c with
  | none =>
      refine ⟨hots, .inl ⟨rfl, ?_⟩⟩
      by_contra hthere
      have hmem : (⟨c.path ++ Str.ots, c.name ++ Str.ots⟩ : Claim) ∈ proofs :=
        (hlists.mem_iff _).mpr ⟨hots, deliveredName_append hc.name,
          Option.isSome_iff_ne_none.mpr hthere⟩
      rw [companionOf, Option.or_eq_none_iff] at h
      exact absurd (decide_eq_true rfl) (List.find?_eq_none.mp h.1 _ hmem)
  | some q =>
      obtain ⟨hclaim, -, hsome⟩ := (hlists.mem_iff q).mp (companionOf_mem h)
      obtain ⟨data, hdata⟩ := Option.isSome_iff_exists.mp hsome
      exact ⟨hclaim, .inr ⟨q, data, rfl, rfl, hdata⟩⟩

/-- The claims after a file that is no manifest, and the companion it finds, were moved away. -/
theorem desk_rejectManifest {companion : Str} {reason : String} (hpath : c.path.isDot = true)
    (hraw : s.claim c.path = some raw) (hdot : companion.isDot = true) (hne : c.path ≠ companion)
    {Q : List Rejected → Desk → Prop} {E : Fault → Desk → Prop} (halone : s.claim companion = none →
      ∀ r : Rejected, r.path = c.path → Q [r] (s.reject c.path c.name raw)) (hboth : ∀ data,
      s.claim companion = some data → ∀ r r' : Rejected, r.path = companion → r'.path = c.path →
      Q [r, r'] ((s.reject companion (c.name ++ Str.ots) data).reject c.path c.name raw))
    (hbefore : ∀ e, E e s)
    (hlast : ∀ e, s.claim companion = none → E e (s.reject c.path c.name raw)) (hfirst : ∀ data e,
      s.claim companion = some data → E e (s.reject companion (c.name ++ Str.ots) data) ∧
      E e ((s.reject companion (c.name ++ Str.ots) data).reject c.path c.name raw)) :
    Sees World.desk (rejectManifest env c.path c.name companion raw reason) Q E s := by
  refine .bind (desk_claimExists env hdot (.ite (fun _ => ?_) fun hnone => ?_) hbefore)
  · refine .bind (desk_readClaim env hdot (fun data hdata => ?_) hbefore)
    refine .bind (desk_quarantine env hdot hdata ?_ hbefore fun e => (hfirst data e hdata).1)
    have hraw' : (s.reject companion (c.name ++ Str.ots) data).claim c.path = some raw :=
      (s.unclaim_of_ne hne).trans hraw
    refine .bind (desk_quarantine env hpath hraw' ?_ (fun e => (hfirst data e hdata).1) fun e =>
        (hfirst data e hdata).2)
    exact .pure (hboth data hdata _ _ rfl rfl)
  · have hnone := Option.not_isSome_iff_eq_none.mp hnone
    refine .bind (desk_quarantine env hpath hraw ?_ hbefore fun e => hlast e hnone)
    exact .pure (halone hnone _ rfl)

/-- A claimed file that is nested too deeply to be decoded. -/
def TooDeep (s : Desk) (c : Claim) : Prop :=
  ∃ raw, s.claim c.path = some raw ∧ loads raw = .error .recursionError

/-- A claimed file that is no manifest, and its name in `rejected`. -/
def Refusal (s : Desk) (c : Claim) (n : Str) : Prop :=
  ∃ raw, s.claim c.path = some raw ∧ (¬∃ m, parseForeignManifest loads raw = .ok m) ∧
    n = rejectedName raw c.name

theorem reject_refused (s : Desk) (path name : Str) (data : Bytes) (n : Str) :
    ((s.reject path name data).refused n).isSome ↔ n = rejectedName data name ∨
      (s.refused n).isSome := by
  change (if n = rejectedName data name then some data else s.refused n).isSome ↔ _
  split_ifs with h
  · exact iff_of_true rfl (.inl h)
  · exact (or_iff_right h).symm

theorem endsWith_rejectedName (data : Bytes) (name : Str) :
    Str.endsWith Str.ots (rejectedName data (name ++ Str.ots)) = true :=
  List.isSuffixOf_iff_suffix.mpr ⟨hexPrefix data ++ dash :: name,
    by rw [rejectedName, List.append_assoc, List.cons_append]⟩

theorem ne_rejectedName {n : Str} (hn : Str.endsWith Str.ots n = false) (data : Bytes)
    (name : Str) : n ≠ rejectedName data (name ++ Str.ots) := by
  rintro rfl
  exact nomatch hn.symm.trans (endsWith_rejectedName data name)

/-- What the pass does with a manifest and the companion it takes, when no call of it fails. -/
structure Consumed (digest : Bytes) (proofs : List Claim) (c : Claim) (s : Desk)
    (held held' : Held) (rejected : List Rejected) (t : Desk) : Prop where
  decodes : ¬TooDeep loads s c
  claim : t.claim = s.without proofs c
  heldOn : HeldOn digest t.shelf held'
  better : Better digest s.shelf t.shelf
  lookup_iff : (held'.lookup digest).isSome ↔
    (held.lookup digest).isSome ∨ ∃ m raw, Valid loads s c m raw ∧ Sha256.digest raw = digest
  refused_iff : ∀ n, Str.endsWith Str.ots n = false →
    ((t.refused n).isSome ↔ (s.refused n).isSome ∨ Refusal loads s c n)
  files : ∀ name, Str.endsWith Str.json name = true →
    t.shelf.file .witnessed name = s.shelf.file .witnessed name ∨
    ∃ m raw, Valid loads s c m raw ∧ name = copyName m raw ∧ t.shelf.file .witnessed name = some raw
  answered : ∀ q raw data, companionOf proofs c = some q → s.claim c.path = some raw →
    s.claim q.path = some data → Fits loads raw data → Sha256.digest raw = digest →
    Answered digest t.shelf data
  refused : ∀ q raw data, companionOf proofs c = some q → s.claim c.path = some raw →
    s.claim q.path = some data → ¬Fits loads raw data → ∃ r ∈ rejected, r.path = q.path
  rejects : ∀ r ∈ rejected, r.path = c.path ∨ ∃ q raw data, companionOf proofs c = some q ∧
    r.path = q.path ∧ s.claim c.path = some raw ∧ s.claim q.path = some data ∧ ¬Fits loads raw data

/-- A file that is no manifest goes to `rejected`, with the companion it takes. -/
theorem gives_invalid (hlists : Lists s jsonOts proofs) (hc : IsManifest c)
    (hheld : HeldOn digest s.shelf held) (hraw : s.claim c.path = some raw)
    (hnot : ¬∃ m, parseForeignManifest loads raw = .ok m) (hdecodes : ¬TooDeep loads s c)
    (reason : String) :
    Gives (rejectManifest env c.path c.name (companionPath proofs c) raw reason)
      (Consumed loads digest proofs c s held held) s := by
  obtain ⟨hots, hcompanion⟩ := companionPath_cases hlists hc
  have hunfit : ∀ data, ¬Fits loads raw data := fun _ h => hnot h.1
  have hvalid : ∀ m raw', ¬Valid loads s c m raw' := fun m raw' h =>
    hnot ⟨m, Option.some.inj (h.1.symm.trans hraw) ▸ h.2⟩
  have hreject : ∀ (u : Desk) (path name : Str) (data : Bytes) n,
      (u.reject path name data).shelf.file .witnessed n = u.shelf.file .witnessed n :=
    fun u path name data n => arrive_file u.shelf (p := .rejected) nofun _ n data
  have hrefusal : ∀ n, Refusal loads s c n ↔ n = rejectedName raw c.name := fun n => by
    refine ⟨?_, fun hn => ⟨raw, hraw, hnot, hn⟩⟩
    rintro ⟨raw', hraw', -, rfl⟩
    rw [Option.some.inj (hraw'.symm.trans hraw)]
  refine desk_rejectManifest env (isDot_of_isClaim hc.claim) hraw (isDot_of_isClaim hots)
    (claim_ne hc.claim hots) (fun hnone r hr => ?_) (fun data hdata r r' hr hr' => ?_)
    (fun _ => trivial) (fun _ _ => trivial) fun _ _ _ => ⟨trivial, trivial⟩
  · obtain ⟨hcomp, -⟩ | ⟨q, data, -, hpath, hdata⟩ := hcompanion
    · have hfile := hreject s c.path c.name raw
      exact
        { decodes := hdecodes
          claim := by rw [Desk.without, hcomp, Desk.reject_claim]
          heldOn := hheld.congr fun n _ => hfile n
          better := .of_file hfile
          lookup_iff := (or_iff_left fun ⟨m, raw', h, _⟩ => hvalid m raw' h).symm
          refused_iff := fun n _ => by rw [reject_refused, hrefusal, or_comm]
          files := fun n _ => .inl (hfile n)
          answered := fun q _ _ hq => nomatch hcomp.symm.trans hq
          refused := fun q _ _ hq => nomatch hcomp.symm.trans hq
          rejects := fun r₁ hr₁ => .inl (List.mem_singleton.mp hr₁ ▸ hr) }
    · rw [hpath, hdata] at hnone
      exact nomatch hnone
  · obtain ⟨-, hnone⟩ | ⟨q, data', hcomp, hpath, hdata'⟩ := hcompanion
    · exact nomatch hnone.symm.trans hdata
    · rw [hpath] at hdata hr ⊢
      have hfile : ∀ n, ((s.reject q.path (c.name ++ Str.ots) data).reject
            c.path c.name raw).shelf.file .witnessed n =
          s.shelf.file .witnessed n := fun n => (hreject _ _ _ _ n).trans (hreject _ _ _ _ n)
      exact
        { decodes := hdecodes
          claim := by
            rw [Desk.without, hcomp]
            rfl
          heldOn := hheld.congr fun n _ => hfile n
          better := .of_file hfile
          lookup_iff := (or_iff_left fun ⟨m, raw', h, _⟩ => hvalid m raw' h).symm
          refused_iff := fun n hn => by
            rw [reject_refused, reject_refused, hrefusal,
              or_iff_right (ne_rejectedName hn data c.name), or_comm]
          files := fun n _ => .inl (hfile n)
          answered := fun _ raw' _ _ hraw' _ hfits =>
            absurd (Option.some.inj (hraw'.symm.trans hraw) ▸ hfits) (hunfit _)
          refused := fun q' _ _ hq _ _ _ => ⟨r, List.mem_cons_self ..,
            hr.trans (congrArg Claim.path (Option.some.inj (hcomp.symm.trans hq)))⟩
          rejects := fun r₁ hr₁ => by
            obtain rfl | hr₁ := List.mem_cons.mp hr₁
            · exact .inr ⟨q, raw, data, hcomp, hr, hraw, hdata, hunfit data⟩
            · exact .inl (List.mem_singleton.mp hr₁ ▸ hr') }

/-- The validator raises a `RecursionError` only when the decoding does. -/
theorem parse_deep_iff :
    parseForeignManifest loads raw = .error .recursionError ↔
      loads raw = .error .recursionError := by
  rw [parseForeignManifest]
  constructor
  · intro h
    cases hraw : loads raw with
    | error e =>
        rw [hraw] at h
        exact congrArg Except.error (Except.error.inj h)
    | ok v =>
        rw [hraw] at h
        cases v with
        | obj m =>
            dsimp only at h
            repeat' split at h
            all_goals cases h
        | _ => cases h
  · intro h
    rw [h]

theorem not_tooDeep_of_valid (hvalid : Valid loads s c m raw) : ¬TooDeep loads s c := by
  rintro ⟨raw', hraw', hdeep⟩
  obtain rfl := Option.some.inj (hraw'.symm.trans hvalid.1)
  exact nomatch ((parse_deep_iff loads).mpr hdeep).symm.trans hvalid.2

/-- The rest of a manifest whose copy is in place. -/
theorem gives_valid (hlists : Lists s jsonOts proofs)
    (hc : IsManifest c) {held' : Held} {copy : Str} {shelf : Shelf}
    (hvalid : Valid loads s c m raw) (hcopied : Copied digest m raw s.shelf held held' copy shelf) :
    Gives (endManifest env (.inr ⟨c.path, c.name, companionPath proofs c, copy, Sha256.digest raw⟩))
      (Consumed loads digest proofs c s held held') { s with shelf := shelf } := by
  obtain ⟨hots, hcompanion⟩ := companionPath_cases hlists hc
  obtain ⟨hjson, hdot⟩ := hcopied.heldOn.name _ _ hcopied.lookup
  have hmine : shelf.Copy digest copy → Sha256.digest raw = digest :=
    hcopied.heldOn.only _ _ hcopied.lookup
  have hlookup : (held'.lookup digest).isSome ↔
      (held.lookup digest).isSome ∨ ∃ m raw, Valid loads s c m raw ∧
          Sha256.digest raw = digest := by
    rw [hcopied.lookup_iff]
    refine or_congr_right ⟨fun hdigest => ⟨m, raw, hvalid, hdigest⟩, ?_⟩
    rintro ⟨m', raw', hvalid', hdigest⟩
    rwa [Option.some.inj (hvalid.1.symm.trans hvalid'.1)]
  have hrefusal : ∀ n, ¬Refusal loads s c n := fun n ⟨raw', hraw', hnot, _⟩ =>
    hnot ⟨m, Option.some.inj (hraw'.symm.trans hvalid.1) ▸ hvalid.2⟩
  have hfiles : ∀ name, shelf.file .witnessed name = s.shelf.file .witnessed name ∨
      ∃ m raw, Valid loads s c m raw ∧ name = copyName m raw ∧
          shelf.file .witnessed name = some raw := fun name =>
    (hcopied.files name).imp_right fun h => ⟨m, raw, hvalid, h⟩
  have hdecodes : ¬TooDeep loads s c := not_tooDeep_of_valid loads hvalid
  refine .bind (desk_consumeCompanion env hjson hdot (isDot_of_isClaim hots) (fun hnone => ?_)
      (fun data shelf' hdata hproof hkept => ?_) (fun data reason hdata hproof => ?_)
      (fun _ => trivial) (fun _ _ _ _ _ _ => trivial) fun _ _ _ _ => trivial)
  · refine .bind (desk_removeFile env (isDot_of_isClaim hc.claim) (.pure ?_) fun _ => trivial)
    obtain ⟨hcomp, -⟩ | ⟨q, data, -, hpath, hdata⟩ := hcompanion
    · exact
        { decodes := hdecodes
          claim := by
            rw [Desk.without, hcomp]
            rfl
          heldOn := hcopied.heldOn
          better := hcopied.better
          lookup_iff := hlookup
          refused_iff := fun n _ => (or_iff_left (hrefusal n)).symm
          files := fun name _ => hfiles name
          answered := fun q _ _ hq => nomatch hcomp.symm.trans hq
          refused := fun q _ _ hq => nomatch hcomp.symm.trans hq
          rejects := fun _ hr => nomatch hr }
    · rw [hpath] at hnone
      exact nomatch hnone.symm.trans hdata
  · refine .bind (desk_removeFile env (isDot_of_isClaim hc.claim) (.pure ?_) fun _ => trivial)
    obtain ⟨-, hnone⟩ | ⟨q, data', hcomp, hpath, hdata'⟩ := hcompanion
    · exact nomatch hnone.symm.trans hdata
    · rw [hpath] at hdata ⊢
      have hbetter := hkept.delivered.better hmine
      exact
        { decodes := hdecodes
          claim := by
            rw [Desk.without, hcomp]
            rfl
          heldOn := hcopied.heldOn.congr fun name hname => hkept.delivered.copies hname
          better := hcopied.better.trans hbetter
          lookup_iff := hlookup
          refused_iff := fun n _ => (or_iff_left (hrefusal n)).symm
          files := fun name hname => hkept.delivered.copies (p := .witnessed) hname ▸ hfiles name
          answered := fun q' raw' data₁ hq hraw' hdata₁ _ hdigest => by
            obtain rfl := Option.some.inj (hcomp.symm.trans hq)
            obtain rfl := Option.some.inj (hraw'.symm.trans hvalid.1)
            obtain rfl := Option.some.inj (hdata.symm.trans hdata₁)
            refine ⟨copy, raw',
              hbetter.copy copy (hcopied.heldOn.copy copy (hdigest ▸ hcopied.lookup)), hdigest, ?_⟩
            exact hkept.strength ▸ le_max_right ..
          refused := fun q' raw' data₁ hq hraw' hdata₁ hunfit => by
            obtain rfl := Option.some.inj (hcomp.symm.trans hq)
            obtain rfl := Option.some.inj (hraw'.symm.trans hvalid.1)
            obtain rfl := Option.some.inj (hdata.symm.trans hdata₁)
            exact absurd ⟨⟨m, hvalid.2⟩, hproof⟩ hunfit
          rejects := fun _ hr => nomatch hr }
  · refine .bind (desk_removeFile env (isDot_of_isClaim hc.claim) (.pure ?_) fun _ => trivial)
    obtain ⟨-, hnone⟩ | ⟨q, data', hcomp, hpath, hdata'⟩ := hcompanion
    · exact nomatch hnone.symm.trans hdata
    · rw [hpath] at hdata ⊢
      have hfile := fun n =>
        arrive_file shelf (p := .rejected) nofun (rejectedName data (c.name ++ Str.ots)) n data
      have hunfit : ¬Fits loads raw data := fun h => hproof h.2
      exact
        { decodes := hdecodes
          claim := by
            rw [Desk.without, hcomp]
            rfl
          heldOn := hcopied.heldOn.congr fun n _ => hfile n
          better := hcopied.better.trans (.of_file hfile)
          lookup_iff := hlookup
          refused_iff := fun n hn => by
            rw [or_iff_left (hrefusal n)]
            exact (reject_refused _ q.path _ _ _).trans
              (or_iff_right (ne_rejectedName hn data c.name))
          files := fun n _ => hfile n ▸ hfiles n
          answered := fun q' raw' data₁ hq hraw' hdata₁ hfits _ => by
            obtain rfl := Option.some.inj (hcomp.symm.trans hq)
            obtain rfl := Option.some.inj (hraw'.symm.trans hvalid.1)
            obtain rfl := Option.some.inj (hdata.symm.trans hdata₁)
            exact absurd hfits hunfit
          refused := fun q' _ _ hq _ _ _ =>
            ⟨_, List.mem_singleton_self _,
              congrArg Claim.path (Option.some.inj (hcomp.symm.trans hq))⟩
          rejects := fun _ hr =>
            .inr ⟨q, raw, data, hcomp, List.mem_singleton.mp hr ▸ rfl, hvalid.1, hdata, hunfit⟩ }

theorem gives_consumeManifest (hlists : Lists s jsonOts proofs) (hc : IsManifest c)
    (hheld : HeldOn digest s.shelf held) (hagree : ∀ m raw raw', Valid loads s c m raw →
      s.shelf.file .witnessed (copyName m raw) = some raw' →
      (Sha256.digest raw' = digest ↔ Sha256.digest raw = digest)) :
    Gives (consumeManifest env loads c held) (fun r t => r.2.failures = 0 →
        Consumed loads digest proofs c s held r.1 r.2.rejected t) s := by
  have hstart : Gives (startManifest env loads c held)
      (fun r t => Gives (endManifest env r.2) (Consumed loads digest proofs c s held r.1) t) s := by
    refine .bind (desk_readClaim env (isDot_of_isClaim hc.claim)
        (fun raw hraw => ?_) fun _ => trivial)
    refine .bind (desk_companionClaim env hlists hc.claim hc.name ?_ fun _ => trivial)
    split
    next => exact .raise trivial
    next reason hparse =>
      have hnot : ¬∃ m, parseForeignManifest loads raw = .ok m :=
        fun ⟨m, hm⟩ => nomatch hparse.symm.trans hm
      have hdecodes : ¬TooDeep loads s c := fun ⟨raw', hraw', hdeep⟩ => by
        obtain rfl := Option.some.inj (hraw'.symm.trans hraw)
        exact nomatch ((parse_deep_iff loads).mpr hdeep).symm.trans hparse
      refine .bind ((gives_invalid env loads hlists hc hheld hraw hnot hdecodes reason).mono
          (fun rejected t ht => ?_) fun _ _ _ => trivial)
      exact .pure (.pure ht)
    next m hparse =>
      refine .bind (desk_keepCopy env hheld (hagree m raw · ⟨hraw, hparse⟩)
          (fun held' copy shelf hcopied => ?_) (fun _ => trivial) fun _ => trivial)
      exact .pure (gives_valid env loads hlists hc ⟨hraw, hparse⟩ hcopied)
  have hfailed : ∀ (held' : Held) (t : Desk), (Report.ofItem none).failures = 0 →
      Consumed loads digest proofs c s held held' (Report.ofItem none).rejected t :=
        fun _ _ h => nomatch h
  refine .bind (desk_attempt (hstart.mono (fun r t ht => ?_) fun e t _ => ?_))
  · refine .bind (desk_attempt (ht.mono (fun rejected u hu => .pure fun _ => hu) fun e u _ => ?_))
    split_ifs
    exact .pure (hfailed _ u)
  · split_ifs
    exact .pure (hfailed _ t)

end One

/-! ## All of them -/

section All

variable (env : Env) (loads : Loads) {digest : Bytes} {s t : Desk} {c : Claim} {held : Held}
  {manifests proofs : List Claim} {suffix : Str}

theorem Lists.eq_of_path (h : Lists s suffix manifests) {d : Claim} (hc : c ∈ manifests)
    (hd : d ∈ manifests) (hpath : c.path = d.path) : c = d := by
  have hname := ((h.mem_iff c).mp hc).2.1
  rw [hpath, ((h.mem_iff d).mp hd).2.1] at hname
  exact Claim.ext hpath (Option.some.inj hname).symm

/-- The proofs that a manifest leaves to the next ones. -/
def leaves (proofs : List Claim) (c : Claim) : List Claim :=
  (companionOf proofs c).elim proofs proofs.erase

theorem mem_pairs_cons {cs : List Claim} {d q : Claim} :
    (d, q) ∈ pairs (c :: cs) proofs ↔ d = c ∧ companionOf proofs c = some q ∨
      (d, q) ∈ pairs cs (leaves proofs c) := by
  rw [pairs, leaves]
  cases h : companionOf proofs c with
  | none => exact ⟨.inr, fun hor => hor.resolve_left fun h => Option.some_ne_none q h.2.symm⟩
  | some p =>
      change (d, q) ∈ (c, p) :: pairs cs (proofs.erase p) ↔ _
      rw [List.mem_cons, Prod.mk.injEq, Option.some.injEq, eq_comm (a := q)]
      rfl

theorem without_of_ne {path : Str} (hpath : path ≠ c.path)
    (hcomp : ∀ q, companionOf proofs c = some q → path ≠ q.path) :
    s.without proofs c path = s.claim path := by
  rw [Desk.without]
  cases h : companionOf proofs c with
  | none => exact s.unclaim_of_ne hpath
  | some q => exact (Desk.unclaim_of_ne _ hpath).trans (s.unclaim_of_ne (hcomp q h))

theorem without_self (s : Desk) (proofs : List Claim) (c : Claim) :
    s.without proofs c c.path = none := by
  rw [Desk.without]
  cases companionOf proofs c <;> exact Desk.unclaim_self _ _

theorem without_companion {q : Claim} (h : companionOf proofs c = some q) :
    s.without proofs c q.path = none := by
  rw [Desk.without, h]
  change (if _ then _ else _) = _
  split_ifs
  · rfl
  · exact s.unclaim_self q.path

theorem Lists.without {cs : List Claim} (h : Lists s Str.json (c :: cs))
    (hlists : Lists s jsonOts proofs) (hclaim : t.claim = s.without proofs c) :
    Lists t Str.json cs ∧ Lists t jsonOts (leaves proofs c) := by
  have hmem : c ∈ c :: cs := List.mem_cons_self ..
  have hc := h.isManifest hmem
  have hnots : isClaim jsonOts c.path = false := by
    by_contra hots
    exact claim_ne hc.claim (Bool.not_eq_false _ ▸ hots) rfl
  have hcongr : ∀ {u : Desk} {suffix : Str} {found : List Claim}, u.claim = t.claim →
      Lists u suffix found → Lists t suffix found :=
    fun heq hu => hu.congr fun path _ => by rw [heq]
  have herase : (c :: cs).erase c = cs := List.erase_cons_head c cs
  rw [leaves]
  rw [Desk.without] at hclaim
  cases hcomp : companionOf proofs c with
  | none =>
      rw [hcomp] at hclaim
      exact ⟨hcongr hclaim.symm (herase ▸ h.unclaim hmem),
        hcongr hclaim.symm (hlists.unclaim_other hnots)⟩
  | some q =>
      rw [hcomp] at hclaim
      have hq := companionOf_mem hcomp
      have hnjson : isClaim Str.json q.path = false := by
        by_contra hjson
        exact claim_ne (Bool.not_eq_false _ ▸ hjson) ((hlists.mem_iff q).mp hq).1 rfl
      refine ⟨hcongr hclaim.symm ?_, hcongr hclaim.symm ((hlists.unclaim hq).unclaim_other hnots)⟩
      exact herase ▸ (h.unclaim_other hnjson).unclaim hmem

/-- What the pass does with the claimed manifests, when no call of it fails. -/
structure Walked (digest : Bytes) (manifests proofs : List Claim) (s : Desk)
    (held held' : Held) (rejected : List Rejected) (t : Desk) : Prop where
  decodes : ∀ c ∈ manifests, ¬TooDeep loads s c
  heldOn : HeldOn digest t.shelf held'
  better : Better digest s.shelf t.shelf
  lookup_iff : (held'.lookup digest).isSome ↔
    (held.lookup digest).isSome ∨ ∃ c ∈ manifests, ∃ m raw, Valid loads s c m raw ∧
      Sha256.digest raw = digest
  refused_iff : ∀ n, Str.endsWith Str.ots n = false →
    ((t.refused n).isSome ↔ (s.refused n).isSome ∨ ∃ c ∈ manifests, Refusal loads s c n)
  gone : ∀ c ∈ manifests, t.claim c.path = none
  taken : ∀ c q, (c, q) ∈ pairs manifests proofs → t.claim q.path = none
  others : ∀ path, (∀ c ∈ manifests, path ≠ c.path) →
    (∀ c q, (c, q) ∈ pairs manifests proofs → path ≠ q.path) → t.claim path = s.claim path
  answered : ∀ c q raw data, (c, q) ∈ pairs manifests proofs →
    s.claim c.path = some raw → s.claim q.path = some data →
    Fits loads raw data → Sha256.digest raw = digest → Answered digest t.shelf data
  refused : ∀ c q raw data, (c, q) ∈ pairs manifests proofs → s.claim c.path = some raw →
    s.claim q.path = some data → ¬Fits loads raw data → ∃ r ∈ rejected, r.path = q.path
  rejects : ∀ r ∈ rejected, (∃ c ∈ manifests, r.path = c.path) ∨
    ∃ c q raw data, (c, q) ∈ pairs manifests proofs ∧
    r.path = q.path ∧ s.claim c.path = some raw ∧ s.claim q.path = some data ∧ ¬Fits loads raw data

/-- The claims that a step leaves are what they were. -/
theorem Consumed.same {cs : List Claim} {held' : Held} {rejected : List Rejected}
    (h : Consumed loads digest proofs c s held held' rejected t)
    (hmanifests : Lists s Str.json (c :: cs)) (hproofs : Lists s jsonOts proofs) :
    (∀ d ∈ cs, t.claim d.path = s.claim d.path) ∧ ∀ q ∈ leaves proofs c,
      t.claim q.path = s.claim q.path := by
  have hc := hmanifests.isManifest (List.mem_cons_self ..)
  have hnodup : (c :: cs).Nodup := hmanifests.sorted.imp fun hlt heq => (heq ▸ hlt).false
  refine ⟨fun d hd => ?_, fun q hq => ?_⟩
  · have hd' := hmanifests.isManifest (List.mem_cons_of_mem c hd)
    rw [h.claim]
    refine without_of_ne (fun hpath => ?_) fun q hq =>
      claim_ne hd'.claim ((hproofs.mem_iff q).mp (companionOf_mem hq)).1
    obtain rfl := hmanifests.eq_of_path (List.mem_cons_of_mem c hd) (List.mem_cons_self ..) hpath
    exact (List.nodup_cons.mp hnodup).1 hd
  · have hmem : q ∈ proofs ∧ ∀ p, companionOf proofs c = some p → q ≠ p := by
      rw [leaves] at hq
      have hproofsnodup : proofs.Nodup := hproofs.sorted.imp fun hlt heq => (heq ▸ hlt).false
      cases hcomp : companionOf proofs c with
      | none =>
          rw [hcomp] at hq
          exact ⟨hq, nofun⟩
      | some p =>
          rw [hcomp] at hq
          obtain ⟨hne, hmem⟩ := hproofsnodup.mem_erase_iff.mp hq
          exact ⟨hmem, fun p' hp' => Option.some.inj hp' ▸ hne⟩
    rw [h.claim]
    refine without_of_ne (claim_ne hc.claim ((hproofs.mem_iff q).mp hmem.1).1).symm
      fun p hp hpath => ?_
    exact hmem.2 p hp (hproofs.eq_of_path hmem.1 (companionOf_mem hp) hpath)

/-- Files that share a name are of the digest both or neither, also after a step that writes copies
of one of them. -/
theorem Apart.step {cs : List Claim} (hapart : Apart loads digest s (c :: cs))
    (hsame : ∀ d ∈ cs, t.claim d.path = s.claim d.path)
    (hfiles : ∀ name, Str.endsWith Str.json name = true →
      t.shelf.file .witnessed name = s.shelf.file .witnessed name ∨ ∃ m raw,
      Valid loads s c m raw ∧ name = copyName m raw ∧ t.shelf.file .witnessed name = some raw) :
    Apart loads digest t cs := by
  have hvalid : ∀ d ∈ cs, ∀ m raw, Valid loads t d m raw → Valid loads s d m raw :=
      fun d hd m raw hv =>
    ⟨(hsame d hd).symm.trans hv.1, hv.2⟩
  refine ⟨fun d hd m raw raw' hv hfile => ?_, fun d hd d' hd' m raw m' raw' hv hv' => ?_⟩
  · have hv' := hvalid d hd m raw hv
    obtain hsame | ⟨m', raw'', hv'', hname,
      hfile'⟩ := hfiles (copyName m raw) (endsWith_copyName m raw)
    · exact hapart.held d (List.mem_cons_of_mem c hd) m raw raw' hv' (hsame.symm.trans hfile)
    · obtain rfl := Option.some.inj (hfile.symm.trans hfile')
      exact hapart.claimed d (List.mem_cons_of_mem c hd) c
        (List.mem_cons_self ..) m raw m' raw' hv' hv'' hname
  · exact hapart.claimed d (List.mem_cons_of_mem c hd) d' (List.mem_cons_of_mem c hd') m raw m' raw'
      (hvalid d hd m raw hv) (hvalid d' hd' m' raw' hv')

/-- One manifest, then the others. -/
theorem Consumed.walked {cs : List Claim} {held' held'' : Held} {rejected rejected' : List Rejected}
    {u : Desk} (h : Consumed loads digest proofs c s held held' rejected t)
    (hmanifests : Lists s Str.json (c :: cs)) (hproofs : Lists s jsonOts proofs)
    (hwalked : Walked loads digest cs (leaves proofs c) t held' held'' rejected' u) :
    Walked loads digest (c :: cs) proofs s held held'' (rejected ++ rejected') u := by
  obtain ⟨hcs, hleft⟩ := h.same loads hmanifests hproofs
  have hc := hmanifests.isManifest (List.mem_cons_self ..)
  have hpair : ∀ d q, (d, q) ∈ pairs cs (leaves proofs c) →
      t.claim d.path = s.claim d.path ∧ t.claim q.path = s.claim q.path :=
    fun d q hdq => ⟨hcs d (pairs_mem hdq).1, hleft q (pairs_mem hdq).2⟩
  -- What is gone stays gone: nobody else takes it.
  have hgone : ∀ path, t.claim path = none → u.claim path = none := by
    intro path hpath
    by_cases hmanifest : ∃ d ∈ cs, path = d.path
    · obtain ⟨d, hd, rfl⟩ := hmanifest
      exact hwalked.gone d hd
    · by_cases htaken : ∃ d q, (d, q) ∈ pairs cs (leaves proofs c) ∧ path = q.path
      · obtain ⟨d, q, hdq, rfl⟩ := htaken
        exact hwalked.taken d q hdq
      · refine (hwalked.others path (fun d hd heq => hmanifest ⟨d, hd, heq⟩) fun d q hdq heq =>
            htaken ⟨d, q, hdq, heq⟩).trans hpath
  refine ⟨?_, hwalked.heldOn, h.better.trans hwalked.better, ?_, ?_, ?_, ?_, ?_, ?_, ?_, ?_⟩
  · refine List.forall_mem_cons.mpr ⟨h.decodes, fun d hd hdeep => hwalked.decodes d hd ?_⟩
    rwa [TooDeep, hcs d hd]
  · have hrest : (∃ d ∈ cs, ∃ m raw, Valid loads t d m raw ∧ Sha256.digest raw = digest) ↔
        ∃ d ∈ cs, ∃ m raw, Valid loads s d m raw ∧ Sha256.digest raw = digest :=
      exists_congr fun d => and_congr_right fun hd => by simp only [Valid, hcs d hd]
    rw [hwalked.lookup_iff, h.lookup_iff, hrest, List.exists_mem_cons_iff, or_assoc]
  · intro n hn
    have hrest : (∃ d ∈ cs, Refusal loads t d n) ↔ ∃ d ∈ cs, Refusal loads s d n :=
      exists_congr fun d => and_congr_right fun hd => by rw [Refusal, hcs d hd, Refusal]
    rw [hwalked.refused_iff n hn, h.refused_iff n hn, hrest, List.exists_mem_cons_iff, or_assoc]
  · intro d hd
    obtain rfl | hd := List.mem_cons.mp hd
    · exact hgone _ (h.claim ▸ without_self s proofs d)
    · exact hwalked.gone d hd
  · intro d q hdq
    obtain ⟨-, hcomp⟩ | hdq := mem_pairs_cons.mp hdq
    · exact hgone _ (h.claim ▸ without_companion hcomp)
    · exact hwalked.taken d q hdq
  · intro path hmanifest htaken
    refine (hwalked.others path (fun d hd => hmanifest d (List.mem_cons_of_mem c hd)) fun d q hdq =>
      htaken d q (mem_pairs_cons.mpr (.inr hdq))).trans ?_
    rw [h.claim]
    exact without_of_ne (hmanifest c (List.mem_cons_self ..)) fun q hq =>
      htaken c q (mem_pairs_cons.mpr (.inl ⟨rfl, hq⟩))
  · intro d q raw data hdq hraw hdata hfits hdigest
    obtain ⟨rfl, hcomp⟩ | hdq := mem_pairs_cons.mp hdq
    · exact (h.answered q raw data hcomp hraw hdata hfits hdigest).better hwalked.better
    · exact hwalked.answered d q raw data hdq ((hpair d q hdq).1.trans hraw)
        ((hpair d q hdq).2.trans hdata) hfits hdigest
  · intro d q raw data hdq hraw hdata hunfit
    obtain ⟨rfl, hcomp⟩ | hdq := mem_pairs_cons.mp hdq
    · exact (h.refused q raw data hcomp hraw hdata hunfit).imp fun r hr =>
        ⟨List.mem_append_left _ hr.1, hr.2⟩
    · exact (hwalked.refused d q raw data hdq ((hpair d q hdq).1.trans hraw)
          ((hpair d q hdq).2.trans hdata) hunfit).imp
        fun r hr => ⟨List.mem_append_right _ hr.1, hr.2⟩
  · intro r hr
    obtain hr | hr := List.mem_append.mp hr
    · obtain hpath | ⟨q, raw, data, hcomp, hrest⟩ := h.rejects r hr
      · exact .inl ⟨c, List.mem_cons_self .., hpath⟩
      · exact .inr ⟨c, q, raw, data, mem_pairs_cons.mpr (.inl ⟨rfl, hcomp⟩), hrest⟩
    · obtain ⟨d, hd, hpath⟩ | ⟨d, q, raw, data, hdq, hpath, hraw, hdata,
        hunfit⟩ := hwalked.rejects r hr
      · exact .inl ⟨d, List.mem_cons_of_mem c hd, hpath⟩
      · exact .inr ⟨d, q, raw, data, mem_pairs_cons.mpr (.inr hdq), hpath,
          (hpair d q hdq).1.symm.trans hraw, (hpair d q hdq).2.symm.trans hdata, hunfit⟩

theorem gives_consumeManifests (hmanifests : Lists s Str.json manifests)
    (hproofs : Lists s jsonOts proofs) (hheld : HeldOn digest s.shelf held)
    (hapart : Apart loads digest s manifests) :
    Gives (consumeManifests env loads held manifests) (fun r t => r.2.failures = 0 →
        Walked loads digest manifests proofs s held r.1 r.2.rejected t) s := by
  induction manifests generalizing s held proofs with
  | nil =>
      refine .pure fun _ => ?_
      exact
        { decodes := fun _ h => nomatch h
          heldOn := hheld
          better := .refl digest _
          lookup_iff := (or_iff_left fun ⟨_, h, _⟩ => nomatch h).symm
          refused_iff := fun n _ => (or_iff_left fun ⟨_, h, _⟩ => nomatch h).symm
          gone := fun _ h => nomatch h
          taken := fun _ _ h => nomatch h
          others := fun _ _ _ => rfl
          answered := fun _ _ _ _ h => nomatch h
          refused := fun _ _ _ _ h => nomatch h
          rejects := fun _ h => nomatch h }
  | cons c cs ih =>
      have hmem : c ∈ c :: cs := List.mem_cons_self ..
      have hstep := gives_consumeManifest env loads hproofs
        (hmanifests.isManifest hmem) hheld fun m raw raw' => hapart.held c hmem m raw raw'
      refine .bind (hstep.mono (fun r t ht => ?_) fun _ _ h => h)
      obtain ⟨held', report⟩ := r
      by_cases hfailures : report.failures = 0
      · have hconsumed := ht hfailures
        obtain ⟨hcs, hleft⟩ := hmanifests.without hproofs hconsumed.claim
        have hrest := ih hcs hleft hconsumed.heldOn
          (hapart.step loads (hconsumed.same loads hmanifests hproofs).1 hconsumed.files)
        refine .bind (hrest.mono (fun r' u hu => .pure fun hsum => ?_) fun _ _ h => h)
        exact hconsumed.walked loads hmanifests hproofs (hu (Nat.add_eq_zero_iff.mp hsum).2)
      · refine .bind ((gives_any _ t).mono (fun r' u _ => .pure fun hsum => ?_) fun _ _ h => h)
        exact absurd (Nat.add_eq_zero_iff.mp hsum).1 hfailures

end All

end OtsServer.Selfstamp
