import OtsServer.Selfstamp.Books
import OtsServer.Selfstamp.Consumed
import Mathlib.Data.Set.Function

/-!
# What a run touches

The claims, the copies and what was rejected are changed in few ways, each with something that holds
when it is done: a claim is removed only beside a copy of its bytes, and moved away only if it is no
manifest. `Touch` lists the ways, and a run is a sequence of them, whatever fails and wherever it
stops.
-/

namespace OtsServer.Selfstamp

open Prog (Keeps)

/-! ## Programs that change no claim, no copy and nothing that was rejected -/

/-- A file that is no copy: a manifest, a proof, a temporary file. -/
def Loose (p : Place) (name : Str) : Prop := p = .manifests ∨ p = .witnessed ∧ isBook name = false

/-- A property that only a change of a claim, of a copy or of what was rejected ends. -/
abbrev Copyless (env : Env) (I : World → Prop) : Prop := Sparing env Loose I

section Copyless

variable {env : Env} {I J : World → Prop} {p : Place} {name : Str}

theorem Loose.of_place (hp : p = .manifests ∨ p = .witnessed) (name : Str)
    (h : isBook name = false) : Loose p name :=
  hp.imp_right fun hp => ⟨hp, h⟩

theorem witnessed_ne_rejected : Place.witnessed ≠ .rejected := by decide

theorem Loose.place (h : Loose p name) : p = .manifests ∨ p = .witnessed := h.imp_right And.left

theorem Loose.ne_inbox (h : Loose p name) : p ≠ .inbox := by
  rintro rfl
  cases h.place with
  | inl h => cases h
  | inr h => cases h

theorem Loose.ne_rejected (h : Loose p name) : p ≠ .rejected := by
  rintro rfl
  cases h.place with
  | inl h => cases h
  | inr h => cases h

theorem copyless_claim (env : Env) {path : Str} (hpath : path.isDot = true) (there : Option Bytes) :
    Copyless env fun w => w.get .inbox path = there where
  next w hw := by rw [← claimed_of_dot _ hpath, claimed_next, claimed_of_dot _ hpath, hw]
  put w p name data h hw := by rw [get_put, if_neg fun hp => h.ne_inbox hp.1.symm, hw]
  erase w p name h hw := by rw [get_erase, if_neg fun hp => h.ne_inbox hp.1.symm, hw]
  store _ _ hw := hw

theorem copyless_copy (env : Env) {copy : Str} (hcopy : isBook copy = true) (there : Option Bytes) :
    Copyless env fun w => w.get .witnessed copy = there where
  next w hw := by rw [get_next env w witnessed_ne, hw]
  put w p name data h hw := by
    rw [get_put, if_neg, hw]
    rintro ⟨rfl, rfl⟩
    obtain h | ⟨-, h⟩ := h
    · cases h
    · exact Bool.false_ne_true (h.symm.trans hcopy)
  erase w p name h hw := by
    rw [get_erase, if_neg, hw]
    rintro ⟨rfl, rfl⟩
    obtain h | ⟨-, h⟩ := h
    · cases h
    · exact Bool.false_ne_true (h.symm.trans hcopy)
  store _ _ hw := hw

end Copyless

/-! ## Touches -/

section Touch

variable (env : Env) (loads : Loads)

/-- What a run does, one thing at a time. -/
inductive Touch : World → World → Prop
  /-- A call, with what was delivered before it. -/
  | call (w : World) : Touch w (w.next env)
  | store (w : World) (files : List (Place × Str)) : Touch w { w with stored := files }
  | put {w : World} {p : Place} {name : Str} (data : Bytes) (h : Loose p name) :
      Touch w (w.put p name data)
  | erase {w : World} {p : Place} {name : Str} (h : Loose p name) : Touch w (w.erase p name)
  /-- A delivery is claimed, under a name that no claim has. -/
  | claim {w : World} {name path : Str} {data : Bytes}
      (hname : name.isDot = false) (hpath : path.isDot = true)
      (hdata : w.get .inbox name = some data) (hfree : w.get .inbox path = none) :
      Touch w ((w.erase .inbox name).put .inbox path data)
  /-- A claimed manifest is copied. -/
  | copy {w : World} {path : Str} {m : Items} {raw : Bytes} (hpath : isClaim Str.json path = true)
      (hraw : w.get .inbox path = some raw) (hm : parseForeignManifest loads raw = .ok m) :
      Touch w (w.put .witnessed (copyName m raw) raw)
  /-- A claim is rejected; if it was delivered as a manifest, it is none. -/
  | reject {w : World} {path : Str} {data : Bytes} (name : Str) (hpath : path.isDot = true)
      (hdata : w.get .inbox path = some data)
      (hwhy : isClaim Str.json path = true → ∀ m, parseForeignManifest loads data ≠ .ok m) :
      Touch w ((w.erase .inbox path).put .rejected (rejectedName data name) data)
  /-- A claim is removed; if it was delivered as a manifest, it is one, and a copy has its
  digest. -/
  | take {w : World} {path : Str} (hpath : path.isDot = true)
      (hheld : isClaim Str.json path = true → ∃ raw m copy kept, w.get .inbox path = some raw ∧
        parseForeignManifest loads raw = .ok m ∧ isBook copy = true ∧
          w.get .witnessed copy = some kept ∧
        Sha256.digest kept = Sha256.digest raw) :
      Touch w (w.erase .inbox path)

def Touches : World → World → Prop := Relation.ReflTransGen (Touch env loads)

/-- Nothing is done to the claimed manifests. -/
def SameManifests (w t : World) : Prop :=
  ∀ path, isClaim Str.json path = true → t.get .inbox path = w.get .inbox path

/-- What a run does without touching a claimed manifest. -/
def Around (w t : World) : Prop := Touches env loads w t ∧ SameManifests w t

variable {env loads} {w t u : World}

theorem Touches.step (h : Touches env loads w t) (hstep : Touch env loads t u) :
    Touches env loads w u :=
  Relation.ReflTransGen.tail h hstep

theorem Touches.trans (h : Touches env loads w t) (h' : Touches env loads t u) :
    Touches env loads w u :=
  Relation.ReflTransGen.trans h h'

theorem Touches.refl (w : World) : Touches env loads w w := Relation.ReflTransGen.refl

theorem copyless_touches (w : World) : Copyless env (Touches env loads w) where
  next t ht := ht.step (.call t)
  put _ _ _ data h ht := ht.step (.put data h)
  erase _ _ _ h ht := ht.step (.erase h)
  store t files ht := ht.step (.store t files)

theorem copyless_sameManifests (env : Env) (w : World) : Copyless env (SameManifests w) where
  next t ht path h := (copyless_claim env (isDot_of_isClaim h) _).next t (ht path h)
  put t p name data hloose ht path h :=
    (copyless_claim env (isDot_of_isClaim h) _).put t p name data hloose (ht path h)
  erase t p name hloose ht path h :=
    (copyless_claim env (isDot_of_isClaim h) _).erase t p name hloose (ht path h)
  store t files ht path h := (copyless_claim env (isDot_of_isClaim h) _).store t files (ht path h)

theorem copyless_around (w : World) : Copyless env (Around env loads w) :=
  (copyless_touches w).and (copyless_sameManifests env w)

end Touch

/-! ## Claims that are moved or removed -/

section Claims

variable {env : Env} {I J : World → Prop} {path name : Str} {data : Bytes}

/-- A file is read; in the inbox too it is what was there when the call returned. -/
theorem Still.wp_readBytes (hI : Still env I) (p : Place) (name : Str) (w : World) (hw : I w) :
    Prog.wp (Selfstamp.readBytes env p name) (fun data t => I t ∧ t.get p name = some data)
      (fun _ => I) w := by
  rw [Selfstamp.readBytes, Prog.wp_bind]
  refine Prog.wp_mono (hI.fileCall w hw) (fun _ t ht => ?_) fun _ _ ht => ht
  rw [Prog.wp_bind, Prog.wp_gets]
  cases h : t.get p name with
  | none => exact ht
  | some data => exact ⟨ht, h⟩

theorem Still.wp_claims (hI : Still env I) (suffix : Str) (w : World) (hw : I w) :
    Prog.wp (Selfstamp.claims env suffix) (fun found t => I t ∧ Lists t.desk suffix found)
      (fun _ => I) w := by
  rw [Selfstamp.claims, Prog.wp_bind]
  refine Prog.wp_mono (hI.fileCall w hw) (fun _ t ht => ?_) fun _ _ ht => ht
  rw [Prog.wp_bind, Prog.wp_gets]
  cases h : claimsOf suffix (t.files .inbox).names with
  | none => exact ht
  | some found => exact ⟨ht, lists_of_claimsOf h⟩

/-- A claim is moved to `rejected`, or stays. -/
theorem Still.wp_quarantine (hI : Still env I)
    (hJ : Still env J) (hdata : ∀ t, I t → t.get .inbox path = some data)
    (hmove : ∀ t, I t → J ((t.erase .inbox path).put .rejected (rejectedName data name) data))
    (kind : Kind) (reason : String) (w : World) (hw : I w) :
    Prog.wp (quarantine env path name data kind reason) (fun _ => J) (fun _ t => I t ∨ J t) w := by
  rw [quarantine, Prog.wp_bind]
  refine Prog.wp_mono (hI.mkdirDurable w hw) (fun _ t ht => ?_) fun _ _ ht => .inl ht
  rw [Prog.wp_bind, Selfstamp.moveDurable, Prog.wp_bind]
  refine Prog.wp_mono (hI.fsyncFile _ _ t ht) (fun _ u hu => ?_) fun _ _ hu => .inl hu
  rw [Prog.wp_bind, Selfstamp.rename, Prog.wp_bind]
  refine Prog.wp_mono (hI.fileCall u hu) (fun _ v hv => ?_) fun _ _ hv => .inl hv
  rw [Prog.wp_bind, Prog.wp_gets, hdata v hv]
  have hafter : Keeps J (do
      Selfstamp.fsyncDir env
      if Place.inbox ≠ .rejected then Selfstamp.fsyncDir env else pure () : M Unit) :=
    .bind hJ.fsyncDir fun _ => .ite (fun _ => hJ.fsyncDir) fun _ => .pure _
  refine (Prog.wp_modify _).mpr ?_
  exact Prog.wp_mono (hafter _ (hmove v hv)) (fun _ _ h => h) fun _ _ h => .inr h

theorem Still.wp_removeFile (hI : Still env I) (hremove : ∀ t, I t → J (t.erase .inbox path))
    (w : World) (hw : I w) : Prog.wp (removeFile env .inbox path) (fun _ => J) (fun _ => I) w := by
  rw [removeFile, Prog.wp_bind]
  exact Prog.wp_mono (hI.fileCall w hw) (fun _ t ht => hremove t ht) fun _ _ ht => ht

/-- A property that outlives one claimed proof, whatever is done with it. -/
structure Beside (env : Env) (path : Str) (I : World → Prop) : Prop extends Copyless env I where
  reject : ∀ w name data, w.get .inbox path = some data → I w →
    I ((w.erase .inbox path).put .rejected (rejectedName data name) data)
  take : ∀ w, I w → I (w.erase .inbox path)

theorem Beside.quarantine (hI : Beside env path I)
    (hpath : path.isDot = true) (name : Str) (data : Bytes) (kind : Kind)
    (reason : String) (w : World) (hw : I w) (hdata : w.get .inbox path = some data) :
    Prog.wp (quarantine env path name data kind reason) (fun _ => I) (fun _ => I) w := by
  have hboth : Copyless env fun t => I t ∧ t.get .inbox path = some data :=
    hI.toSparing.and (copyless_claim env hpath _)
  refine Prog.wp_mono (hboth.wp_quarantine hI.toStill (fun _ ht => ht.2)
      (fun t ht => hI.reject t name data ht.2 ht.1) kind reason w ⟨hw, hdata⟩) (fun _ _ h => h) ?_
  rintro _ _ (h | h)
  · exact h.1
  · exact h

theorem Beside.removeFile (hI : Beside env path I) : Keeps I (removeFile env .inbox path) :=
  fun w hw => hI.toStill.wp_removeFile hI.take w hw

theorem Beside.consumeCompanion (hI : Beside env path I) (hpath : path.isDot = true)
    (copy name : Str) (digest : Bytes) : Keeps I (consumeCompanion env copy path name digest) := by
  refine .bind (hI.pathExists _ _) fun _ => .ite (fun _ => fun w hw => ?_) fun _ => .pure _
  rw [Prog.wp_bind]
  refine Prog.wp_mono (hI.toStill.wp_readBytes _ _ w hw) ?_ fun _ _ h => h
  rintro data t ⟨ht, hdata⟩
  have hboth : Copyless env fun t => I t ∧ t.get .inbox path = some data :=
    hI.toSparing.and (copyless_claim env hpath _)
  rw [Prog.wp_bind]
  refine Prog.wp_mono (keeps_tryOts (hboth.keepForeignProof
        (Loose.of_place (.inr rfl)) copy data digest) t ⟨ht, hdata⟩) ?_ fun _ _ h => h.1
  rintro kept u ⟨hu, hdata⟩
  cases kept with
  | error reason =>
      rw [Prog.wp_bind]
      exact Prog.wp_mono (hI.quarantine hpath name data .foreignProof reason u hu hdata)
        (fun _ _ h => h) fun _ _ h => h
  | ok _ => exact (Keeps.bind hI.removeFile fun _ => .pure _) u hu

theorem Beside.consumeOrphanProof {c : Claim} {held : Held} (hI : Beside env c.path I)
    (hpath : c.path.isDot = true) : Keeps I (consumeOrphanProof env c held) := by
  intro w hw
  rw [Selfstamp.consumeOrphanProof, Prog.wp_bind]
  refine Prog.wp_mono (hI.toStill.wp_readBytes _ _ w hw) ?_ fun _ _ h => h
  rintro data t ⟨ht, hdata⟩
  have hboth : Still env fun t => I t ∧ t.get .inbox c.path = some data :=
    (hI.toSparing.and (copyless_claim env hpath _)).toStill
  have hreject : ∀ reason u, I u ∧ u.get .inbox c.path = some data → Prog.wp (do
      let rejected ← Selfstamp.quarantine env c.path c.name data .foreignProof reason
      pure [rejected]) (fun _ => I) (fun _ => I) u := by
    rintro reason u ⟨hu, hdata⟩
    rw [Prog.wp_bind]
    exact Prog.wp_mono (hI.quarantine hpath c.name data .foreignProof reason u hu hdata)
      (fun _ _ h => h) fun _ _ h => h
  split
  · exact hreject _ t ⟨ht, hdata⟩
  · exact ht
  · split
    · rw [Prog.wp_bind]
      refine Prog.wp_mono (hboth.manifestWasRejected c.name t ⟨ht, hdata⟩)
        (fun was u hu => ?_) fun _ _ h => h.1
      rw [Prog.wp_ite]
      exact ⟨fun _ => hreject _ u hu, fun _ => hu.1⟩
    · exact (Keeps.bind (hI.keepForeignProof (Loose.of_place (.inr rfl)) _ _ _) fun _ =>
          .bind hI.removeFile fun _ => .pure _) t ht

theorem beside_around {env : Env} {loads : Loads} (w : World)
    (hpath : isClaim jsonOts path = true) : Beside env path (Around env loads w) where
  toSparing := copyless_around w
  reject t name data hdata ht := by
    have hne : isClaim Str.json path ≠ true := fun hjson => claim_ne hjson hpath rfl
    refine ⟨ht.1.step (.reject name (isDot_of_isClaim hpath) hdata fun hjson => absurd hjson hne),
      fun path' hpath' => ?_⟩
    rw [get_put, if_neg fun h => rejected_ne h.1.symm, get_erase, if_neg fun h =>
      claim_ne hpath' hpath h.2]
    exact ht.2 path' hpath'
  take t ht := by
    have hne : isClaim Str.json path ≠ true := fun hjson => claim_ne hjson hpath rfl
    refine ⟨ht.1.step (.take (isDot_of_isClaim hpath) fun hjson => absurd hjson hne),
      fun path' hpath' => ?_⟩
    rw [get_erase, if_neg fun h => claim_ne hpath' hpath h.2]
    exact ht.2 path' hpath'

end Claims

/-! ## Names tell bytes apart -/

theorem hexPrefix_of_copyName {m m' : Items} {raw raw' : Bytes}
    (h : copyName m raw = copyName m' raw') : hexPrefix raw = hexPrefix raw' := by
  rw [copyName, copyName] at h
  have hlength : (0x2d :: hexPrefix raw).length = (0x2d :: hexPrefix raw').length := by
    rw [List.length_cons, List.length_cons, hexPrefix_length, hexPrefix_length]
  exact (List.cons.inj (List.append_inj' (List.append_cancel_right h) hlength).2).2

theorem hexPrefix_of_rejectedName {name name' : Str} {data data' : Bytes}
    (h : rejectedName data name = rejectedName data' name') : hexPrefix data = hexPrefix data' :=
  (List.append_inj h ((hexPrefix_length data).trans (hexPrefix_length data').symm)).1

theorem isBook_copyName (m : Items) (raw : Bytes) : isBook (copyName m raw) = true := by
  rw [isBook, endsWith_copyName, isDot_copyName]
  rfl

/-- What is delivered is among files of which no two share the digits that the names of copies end
with. -/
structure Distinct (env : Env) (seen : Set Bytes) : Prop where
  apart : Set.InjOn hexPrefix seen
  delivered : ∀ n, ∀ d ∈ env.deliveries n, ∀ data, d.data = some data → data ∈ seen

theorem Distinct.digest {env : Env} {seen : Set Bytes}
    (h : Distinct env seen) {data data' : Bytes} (hdata : data ∈ seen)
    (hdata' : data' ∈ seen) (hdigest : Sha256.digest data = Sha256.digest data') : data = data' :=
  h.apart hdata hdata' (by rw [hexPrefix, hdigest, hexPrefix])

/-- What is held was delivered, a copy and a rejected file under a name that its bytes give. -/
structure Tidy (loads : Loads) (seen : Set Bytes) (w : World) : Prop where
  inbox : ∀ name data, w.get .inbox name = some data → data ∈ seen
  copies : ∀ copy raw, isBook copy = true → w.get .witnessed copy = some raw →
    raw ∈ seen ∧ ∃ m, parseForeignManifest loads raw = .ok m ∧ copy = copyName m raw
  rejected : ∀ name data, w.get .rejected name = some data → data ∈ seen ∧ ∃ given,
    name = rejectedName data given

section Tidy

variable {env : Env} {loads : Loads} {seen : Set Bytes} {w t : World}

theorem get_deliver {seen : Set Bytes} (ds : List Delivery)
    (hds : ∀ d ∈ ds, ∀ data, d.data = some data → data ∈ seen) :
    ∀ inbox : Dir, (∀ name data, inbox.get name = some data → data ∈ seen) → ∀ name data,
        (ds.foldl (fun inbox d => d.deliver inbox) inbox).get name = some data → data ∈ seen := by
  induction ds with
  | nil => exact fun inbox h => h
  | cons d ds ih =>
      intro inbox hinbox
      refine ih (fun d' hd' => hds d' (List.mem_cons_of_mem _ hd')) _ fun name data hget => ?_
      change (d.deliver inbox).get name = some data at hget
      cases hdata : d.data with
      | some data' =>
          rw [Delivery.deliver, hdata] at hget
          dsimp only at hget
          rw [Directory.get_put] at hget
          split_ifs at hget
          · exact Option.some.inj hget ▸ hds d (List.mem_cons_self ..) data' hdata
          · exact hinbox name data hget
      | none =>
          rw [Delivery.deliver, hdata] at hget
          dsimp only at hget
          rw [Directory.get_erase] at hget
          split_ifs at hget
          exact hinbox name data hget

/-- The files of a place are those there were, but for one that was put under a name. -/
theorem get_put_cases {p p' : Place} {name name' : Str} {data data' : Bytes}
    (h : (w.put p name data).get p' name' = some data') :
    p' = p ∧ name' = name ∧ data' = data ∨ w.get p' name' = some data' := by
  rw [get_put] at h
  split_ifs at h with hsame
  · exact .inl ⟨hsame.1, hsame.2, (Option.some.inj h).symm⟩
  · exact .inr h

theorem get_of_erase {p p' : Place} {name name' : Str} {data : Bytes}
    (h : (w.erase p name).get p' name' = some data) : w.get p' name' = some data := by
  rw [get_erase] at h
  split_ifs at h
  exact h

theorem Tidy.next (hd : Distinct env seen) (h : Tidy loads seen w) :
    Tidy loads seen (w.next env) where
  inbox name data hget := by
    refine get_deliver (env.deliveries w.calls) (hd.delivered _)
      (w.files .inbox) h.inbox name data ?_
    unfold World.next World.deliver World.get at hget
    dsimp only at hget
    rwa [Function.update_self] at hget
  copies copy raw hbook hget :=
    h.copies copy raw hbook ((get_next env w witnessed_ne copy).symm.trans hget)
  rejected name data hget :=
    h.rejected name data ((get_next env w rejected_ne name).symm.trans hget)

theorem Tidy.touch (hd : Distinct env seen) (h : Tidy loads seen w) (hstep : Touch env loads w t) :
    Tidy loads seen t := by
  cases hstep with
  | call => exact h.next hd
  | store => exact ⟨h.inbox, h.copies, h.rejected⟩
  | @put p name data hloose =>
      refine ⟨fun name' data' hget => ?_, fun copy raw hbook hget => ?_, fun name' data' hget => ?_⟩
      · obtain ⟨hp, -⟩ | hget := get_put_cases hget
        · exact absurd hp.symm hloose.ne_inbox
        · exact h.inbox name' data' hget
      · obtain ⟨hp, hname, -⟩ | hget := get_put_cases hget
        · obtain hp' | ⟨-, hnot⟩ := hloose
          · cases hp.trans hp'
          · exact absurd ((hname ▸ hnot).symm.trans hbook) Bool.false_ne_true
        · exact h.copies copy raw hbook hget
      · obtain ⟨hp, -⟩ | hget := get_put_cases hget
        · exact absurd hp.symm hloose.ne_rejected
        · exact h.rejected name' data' hget
  | erase => exact ⟨fun name data hget => h.inbox name data (get_of_erase hget),
      fun copy raw hbook hget => h.copies copy raw hbook (get_of_erase hget),
      fun name data hget => h.rejected name data (get_of_erase hget)⟩
  | @claim name path data hname hpath hdata hfree =>
      refine ⟨fun name' data' hget => ?_, fun copy raw hbook hget => ?_, fun name' data' hget => ?_⟩
      · obtain ⟨-, -, rfl⟩ | hget := get_put_cases hget
        · exact h.inbox name data' hdata
        · exact h.inbox name' data' (get_of_erase hget)
      · obtain ⟨hp, -⟩ | hget := get_put_cases hget
        · exact absurd hp witnessed_ne
        · exact h.copies copy raw hbook (get_of_erase hget)
      · obtain ⟨hp, -⟩ | hget := get_put_cases hget
        · exact absurd hp rejected_ne
        · exact h.rejected name' data' (get_of_erase hget)
  | @copy path m raw hpath hraw hm =>
      refine ⟨fun name' data' hget => ?_, fun copy raw' hbook hget => ?_,
        fun name' data' hget => ?_⟩
      · obtain ⟨hp, -⟩ | hget := get_put_cases hget
        · exact absurd hp.symm witnessed_ne
        · exact h.inbox name' data' hget
      · obtain ⟨-, rfl, rfl⟩ | hget := get_put_cases hget
        · exact ⟨h.inbox path raw' hraw, m, hm, rfl⟩
        · exact h.copies copy raw' hbook hget
      · obtain ⟨hp, -⟩ | hget := get_put_cases hget
        · cases hp
        · exact h.rejected name' data' hget
  | @reject path data name hpath hdata hwhy =>
      refine ⟨fun name' data' hget => ?_, fun copy raw' hbook hget => ?_,
        fun name' data' hget => ?_⟩
      · obtain ⟨hp, -⟩ | hget := get_put_cases hget
        · exact absurd hp.symm rejected_ne
        · exact h.inbox name' data' (get_of_erase hget)
      · obtain ⟨hp, -⟩ | hget := get_put_cases hget
        · cases hp
        · exact h.copies copy raw' hbook (get_of_erase hget)
      · obtain ⟨-, rfl, rfl⟩ | hget := get_put_cases hget
        · exact ⟨h.inbox path data' hdata, name, rfl⟩
        · exact h.rejected name' data' (get_of_erase hget)
  | take => exact ⟨fun name data hget => h.inbox name data (get_of_erase hget),
      fun copy raw hbook hget => h.copies copy raw hbook (get_of_erase hget),
      fun name data hget => h.rejected name data (get_of_erase hget)⟩

theorem Tidy.touches (hd : Distinct env seen) (h : Tidy loads seen w)
    (hrun : Touches env loads w t) : Tidy loads seen t := by
  induction hrun with
  | refl => exact h
  | tail _ hstep ih => exact ih.touch hd hstep

/-- A copy stays as it is: another with its name has its bytes. -/
theorem Tidy.copy_stays (hd : Distinct env seen) (h : Tidy loads seen w)
    (hstep : Touch env loads w t) {copy : Str} {raw : Bytes}
    (hbook : isBook copy = true) (hraw : w.get .witnessed copy = some raw) :
    t.get .witnessed copy = some raw := by
  have hcopy := copyless_copy env hbook (some raw)
  cases hstep with
  | call => exact hcopy.next w hraw
  | store files => exact hcopy.store w files hraw
  | put data hloose => exact hcopy.put w _ _ data hloose hraw
  | erase hloose => exact hcopy.erase w _ _ hloose hraw
  | claim =>
      rw [get_put, if_neg fun hp => witnessed_ne hp.1, get_erase, if_neg fun hp =>
        witnessed_ne hp.1, hraw]
  | @copy path m raw' hpath hraw' hm =>
      rw [get_put]
      split_ifs with hname
      · obtain ⟨hseen, m', -, hcopyName⟩ := h.copies copy raw hbook hraw
        exact congrArg some (hd.apart (h.inbox path raw' hraw') hseen
            (hexPrefix_of_copyName (hname.2.symm.trans hcopyName)))
      · exact hraw
  | reject =>
      rw [get_put, if_neg fun hp => witnessed_ne_rejected hp.1, get_erase,
        if_neg fun hp => witnessed_ne hp.1, hraw]
  | take => rw [get_erase, if_neg fun hp => witnessed_ne hp.1, hraw]

theorem Tidy.copies_stay (hd : Distinct env seen) (h : Tidy loads seen w)
    (hrun : Touches env loads w t) {copy : Str} {raw : Bytes}
    (hbook : isBook copy = true) (hraw : w.get .witnessed copy = some raw) :
    t.get .witnessed copy = some raw := by
  induction hrun with
  | refl => exact hraw
  | tail hrun hstep ih => exact (h.touches hd hrun).copy_stays hd hstep hbook ih

/-- What was rejected stays as it is. -/
theorem Tidy.rejected_stays (hd : Distinct env seen) (h : Tidy loads seen w)
    (hstep : Touch env loads w t) {name : Str} {data : Bytes}
    (hdata : w.get .rejected name = some data) : t.get .rejected name = some data := by
  cases hstep with
  | call => exact (get_next env w rejected_ne name).trans hdata
  | store => exact hdata
  | put data' hloose => rw [get_put, if_neg fun hp => hloose.ne_rejected hp.1.symm, hdata]
  | erase hloose => rw [get_erase, if_neg fun hp => hloose.ne_rejected hp.1.symm, hdata]
  | claim =>
      rw [get_put, if_neg fun hp => rejected_ne hp.1, get_erase, if_neg fun hp =>
        rejected_ne hp.1, hdata]
  | copy =>
      rw [get_put, if_neg fun hp => witnessed_ne_rejected hp.1.symm, hdata]
  | @reject path data' given hpath hdata' hwhy =>
      rw [get_put]
      split_ifs with hname
      · obtain ⟨hseen, given', hgiven⟩ := h.rejected name data hdata
        exact congrArg some (hd.apart (h.inbox path data' hdata') hseen
            (hexPrefix_of_rejectedName (hname.2.symm.trans hgiven)))
      · rw [get_erase, if_neg fun hp => rejected_ne hp.1, hdata]
  | take => rw [get_erase, if_neg fun hp => rejected_ne hp.1, hdata]

end Tidy

end OtsServer.Selfstamp
