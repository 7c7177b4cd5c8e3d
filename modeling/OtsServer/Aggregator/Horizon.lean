import OtsServer.Aggregator.Committed
import Mathlib.Algebra.Order.Ring.Rat
import Mathlib.Data.List.Nodup
import Mathlib.Data.List.TakeWhile

/-!
# The dedupe horizon

What the map of recent submissions does from one pass under the lock to the next. Expired entries
are deleted from the front only, which finds them all when the map is in the order of its expiries;
and it is, as long as the threads come to the lock in the order of their clock readings.
-/

namespace OtsServer.Aggregator

variable {M : Type*} {config : Config} {s s' : State M}

/-! ## The map -/

namespace Recent

variable {now : ℚ} {recent : Recent M} {msg : M} {id : Nat} {x : M × Entry}

/-- No message has two entries. -/
def Once (recent : Recent M) : Prop := (recent.map Prod.fst).Nodup

/-- Insertion order is expiry order. -/
def Aged (recent : Recent M) : Prop := recent.Pairwise fun x y => x.2.expiresAt ≤ y.2.expiresAt

theorem purge_suffix (now : ℚ) (recent : Recent M) : recent.purge now <:+ recent :=
  List.dropWhile_suffix _

/-- An entry that has not expired is not deleted. -/
theorem mem_purge (hx : x ∈ recent) (h : now < x.2.expiresAt) : x ∈ recent.purge now := by
  rw [← recent.takeWhile_append_dropWhile (p := fun e => decide (e.2.expiresAt ≤ now))] at hx
  refine (List.mem_append.mp hx).resolve_left fun hmem => ?_
  exact absurd (of_decide_eq_true (List.mem_takeWhile_imp
        (p := fun e : M × Entry => decide (e.2.expiresAt ≤ now)) hmem)) (not_le.mpr h)

/-- In expiry order every entry that is left expires later. -/
theorem Aged.lt_of_mem_purge (h : recent.Aged) (hx : x ∈ recent.purge now) :
    now < x.2.expiresAt := by
  cases hpurge : recent.purge now with
  | nil =>
      rw [hpurge] at hx
      exact nomatch hx
  | cons head rest =>
      have haged : (head :: rest).Pairwise fun x y => x.2.expiresAt ≤ y.2.expiresAt :=
        hpurge ▸ h.sublist (recent.purge_suffix now).sublist
      have hhead : now < head.2.expiresAt := by
        have hkept := List.head?_dropWhile_not (fun e : M × Entry =>
            decide (e.2.expiresAt ≤ now)) recent
        rw [show recent.dropWhile (fun e => decide (e.2.expiresAt ≤ now)) = head :: rest from
          hpurge] at hkept
        exact not_le.mp (of_decide_eq_false hkept)
      rw [hpurge] at hx
      obtain rfl | hx := List.mem_cons.mp hx
      · exact hhead
      · exact hhead.trans_le (List.rel_of_pairwise_cons haged hx)

theorem add_sublist :
    (recent.add config now msg id).Sublist
      (recent ++ [(msg, ⟨now + config.dedupeHorizon, id⟩)]) := by
  unfold Recent.add
  dsimp only
  split_ifs
  · exact List.tail_sublist _
  · exact .refl _

/-- An entry at the back that expires last keeps the order. -/
theorem Aged.append (h : recent.Aged)
    (hlast : ∀ x ∈ recent, x.2.expiresAt ≤ now + config.dedupeHorizon) :
    Aged (recent ++ [(msg, ⟨now + config.dedupeHorizon, id⟩)]) := by
  refine List.pairwise_append.mpr ⟨h, List.pairwise_singleton .., ?_⟩
  intro x hx y hy
  obtain rfl := List.mem_singleton.mp hy
  exact hlast x hx

theorem length_add_le (h : recent.length ≤ config.dedupeMaxEntries) :
    (recent.add config now msg id).length ≤ config.dedupeMaxEntries := by
  unfold Recent.add
  dsimp only
  split_ifs with hover
  · rw [List.length_tail, List.length_append, List.length_singleton]
    omega
  · exact not_lt.mp hover

variable [DecidableEq M]

/-- The entry of a message is the one that is found. -/
theorem find_of_mem (h : recent.Once) (hx : x ∈ recent) : recent.find x.1 = some x.2 := by
  cases hfind : recent.find x.1 with
  | none =>
      rw [Recent.find, Option.map_eq_none_iff, List.find?_eq_none] at hfind
      exact absurd rfl (of_decide_eq_false (Bool.eq_false_iff.mpr (hfind x hx)))
  | some entry =>
      have hsame := List.inj_on_of_nodup_map h (mem_of_find hfind) hx rfl
      rw [← hsame]

theorem notMem_keys_of_find (h : recent.find msg = none) : msg ∉ recent.map Prod.fst := by
  intro hmem
  obtain ⟨x, hx, rfl⟩ := List.mem_map.mp hmem
  rw [Recent.find, Option.map_eq_none_iff, List.find?_eq_none] at h
  exact absurd rfl (of_decide_eq_false (Bool.eq_false_iff.mpr (h x hx)))

theorem Once.refresh (h : recent.Once) : (recent.refresh config now msg id).Once := by
  rw [Once, Recent.refresh, List.map_append]
  refine List.nodup_append.mpr ⟨h.sublist (List.filter_sublist.map _), List.nodup_singleton _, ?_⟩
  intro a ha b hb
  obtain ⟨x, hx, rfl⟩ := List.mem_map.mp ha
  obtain rfl := List.mem_singleton.mp hb
  exact of_decide_eq_true (List.mem_filter.mp hx).2

theorem Once.add (h : recent.Once) (hnone : recent.find msg = none) :
    (recent.add config now msg id).Once := by
  refine List.Nodup.sublist (add_sublist.map _) ?_
  rw [List.map_append]
  refine List.nodup_append.mpr ⟨h, List.nodup_singleton _, ?_⟩
  rintro a ha b hb rfl
  obtain rfl := List.mem_singleton.mp hb
  exact notMem_keys_of_find hnone ha

/-- A hit takes one entry out and puts one in. -/
theorem length_refresh_le {entry : Entry} (h : recent.find msg = some entry) :
    (recent.refresh config now msg id).length ≤ recent.length := by
  rw [Recent.refresh, List.length_append, List.length_singleton]
  refine List.length_filter_lt_length_iff_exists.mpr ⟨_, mem_of_find h, ?_⟩
  simp

end Recent

/-! ## A pass under the lock -/

section Turns

variable {t : Tid} {c : Call M} {now : ℚ}

/-- Thread `t` has its turn at the map, with its call and its clock reading. -/
def Turn (s s' : State M) (t : Tid) (c : Call M) (now : ℚ) : Prop :=
  s.submitter t = .locked c now ∧ s'.submitter t ≠ .locked c now

theorem State.not_turn {u : Tid} {pc : Submitter M} (hu : ∀ c now, s.submitter u ≠ .locked c now) :
    ¬Turn s (s.setSubmitter u pc) t c now := by
  rintro ⟨ht, hleft⟩
  by_cases htu : t = u
  · exact hu c now (htu ▸ ht)
  · exact hleft ((s.setSubmitter_of_ne pc htu).trans ht)

variable [DecidableEq M]

/-- What a turn does: it attaches the thread to an entry that it renews, or makes an entry. -/
def Attaches (config : Config) (s s' : State M) (t : Tid) (c : Call M) (now : ℚ) (entry : Entry) :
    Prop :=
  (s.recent.purge now).find c.msg = some entry ∧ s'.submitter t = .leaving c entry.id ∧
    s'.recent = (s.recent.purge now).refresh config now c.msg entry.id

def Creates (config : Config) (s s' : State M) (t : Tid) (c : Call M) (now : ℚ) : Prop :=
  (s.recent.purge now).find c.msg = none ∧ s'.submitter t = .putting c s.nextId ∧
    s'.recent = (s.recent.purge now).add config now c.msg s.nextId

theorem Step.turn (h : Step config s s') (ht : Turn s s' t c now) :
    (∃ entry, Attaches config s s' t c now entry) ∨ Creates config s s' t c now := by
  cases h with
  | @attach u c' now' entry hu hfind =>
      by_cases htu : t = u
      · obtain rfl := htu
        obtain ⟨rfl, rfl⟩ := Submitter.locked.inj (hu.symm.trans ht.1)
        exact .inl ⟨entry, hfind, s.setSubmitter_self .., rfl⟩
      · exact absurd ((s.setSubmitter_of_ne _ htu).trans ht.1) ht.2
  | @create u c' now' hu hfind =>
      by_cases htu : t = u
      · obtain rfl := htu
        obtain ⟨rfl, rfl⟩ := Submitter.locked.inj (hu.symm.trans ht.1)
        exact .inr ⟨hfind, s.setSubmitter_self .., rfl⟩
      · exact absurd ((s.setSubmitter_of_ne _ htu).trans ht.1) ht.2
  | submitter u hadv =>
      exact absurd ht (State.not_turn fun c' now' hu => by rw [hu] at hadv; exact nomatch hadv)
  | acquire u hu _ => exact absurd ht (State.not_turn fun _ _ hu' => nomatch hu.symm.trans hu')
  | put u hu => exact absurd ht (State.not_turn fun _ _ hu' => nomatch hu.symm.trans hu')
  | release u hu => exact absurd ht (State.not_turn fun _ _ hu' => nomatch hu.symm.trans hu')
  | _ => exact absurd ht.1 ht.2

/-- Only a turn changes the map. -/
theorem Step.recent (h : Step config s s') :
    s'.recent = s.recent ∨ ∃ t c now, Turn s s' t c now := by
  cases h with
  | @attach t c now entry ht _ =>
      exact .inr ⟨t, c, now, ht, fun h => nomatch (s.setSubmitter_self ..).symm.trans h⟩
  | @create t c now ht _ =>
      exact .inr ⟨t, c, now, ht, fun h => nomatch (s.setSubmitter_self ..).symm.trans h⟩
  | _ => exact .inl rfl

end Turns

/-! ## Turns in the order of their readings -/

section Ordered

variable [DecidableEq M]

/-- A thread does not have its turn with a reading earlier than that of an entry still in the
map. -/
def InOrder (config : Config) (s s' : State M) : Prop :=
  ∀ t c now, Turn s s' t c now → ∀ x ∈ s.recent, x.2.expiresAt ≤ now + config.dedupeHorizon

/-- The aggregator, where the threads come to the map in the order of their readings. -/
def ordered (config : Config) : Transition.System (State M) where
  init s := s = .start M
  step s s' := Step config s s' ∧ InOrder config s s'

/-- The map is a map, within its bound. -/
structure Bounded (config : Config) (recent : Recent M) : Prop where
  once : recent.Once
  length : recent.length ≤ config.dedupeMaxEntries

omit [DecidableEq M] in
theorem Bounded.purge {recent : Recent M} (h : Bounded config recent) (now : ℚ) :
    Bounded config (recent.purge now) where
  once := h.once.sublist ((recent.purge_suffix now).sublist.map _)
  length := (recent.purge_suffix now).length_le.trans h.length

theorem bounded_inductive :
    (system (M := M) config).Inductive fun s => Bounded config s.recent where
  init := by
    rintro s rfl
    exact ⟨List.nodup_nil, Nat.zero_le _⟩
  step := by
    intro s s' _ h hstep
    obtain hsame | ⟨t, c, now, hturn⟩ := hstep.recent
    · rwa [hsame]
    have hpurge := h.purge now
    obtain ⟨entry, hfind, -, hrecent⟩ | ⟨hfind, -, hrecent⟩ := Step.turn hstep hturn
    · rw [hrecent]
      exact ⟨hpurge.once.refresh, (Recent.length_refresh_le hfind).trans hpurge.length⟩
    · rw [hrecent]
      exact ⟨hpurge.once.add hfind, Recent.length_add_le hpurge.length⟩

/-- In order, the map is in expiry order. -/
theorem aged_inductive : (ordered (M := M) config).Inductive fun s => s.recent.Aged where
  init := by
    rintro s rfl
    exact List.Pairwise.nil
  step := by
    rintro s s' _ h ⟨hstep, horder⟩
    obtain hsame | ⟨t, c, now, hturn⟩ := hstep.recent
    · rwa [hsame]
    have haged : (s.recent.purge now).Aged := h.sublist (s.recent.purge_suffix now).sublist
    have hlast : ∀ x ∈ s.recent.purge now, x.2.expiresAt ≤ now + config.dedupeHorizon := fun x hx =>
      horder t c now hturn x (Recent.mem_of_mem_purge hx)
    obtain ⟨entry, hfind, -, hrecent⟩ | ⟨hfind, -, hrecent⟩ := Step.turn hstep hturn
    · rw [hrecent]
      exact Recent.Aged.append (haged.sublist List.filter_sublist) fun x hx =>
        hlast x (List.mem_filter.mp hx).1
    · rw [hrecent]
      exact (haged.append hlast).sublist Recent.add_sublist

theorem ordered_reachable (h : (ordered config).Reachable s) : (system config).Reachable s := by
  induction h with
  | init h => exact .init h
  | step _ hstep ih => exact .step ih hstep.1

/-- A thread's turn deletes the entry of a message, with a reading that had reached its expiry. -/
def Purges (s s' : State M) (msg : M) : Prop :=
  ∃ t c now entry, Turn s s' t c now ∧ (msg, entry) ∈ s.recent ∧ entry.expiresAt ≤ now

/-- A thread's turn makes an entry, and deletes that of a message as the oldest of too many. -/
def Evicts (config : Config) (s s' : State M) (msg : M) : Prop :=
  ∃ t c now entry, Turn s s' t c now ∧ (s.recent.purge now).find c.msg = none ∧
    (s.recent.purge now).head? = some (msg, entry) ∧
      config.dedupeMaxEntries < (s.recent.purge now).length + 1

/-- A step that neither purges nor evicts the entry of a message. -/
def Spares (config : Config) (msg : M) (s s' : State M) : Prop :=
  (ordered config).step s s' ∧ ¬Purges s s' msg ∧ ¬Evicts config s s' msg

/-- The message has an entry of that number that does not expire before the given time. -/
def KeptUntil (s : State M) (msg : M) (id : Nat) (expiresAt : ℚ) : Prop :=
  ∃ entry, (msg, entry) ∈ s.recent ∧ entry.id = id ∧ expiresAt ≤ entry.expiresAt

theorem KeptUntil.step {msg : M} {id : Nat} {expiresAt : ℚ} (h : KeptUntil s msg id expiresAt)
    (hbounded : Bounded config s.recent) (hstep : Spares config msg s s') :
    KeptUntil s' msg id expiresAt := by
  obtain ⟨entry, hentry, rfl, hexpires⟩ := h
  obtain ⟨⟨hstep, horder⟩, hpurges, hevicts⟩ := hstep
  obtain hsame | ⟨t, c, now, hturn⟩ := hstep.recent
  · exact ⟨entry, hsame ▸ hentry, rfl, hexpires⟩
  have hlive : (msg, entry) ∈ s.recent.purge now :=
    Recent.mem_purge hentry (not_le.mp fun hle => hpurges ⟨t, c, now, entry, hturn, hentry, hle⟩)
  have hlast : entry.expiresAt ≤ now + config.dedupeHorizon := horder t c now hturn _ hentry
  obtain ⟨found, hfind, -, hrecent⟩ | ⟨hfind, -, hrecent⟩ := Step.turn hstep hturn
  · by_cases hmsg : msg = c.msg
    · obtain rfl := hmsg
      have hsame : found = entry :=
        Option.some.inj (hfind.symm.trans (Recent.find_of_mem (hbounded.purge now).once hlive))
      refine ⟨⟨now + config.dedupeHorizon, found.id⟩, ?_, by rw [hsame], hexpires.trans hlast⟩
      rw [hrecent]
      exact List.mem_append_right _ (List.mem_singleton_self _)
    · refine ⟨entry, ?_, rfl, hexpires⟩
      rw [hrecent]
      exact List.mem_append_left _ (List.mem_filter.mpr ⟨hlive, decide_eq_true hmsg⟩)
  · refine ⟨entry, ?_, rfl, hexpires⟩
    rw [hrecent, Recent.add]
    obtain ⟨head, rest, hpurge⟩ := List.exists_cons_of_ne_nil (List.ne_nil_of_mem hlive)
    split_ifs with hover
    · rw [hpurge] at hlive
      obtain rfl | hrest := List.mem_cons.mp hlive
      · refine absurd ⟨t, c, now, entry, hturn, hfind, by rw [hpurge]; rfl, ?_⟩ hevicts
        rwa [List.length_append, List.length_singleton] at hover
      · rw [hpurge]
        exact List.mem_append_left _ hrest
    · exact List.mem_append_left _ hlive

theorem KeptUntil.run {u : State M} {msg : M} {id : Nat} {expiresAt : ℚ}
    (h : KeptUntil s msg id expiresAt) (hs : (ordered config).Reachable s)
    (hrun : Relation.ReflTransGen (Spares config msg) s u) :
    (ordered config).Reachable u ∧ KeptUntil u msg id expiresAt := by
  induction hrun with
  | refl => exact ⟨hs, h⟩
  | tail _ hstep ih =>
      exact ⟨ih.1.step hstep.1,
        ih.2.step (bounded_inductive.reachable (ordered_reachable ih.1)) hstep⟩

/-- Where the threads come to the map in the order of their readings, deduplication lasts the
horizon: a thread is attached to an entry that expires after its reading, which it renews; and to
every such entry, however often it was renewed, that no thread purged or evicted. The map keeps its
bound. -/
theorem dedupe_lasts_the_horizon (h : (ordered config).Reachable s) :
    s.recent.length ≤ config.dedupeMaxEntries ∧
    (∀ s' t c now id, (ordered config).step s s' → Turn s s' t c now →
      s'.submitter t = .leaving c id →
        (∃ entry, (c.msg, entry) ∈ s.recent ∧ entry.id = id ∧ now < entry.expiresAt) ∧
          (c.msg, ⟨now + config.dedupeHorizon, id⟩) ∈ s'.recent) ∧
    ∀ msg entry, (msg, entry) ∈ s.recent → ∀ u, Relation.ReflTransGen (Spares config msg) s u →
      ∀ u' t c now, (ordered config).step u u' → Turn u u' t c now → c.msg = msg →
        now < entry.expiresAt → u'.submitter t = .leaving c entry.id := by
  refine ⟨(bounded_inductive.reachable (ordered_reachable h)).length, ?_, ?_⟩
  · intro s' t c now id hstep hturn hleaving
    obtain ⟨entry, hfind, hattached, hrecent⟩ | ⟨-, hputting, -⟩ := Step.turn hstep.1 hturn
    · obtain ⟨-, rfl⟩ := Submitter.leaving.inj (hattached.symm.trans hleaving)
      have hmem := Recent.mem_of_find hfind
      refine ⟨⟨entry, Recent.mem_of_mem_purge hmem, rfl,
        (aged_inductive.reachable h).lt_of_mem_purge hmem⟩, ?_⟩
      rw [hrecent]
      exact List.mem_append_right _ (List.mem_singleton_self _)
    · exact nomatch hputting.symm.trans hleaving
  · rintro msg entry hentry u hrun u' t c now hstep hturn rfl hnow
    obtain ⟨hu, kept, hkept, hid, hexpires⟩ := KeptUntil.run ⟨entry, hentry, rfl, le_refl _⟩ h hrun
    have hbounded := bounded_inductive.reachable (ordered_reachable hu)
    have hlive : (c.msg, kept) ∈ u.recent.purge now :=
      Recent.mem_purge hkept (hnow.trans_le hexpires)
    have hfound := Recent.find_of_mem (hbounded.purge now).once hlive
    obtain ⟨found, hfind, hattached, -⟩ | ⟨hfind, -, -⟩ := Step.turn hstep.1 hturn
    · obtain rfl : found = kept := Option.some.inj (hfind.symm.trans hfound)
      rw [hattached, hid]
    · exact nomatch hfind.symm.trans hfound

end Ordered

/-- While the map is empty, whoever has a turn has it in order. -/
theorem inOrder_of_empty (h : s.recent = []) (s' : State M) : InOrder config s s' := by
  intro t c now _ x hx
  rw [h] at hx
  exact nomatch hx

/-- A digest is submitted; to its entry a caller is attached for an hour. -/
theorem entry_attaches_for_an_hour :
    ∃ s : State Nat, s.recent = [(7, ⟨0 + 3600, 0⟩)] ∧
      ∀ u, Relation.ReflTransGen (Spares ⟨3600, 65536⟩ 7) s u → ∀ u' t c now,
          (ordered ⟨3600, 65536⟩).step u u' → Turn u u' t c now → c.msg = 7 → now < 0 + 3600 →
          u'.submitter t = .leaving c 0 := by
  have h : (ordered (M := Nat) ⟨3600, 65536⟩).Reachable (.start Nat) := .init rfl
  replace h := h.step ⟨.submitter 0 (.call ⟨7, true⟩), inOrder_of_empty rfl _⟩
  replace h := h.step ⟨.submitter 0 (.unfailed rfl), inOrder_of_empty rfl _⟩
  replace h := h.step ⟨.submitter 0 (.admitted nofun), inOrder_of_empty rfl _⟩
  replace h := h.step ⟨.submitter 0 (.clock 0), inOrder_of_empty rfl _⟩
  replace h := h.step ⟨.acquire 0 rfl rfl, inOrder_of_empty rfl _⟩
  replace h := h.step ⟨.create 0 rfl rfl, inOrder_of_empty rfl _⟩
  obtain ⟨-, -, hattached⟩ := dedupe_lasts_the_horizon h
  exact ⟨_, rfl, hattached 7 ⟨0 + 3600, 0⟩ (List.mem_singleton_self _)⟩

deriving instance DecidableEq for Entry

/-- Thread 0 reads the clock, thread 1 reads it ten seconds later and comes to the map first: the
entry of thread 0, which expires first, stands behind the other's. -/
theorem expired_entry_stands : ∃ s : State Nat, (system ⟨3600, 65536⟩).Reachable s ∧
    s.submitter 2 = .locked ⟨7, true⟩ 3605 ∧ s.recent = [(8, ⟨3610, 0⟩), (7, ⟨3600, 1⟩)] := by
  have h : (system (M := Nat) ⟨3600, 65536⟩).Reachable (.start Nat) := .init rfl
  -- thread 0 reads the clock at 0, thread 1 at 10
  replace h := h.step (.submitter 0 (.call ⟨7, true⟩))
  replace h := h.step (.submitter 0 (.unfailed rfl))
  replace h := h.step (.submitter 0 (.admitted nofun))
  replace h := h.step (.submitter 0 (.clock 0))
  replace h := h.step (.submitter 1 (.call ⟨8, true⟩))
  replace h := h.step (.submitter 1 (.unfailed rfl))
  replace h := h.step (.submitter 1 (.admitted nofun))
  replace h := h.step (.submitter 1 (.clock 10))
  -- thread 1 has its turn first
  replace h := h.step (.acquire 1 rfl rfl)
  replace h := h.step (.create 1 rfl rfl)
  replace h := h.step (.put 1 rfl)
  replace h := h.step (.release 1 rfl)
  replace h := h.step (.acquire 0 rfl rfl)
  replace h := h.step (.create 0 rfl (by decide +kernel))
  replace h := h.step (.put 0 rfl)
  replace h := h.step (.release 0 rfl)
  -- thread 2 submits the digest of thread 0 at 3605
  replace h := h.step (.submitter 2 (.call ⟨7, true⟩))
  replace h := h.step (.submitter 2 (.unfailed rfl))
  replace h := h.step (.submitter 2 (.admitted nofun))
  replace h := h.step (.submitter 2 (.clock 3605))
  replace h := h.step (.acquire 2 rfl rfl)
  exact ⟨_, h, rfl, by decide +kernel⟩

/-- A caller is attached to an entry that has expired. -/
theorem attached_to_expired_entry :
    ¬∀ (config : Config) (s s' : State Nat) (t : Tid) (c : Call Nat) (now : ℚ) (id : Nat),
      (system config).Reachable s → Step config s s' →
        Turn s s' t c now → s'.submitter t = .leaving c id →
        ∃ entry, (c.msg, entry) ∈ s.recent ∧ entry.id = id ∧ now < entry.expiresAt := by
  intro hclaim
  obtain ⟨s, hs, hturn, hrecent⟩ := expired_entry_stands
  have hfind : (s.recent.purge 3605).find 7 = some ⟨3600, 1⟩ := by
    rw [hrecent]
    decide +kernel
  have hleaving := s.setSubmitter_self 2 (.leaving ⟨7, true⟩ 1)
  obtain ⟨entry, hentry, -, hnow⟩ :=
    hclaim ⟨3600, 65536⟩ s _ 2 ⟨7, true⟩ 3605 1 hs (.attach 2 hturn hfind)
    ⟨hturn, fun h => nomatch hleaving.symm.trans h⟩ hleaving
  rw [hrecent] at hentry
  obtain hother | hsame := List.mem_cons.mp hentry
  · exact absurd (congrArg Prod.fst hother) (show (7 : Nat) ≠ 8 by decide)
  · obtain rfl : entry = ⟨3600, 1⟩ := congrArg Prod.snd (List.mem_singleton.mp hsame)
    exact absurd hnow (by decide +kernel)

end OtsServer.Aggregator
