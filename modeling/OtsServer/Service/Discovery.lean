import OtsServer.Service.Blocks
import OtsServer.Service.Runs
import OtsServer.Service.Json
import Mathlib.Data.List.DropRight

/-!
# Discovery on a fixed chain

A discovery rolls the known blocks back to the highest one that the node has too and reads on
to the node's tip. Only the newest known block is compared, so the blocks below it are the
node's when they are its ancestors. A discovery that raises changes nothing.
-/

namespace OtsServer.Service

open Prog (Sees)

/-! ## Chains -/

/-- What a block's hash commits to. -/
structure Headers where
  parent : Bytes → Bytes
  height : Bytes → Int

/-- The best chain of a node: the hash at each height from 0 to the tip. -/
structure Chain where
  tip : Nat
  hash : Int → Bytes

namespace Chain

def at? (c : Chain) (height : Int) : Option Bytes :=
  if 0 ≤ height ∧ height ≤ c.tip then some (c.hash height) else none

/-- The block is the chain's at its height. -/
def Has (c : Chain) (k : KnownBlock) : Prop := c.at? k.height = some k.hash

instance (c : Chain) : DecidablePred c.Has := fun _ => inferInstanceAs (Decidable (_ = _))

/-- The chain's blocks from a height on, `n` of them. -/
def blocksFrom (c : Chain) (height : Int) (n : Nat) : List KnownBlock :=
  (List.range n).map fun i : Nat => ⟨height + i, c.hash (height + i)⟩

/-- The chain's blocks of two heights and between them. -/
def blocks (c : Chain) (low high : Int) : List KnownBlock := c.blocksFrom low (high + 1 - low).toNat

/-- The hashes are those of blocks at their heights, each the parent of the next. -/
structure Of (headers : Headers) (c : Chain) : Prop where
  height : ∀ h : Int, 0 ≤ h → h ≤ c.tip → headers.height (c.hash h) = h
  parent : ∀ h : Int, 0 ≤ h → h < c.tip → headers.parent (c.hash (h + 1)) = c.hash h

/-- The node answers from the chain. -/
structure Answers (c : Chain) (env : Env) : Prop where
  best : ∀ n, env.getbestblockhash n = .ok (c.hash c.tip)
  count : ∀ n, env.getblockcount n = .ok c.tip
  hash : ∀ n h, env.getblockhash n h = match c.at? h with
    | some hash => .ok hash
    | none => .error .indexError

/-- The chain does not change while the call runs, which is given the rounds it needs. -/
structure Undisturbed (c : Chain) (env : Env) : Prop where
  answers : c.Answers env
  patience : ∀ n, c.tip + 2 ≤ env.patience n

end Chain

/-- The heights go up by one. -/
def Contiguous (blocks : List KnownBlock) : Prop :=
  blocks.IsChain fun a b => b.height = a.height + 1

/-- The blocks are at their heights, each the parent of the next. -/
structure Linked (headers : Headers) (blocks : List KnownBlock) : Prop where
  contiguous : Contiguous blocks
  parent : blocks.IsChain fun a b => headers.parent b.hash = a.hash
  height : ∀ k ∈ blocks, headers.height k.hash = k.height ∧ 0 ≤ k.height

/-- The known blocks up to the highest one that is on the chain. -/
def common (c : Chain) (known : List KnownBlock) : List KnownBlock :=
  known.rdropWhile fun k => ¬ c.Has k

/-- The chain's blocks above that one; the tip alone when there is none. -/
def missing (c : Chain) (known : List KnownBlock) : List KnownBlock :=
  match (common c known).getLast? with
  | some k => c.blocks (k.height + 1) c.tip
  | none => [⟨c.tip, c.hash c.tip⟩]

section Common

variable {c : Chain} {known older : List KnownBlock} {k : KnownBlock}

theorem common_concat_of_has (h : c.Has k) : common c (older ++ [k]) = older ++ [k] :=
  List.rdropWhile_concat_neg _ _ _ (by rw [decide_eq_true_iff]; exact not_not.mpr h)

theorem common_concat_of_not_has (h : ¬ c.Has k) : common c (older ++ [k]) = common c older :=
  List.rdropWhile_concat_pos _ _ _ (decide_eq_true h)

theorem has_of_common_getLast? (h : (common c known).getLast? = some k) : c.Has k := by
  have hne : common c known ≠ [] := fun hnil => by
    rw [hnil] at h
    exact nomatch h
  rw [List.getLast?_eq_some_getLast hne] at h
  have hnot := List.rdropWhile_last_not (fun k => ¬ c.Has k) known hne
  rw [decide_eq_true_iff, not_not] at hnot
  exact Option.some.inj h ▸ hnot

theorem Chain.has_iff : c.Has k ↔ 0 ≤ k.height ∧ k.height ≤ c.tip ∧ c.hash k.height = k.hash := by
  rw [Has, at?]
  split_ifs with h
  · simp [h]
  · exact ⟨fun hsome => (nomatch hsome), fun ⟨hlow, hhigh, _⟩ => absurd ⟨hlow, hhigh⟩ h⟩

theorem Chain.Has.eq (h : c.Has k) : k = ⟨k.height, c.hash k.height⟩ := by
  rw [(has_iff.mp h).2.2]

theorem Chain.blocks_eq_nil (c : Chain) (high : Int) : c.blocks (high + 1) high = [] := by
  rw [blocks, sub_self]
  rfl

theorem Chain.blocks_eq_cons {low high : Int} (h : low ≤ high) :
    c.blocks low high = ⟨low, c.hash low⟩ :: c.blocks (low + 1) high := by
  have hn : (high + 1 - low).toNat = (high + 1 - (low + 1)).toNat + 1 := by omega
  rw [blocks, blocks, hn, blocksFrom, List.range_succ_eq_map, List.map_cons,
    List.map_map, blocksFrom]
  simp only [Nat.cast_zero, add_zero, List.cons.injEq, true_and]
  refine List.map_congr_left fun i _ => ?_
  simp only [Function.comp_apply, Nat.cast_succ, KnownBlock.mk.injEq]
  exact ⟨by omega, by congr 1; omega⟩

end Common

/-! ## The rounds -/

/-- What a program does to the known blocks. -/
abbrev Knows {α : Type} (m : M α) (Q : α → List KnownBlock → Prop)
    (E : Exc → List KnownBlock → Prop) (known : List KnownBlock) : Prop :=
  Sees (fun w : World => w.stamper.knownBlocks) m Q E known

section Rounds

variable {env : Env} {c : Chain} {E : Exc → List KnownBlock → Prop} {known : List KnownBlock}

theorem knows_ask {α : Type} {f : Nat → Except Exc α} {Q : α → List KnownBlock → Prop}
    (hok : ∀ n a, f n = .ok a → Q a known) (herr : ∀ n e, f n = .error e → E e known) :
    Knows (ask f) Q E known := by
  refine ⟨?_⟩
  rintro w rfl
  cases h : f w.tick with
  | ok a => exact Prog.wp_of_ok (t := { w with tick := w.tick + 1 }) (by rw [ask, h]) (hok _ a h)
  | error e =>
      exact Prog.wp_of_error (t := { w with tick := w.tick + 1 }) (by rw [ask, h]) (herr _ e h)

theorem knows_answer {α : Type} {f : Nat → Except Exc α} {a : α} {Q : α → List KnownBlock → Prop}
    (hf : ∀ n, f n = .ok a) (h : Q a known) : Knows (ask f) Q E known := by
  refine knows_ask (fun n b hb => ?_) fun n e he => ?_
  · rw [hf] at hb
    exact Except.ok.inj hb ▸ h
  · rw [hf] at he
    exact nomatch he

/-- A value of the whole state. -/
theorem knows_gets {α : Type} {f : World → α} {Q : α → List KnownBlock → Prop}
    (h : ∀ w, Q (f w) known) : Knows (Prog.gets f) Q E known := by
  refine ⟨?_⟩
  rintro w rfl
  exact h w

theorem knows_knownBlocks {Q : List KnownBlock → List KnownBlock → Prop} (h : Q known known) :
    Knows (Prog.gets fun w : World => w.stamper.knownBlocks) Q E known :=
  .gets (g := id) (fun _ => rfl) h

theorem knows_setKnownBlocks {f : List KnownBlock → List KnownBlock}
    {Q : Unit → List KnownBlock → Prop} (h : Q () (f known)) : Knows (setKnownBlocks f) Q E known :=
  .modify (g := f) (fun _ => rfl) h

theorem knows_blockHashAt (hanswers : c.Answers env) (height : Int)
    {Q : Option Bytes → List KnownBlock → Prop} (h : Q (c.at? height) known) :
    Knows (blockHashAt env height) Q E known := by
  refine .handle (.bind (knows_ask (fun n hash hhash => .pure ?_) fun n e he => ?_))
  · rw [hanswers.hash] at hhash
    cases hat : c.at? height with
    | none =>
        rw [hat] at hhash
        exact nomatch hhash
    | some hash' =>
        rw [hat] at hhash h
        exact Except.ok.inj hhash ▸ h
  · rw [hanswers.hash] at he
    cases hat : c.at? height with
    | none =>
        rw [hat] at he h
        obtain rfl := Except.error.inj he
        exact .pure h
    | some hash =>
        rw [hat] at he
        exact nomatch he

/-- What the chain does not have is dropped, from the newest on. -/
theorem knows_detectReorgs (hanswers : c.Answers env) {Q : Unit → List KnownBlock → Prop}
    (h : Q () (common c known)) : Knows (detectReorgs env) Q E known := by
  refine .bind (knows_knownBlocks ?_)
  refine .loop (fun n _ blocks => blocks.length < n ∧ common c blocks = common c known)
    (fun n _ blocks hinv => ?_)
    (fun _ blocks hinv => absurd hinv.1 (Nat.not_lt_zero _)) _ () ⟨Nat.lt_succ_self _, rfl⟩
  obtain ⟨hlength, hcommon⟩ := hinv
  refine .bind (knows_knownBlocks ?_)
  cases hlast : blocks.getLast? with
  | none =>
      obtain rfl := List.getLast?_eq_none_iff.mp hlast
      refine .pure ?_
      rwa [← hcommon] at h
  | some tip =>
      obtain ⟨older, rfl⟩ := List.getLast?_eq_some_iff.mp hlast
      refine .bind (knows_blockHashAt hanswers tip.height
          (.ite (fun hon => .pure ?_) fun hoff => ?_))
      · rwa [← hcommon, common_concat_of_has hon] at h
      · refine .bind (knows_setKnownBlocks (.pure ?_))
        rw [common_concat_of_not_has hoff] at hcommon
        rw [List.dropLast_concat]
        exact ⟨by simpa using hlength, hcommon⟩

theorem knows_atBestBlock (hanswers : c.Answers env) {Q : Bool → List KnownBlock → Prop}
    (h : Q (known.getLast?.any fun tip => c.hash c.tip = tip.hash) known) :
    Knows (atBestBlock env) Q E known := by
  refine .bind (knows_knownBlocks ?_)
  cases hlast : known.getLast? with
  | none =>
      rw [hlast] at h
      exact .pure h
  | some tip =>
      rw [hlast] at h
      exact .bind (knows_answer hanswers.best (.pure h))

theorem knows_nextHeight (hanswers : c.Answers env) {Q : Int → List KnownBlock → Prop}
    (h : Q ((known.getLast?.map fun tip => tip.height + 1).getD c.tip) known) :
    Knows (nextHeight env) Q E known := by
  refine .bind (knows_knownBlocks ?_)
  cases hlast : known.getLast? with
  | none =>
      rw [hlast] at h
      exact knows_answer hanswers.count h
  | some tip =>
      rw [hlast] at h
      exact .pure h

/-- Where a scan of the chain stands: it has read on to a height. -/
structure Reads (c : Chain) (known : List KnownBlock) (read now : List KnownBlock) (height : Int) :
    Prop where
  low : 0 ≤ height
  high : height ≤ c.tip
  blocks : now = common c known ++ read
  last : now.getLast? = some ⟨height, c.hash height⟩
  missing : read ++ c.blocks (height + 1) c.tip = missing c known

/-- Before a round, with `n` rounds left: nothing is done yet, or the scan has read on. -/
def Scanning (c : Chain) (known : List KnownBlock) (n : Nat) (read now : List KnownBlock) : Prop :=
  (now = known ∧ read = [] ∧ c.tip + 2 ≤ n) ∨
    ∃ height : Int, Reads c known read now height ∧ ((c.tip : Int) - height).toNat + 1 ≤ n

/-- One block more is read. -/
theorem Reads.next {read now : List KnownBlock} {height : Int} (h : Reads c known read now height)
    (hlt : height < c.tip) :
    Reads c known (read ++ [⟨height + 1, c.hash (height + 1)⟩])
      (now ++ [⟨height + 1, c.hash (height + 1)⟩]) (height + 1) where
  low := by have := h.low; omega
  high := hlt
  blocks := by rw [h.blocks, List.append_assoc]
  last := List.getLast?_concat ..
  missing := by
    rw [← h.missing, Chain.blocks_eq_cons (show height + 1 ≤ c.tip from hlt),
      List.append_assoc]; rfl

/-- The rest of a round, once the known blocks are rolled back. -/
abbrev readOn (env : Env) (read : List KnownBlock) : M (List KnownBlock ⊕ List KnownBlock) := do
  let height ← nextHeight env
  let hash ← blockHashAt env height
  match hash with
  | none => pure (.inl read)
  | some hash => do
      setKnownBlocks (· ++ [⟨height, hash⟩])
      pure (.inl (read ++ [⟨height, hash⟩]))

theorem Reads.readOn (hanswers : c.Answers env) {read now : List KnownBlock}
    {height : Int} {n : Nat} (h : Reads c known read now height) (hn : 1 ≤ n)
    (hleft : ((c.tip : Int) - height).toNat ≤ n) {Q : List KnownBlock → List KnownBlock → Prop} :
    Knows (readOn env read)
      (fun r u => match r with | .inl b => Scanning c known n b u | .inr a => Q a u) E now := by
  refine .bind (knows_nextHeight hanswers ?_)
  rw [h.last]
  refine .bind (knows_blockHashAt hanswers _ ?_)
  change Knows (match c.at? (height + 1) with | none => _ | some hash => _) _ _ _
  have hlow := h.low
  obtain rfl | hlt := h.high.eq_or_lt
  · rw [Chain.at?, if_neg (by omega)]
    exact .pure (.inr ⟨_, h, by omega⟩)
  · rw [Chain.at?, if_pos (by omega)]
    exact .bind (knows_setKnownBlocks (.pure (.inr ⟨_, h.next hlt, by omega⟩)))

theorem readOn_of_nil (hanswers : c.Answers env) {n : Nat} (hn : 1 ≤ n)
    (hnone : common c known = []) {Q : List KnownBlock → List KnownBlock → Prop} :
    Knows (readOn env [])
      (fun r u => match r with | .inl b => Scanning c known n b u | .inr a => Q a u) E [] := by
  refine .bind (knows_nextHeight hanswers (.bind (knows_blockHashAt hanswers _ ?_)))
  change Knows (match c.at? c.tip with | none => _ | some hash => _) _ _ _
  rw [Chain.at?, if_pos (by omega)]
  refine .bind (knows_setKnownBlocks
      (.pure (.inr ⟨c.tip, ⟨by omega, le_refl _, ?_, rfl, ?_⟩, by omega⟩)))
  · rw [hnone]
    rfl
  · rw [Chain.blocks_eq_nil, missing, hnone]
    rfl

/-- The chain's blocks are at their heights, so the tip's hash is the tip's alone. -/
theorem Chain.Of.height_eq_tip {headers : Headers} (hc : c.Of headers) {height : Int}
    (hlow : 0 ≤ height) (hhigh : height ≤ c.tip) (h : c.hash c.tip = c.hash height) :
    height = c.tip := by
  rw [← hc.height height hlow hhigh, ← h, hc.height c.tip (by omega) (le_refl _)]

theorem Chain.has_tip_of_hash_eq {headers : Headers} (hc : c.Of headers) {k : KnownBlock}
    (hheight : headers.height k.hash = k.height) (h : c.hash c.tip = k.hash) :
    c.Has k ∧ k.height = c.tip := by
  have htip : k.height = c.tip := by rw [← hheight, ← h, hc.height c.tip (by omega) (le_refl _)]
  exact ⟨has_iff.mpr ⟨by omega, by omega, htip ▸ h⟩, htip⟩

/-- A round of the scan. -/
theorem knows_discover {headers : Headers} (hanswers : c.Answers env) (hc : c.Of headers)
    (hknown : ∀ k ∈ known, headers.height k.hash = k.height) {n : Nat} {read now : List KnownBlock}
    (h : Scanning c known (n + 1) read now) :
    Knows (discover env read) (fun r u => match r with
      | .inl b => Scanning c known n b u
      | .inr a => a = missing c known ∧ u = common c known ++ missing c known) E now := by
  refine .bind (knows_atBestBlock hanswers ?_)
  obtain ⟨rfl, rfl, hn⟩ | ⟨height, hreads, hn⟩ := h
  · -- nothing is done yet: the known tip is the node's, or the known blocks are rolled back
    refine .ite (fun hbest => .pure ?_) fun _ => .bind (knows_detectReorgs hanswers ?_)
    · obtain ⟨tip, hlast, htip⟩ := (Option.any_eq_true _ _).mp hbest
      obtain ⟨older, rfl⟩ := List.getLast?_eq_some_iff.mp hlast
      obtain ⟨hhas, hheight⟩ :=
        Chain.has_tip_of_hash_eq hc (hknown tip (by simp)) (of_decide_eq_true htip)
      have hmissing : missing c (older ++ [tip]) = [] := by
        rw [missing, common_concat_of_has hhas, List.getLast?_concat]
        change c.blocks (tip.height + 1) c.tip = []
        rw [hheight, Chain.blocks_eq_nil]
      rw [hmissing, common_concat_of_has hhas]
      exact ⟨rfl, (List.append_nil _).symm⟩
    · cases hlast : (common c now).getLast? with
      | none =>
          have hnil := List.getLast?_eq_none_iff.mp hlast
          rw [hnil]
          exact readOn_of_nil hanswers (by omega) hnil
      | some k =>
          have hhas := has_of_common_getLast? hlast
          obtain ⟨hlow, hhigh, _⟩ := Chain.has_iff.mp hhas
          have hlastAt : (common c now).getLast? = some ⟨k.height, c.hash k.height⟩ := by
            rw [hlast, hhas.eq]
          have hmissing : [] ++ c.blocks (k.height + 1) c.tip = missing c now := by
            rw [missing, hlast]
            rfl
          have hreads : Reads c now [] (common c now) k.height :=
            ⟨hlow, hhigh, (List.append_nil _).symm, hlastAt, hmissing⟩
          exact hreads.readOn hanswers (by omega) (by omega)
  · rw [hreads.last]
    refine .ite (fun hbest => .pure ?_) fun hbest => .bind (knows_detectReorgs hanswers ?_)
    · have heq := hc.height_eq_tip hreads.low hreads.high (of_decide_eq_true hbest)
      have hmissing := hreads.missing
      rw [heq, Chain.blocks_eq_nil, List.append_nil] at hmissing
      exact ⟨hmissing, hmissing ▸ hreads.blocks⟩
    · have hne : height ≠ c.tip := by
        rintro rfl
        exact hbest (decide_eq_true rfl)
      obtain ⟨older, hnow⟩ := List.getLast?_eq_some_iff.mp hreads.last
      have hhas : c.Has ⟨height, c.hash height⟩ := Chain.has_iff.mpr ⟨hreads.low, hreads.high, rfl⟩
      have hcommon : common c now = now := by rw [hnow, common_concat_of_has hhas]
      have := hreads.high
      rw [hcommon]
      exact hreads.readOn hanswers (by omega) (by omega)

/-- On a chain that does not change, a discovery returns, with the blocks that are missing. -/
theorem knows_updateFromProxy {headers : Headers} (hc : c.Of headers)
    (hundisturbed : c.Undisturbed env) (hknown : ∀ k ∈ known, headers.height k.hash = k.height) :
    Knows (updateFromProxy env) (fun new now => new = missing c known ∧
        now = common c known ++ missing c known) E known := by
  refine .bind (knows_knownBlocks (.bind (knows_gets fun w => .bind ?_)))
  refine Sees.catching (Q := fun new now => Knows (do
      let calls ← Prog.gets (·.tick)
      note fun h => { h with discovery := calls - 1 }
      pure new) (fun new now => new = missing c known ∧
          now = common c known ++ missing c known) E now) ?_
  refine .loop (Scanning c known) (fun n read now h => ?_) (fun read now h => ?_) _ []
    (.inl ⟨rfl, rfl, hundisturbed.patience _⟩)
  · have hround := knows_discover (E := fun _ _ => False) hundisturbed.answers hc hknown h
    refine hround.mono (fun r u hr => ?_) fun _ _ hfalse => hfalse.elim
    cases r with
    | inl read => exact hr
    | inr new =>
        exact .bind (knows_gets fun _ => .bind (.modify (g := id) (fun _ => rfl) (.pure hr)))
  · obtain ⟨_, _, hn⟩ | ⟨_, _, hn⟩ := h
    · exact absurd hn (by omega)
    · exact absurd hn (by omega)

end Rounds

/-! ## What a discovery leaves -/

theorem knows_trivial {α : Type} {m : M α} {known : List KnownBlock} :
    Knows m (fun _ _ => True) (fun _ _ => True) known := by
  refine ⟨fun w _ => ?_⟩
  rw [Prog.wp]
  split <;> trivial

/-- A discovery that raises, whatever the node answered, leaves the known blocks as they were. -/
theorem knows_restored (env : Env) (known : List KnownBlock) :
    Knows (updateFromProxy env) (fun _ _ => True) (fun _ now => now = known) known := by
  refine .bind (knows_knownBlocks (.bind (knows_gets fun w => .bind (.catching ?_))))
  refine knows_trivial.mono (fun new now _ => ?_) fun e now _ =>
    ⟨fun n hn => ?_, fun hn => nomatch hn⟩
  · exact .bind (knows_gets fun _ => .bind (.modify (g := id) (fun _ => rfl) (.pure trivial)))
  · obtain rfl := Option.some.inj hn
    exact .bind (knows_setKnownBlocks (.raise rfl))

section Lists

variable {headers : Headers} {c : Chain} {known : List KnownBlock}

theorem Chain.blocksFrom_succ (c : Chain) (height : Int) (n : Nat) :
    c.blocksFrom height (n + 1) = c.blocksFrom height n ++ [⟨height + n, c.hash (height + n)⟩] := by
  rw [blocksFrom, List.range_succ, List.map_append]
  rfl

theorem Chain.blocksFrom_contiguous (c : Chain) (height : Int) (n : Nat) :
    Contiguous (c.blocksFrom height n) := by
  induction n with
  | zero => exact .nil
  | succ n ih =>
      rw [Contiguous, blocksFrom_succ, List.isChain_append]
      refine ⟨ih, .singleton _, fun a ha b hb => ?_⟩
      cases n with
      | zero => exact nomatch ha
      | succ n =>
          rw [blocksFrom_succ, List.getLast?_concat] at ha
          obtain rfl := Option.some.inj ha
          obtain rfl := Option.some.inj hb
          push_cast
          omega

theorem Chain.mem_blocks {low high : Int} {k : KnownBlock} (hlow : 0 ≤ low) (hhigh : high ≤ c.tip)
    (hk : k ∈ c.blocks low high) : c.Has k := by
  obtain ⟨i, hi, rfl⟩ := List.mem_map.mp hk
  have hlt := List.mem_range.mp hi
  apply has_iff.mpr
  change 0 ≤ low + (i : Int) ∧ low + (i : Int) ≤ c.tip ∧ c.hash (low + i) = c.hash (low + i)
  exact ⟨by omega, by omega, rfl⟩

/-- A known block that is on the chain has its ancestors there. -/
theorem Linked.all_has (hc : c.Of headers) (hlinked : Linked headers known)
    (hlast : ∀ k ∈ known.getLast?, c.Has k) : ∀ k ∈ known, c.Has k := by
  induction known using List.reverseRecOn with
  | nil => exact fun _ hk => nomatch hk
  | append_singleton older b ih =>
      obtain ⟨hcontiguous, _, hstep⟩ := List.isChain_append.mp hlinked.contiguous
      obtain ⟨hparent, _, hlink⟩ := List.isChain_append.mp hlinked.parent
      have hb : c.Has b := hlast b (List.getLast?_concat ..)
      obtain ⟨_, hhigh, hhash⟩ := Chain.has_iff.mp hb
      have holder := ih ⟨hcontiguous, hparent, fun k hk =>
          hlinked.height k (List.mem_append_left _ hk)⟩ fun a ha => by
        have hheight := hstep a ha b rfl
        have hlow := (hlinked.height a (List.mem_append_left _ (List.mem_of_getLast? ha))).2
        have hparent := hc.parent a.height hlow (by omega)
        rw [← hheight, hhash, hlink a ha b rfl] at hparent
        exact Chain.has_iff.mpr ⟨hlow, by omega, hparent.symm⟩
      intro k hk
      obtain hk | hk := List.mem_append.mp hk
      · exact holder k hk
      · exact List.mem_singleton.mp hk ▸ hb

theorem common_isPrefix (c : Chain) (known : List KnownBlock) : common c known <+: known :=
  List.rdropWhile_prefix _ _

theorem Linked.common_has (hc : c.Of headers) (hlinked : Linked headers known) :
    ∀ k ∈ common c known, c.Has k := by
  obtain ⟨dropped, hknown⟩ := common_isPrefix c known
  have hcontiguous := hlinked.contiguous
  have hparent := hlinked.parent
  rw [Contiguous, ← hknown, List.isChain_append] at hcontiguous
  rw [← hknown, List.isChain_append] at hparent
  refine Linked.all_has hc ⟨hcontiguous.1, hparent.1, fun k hk => hlinked.height k ?_⟩ fun k hk =>
    has_of_common_getLast? hk
  exact (common_isPrefix c known).subset hk

/-- What is not common is not on the chain. -/
theorem not_has_of_dropped {dropped : List KnownBlock} (h : common c known ++ dropped = known) :
    ∀ k ∈ dropped, ¬ c.Has k := by
  have hsplit : common c known ++ known.rtakeWhile (fun k => ¬ c.Has k) = known :=
    List.rdropWhile_append_rtakeWhile
  obtain rfl := List.append_cancel_left (h.trans hsplit.symm)
  intro k hk
  exact of_decide_eq_true (List.mem_rtakeWhile_imp (p := fun k => decide (¬ c.Has k)) hk)

theorem Chain.blocks_concat {low high : Int} (h : low ≤ high) :
    c.blocks low high = c.blocks low (high - 1) ++ [⟨high, c.hash high⟩] := by
  have hn : (high + 1 - low).toNat = (high - 1 + 1 - low).toNat + 1 := by omega
  rw [blocks, blocks, hn, blocksFrom_succ]
  have hlast : low + ((high - 1 + 1 - low).toNat : Int) = high := by omega
  rw [hlast]

theorem missing_of_getLast? {k : KnownBlock} (h : (common c known).getLast? = some k) :
    missing c known = c.blocks (k.height + 1) c.tip := by
  rw [missing, h]

theorem missing_of_nil (h : common c known = []) : missing c known = [⟨c.tip, c.hash c.tip⟩] := by
  rw [missing, h]
  rfl

/-- A discovery ends at the tip. -/
theorem getLast?_found (c : Chain) (known : List KnownBlock) :
    (common c known ++ missing c known).getLast? = some ⟨c.tip, c.hash c.tip⟩ := by
  cases hlast : (common c known).getLast? with
  | none =>
      rw [missing_of_nil (List.getLast?_eq_none_iff.mp hlast)]
      exact List.getLast?_concat ..
  | some k =>
      have hhas := has_of_common_getLast? hlast
      rw [missing_of_getLast? hlast]
      obtain heq | hlt := (Chain.has_iff.mp hhas).2.1.eq_or_lt
      · rw [heq, Chain.blocks_eq_nil, List.append_nil, hlast, hhas.eq, heq]
      · rw [Chain.blocks_concat hlt, ← List.append_assoc]
        exact List.getLast?_concat ..

theorem Chain.blocks_head? {low high : Int} {k : KnownBlock} (h : k ∈ (c.blocks low high).head?) :
    k.height = low := by
  obtain hle | hlt := le_or_gt low high
  · rw [blocks_eq_cons hle] at h
    obtain rfl := Option.some.inj h
    rfl
  · have hn : (high + 1 - low).toNat = 0 := by omega
    rw [blocks, hn] at h
    exact nomatch h

theorem Linked.common_contiguous (hlinked : Linked headers known) : Contiguous (common c known) :=
  hlinked.contiguous.prefix (common_isPrefix c known)

/-- The list that a discovery leaves is contiguous. -/
theorem found_contiguous (hcontiguous : Contiguous (common c known)) :
    Contiguous (common c known ++ missing c known) := by
  cases hlast : (common c known).getLast? with
  | none =>
      have hnil := List.getLast?_eq_none_iff.mp hlast
      rw [missing_of_nil hnil, hnil]
      exact .singleton _
  | some k =>
      rw [missing_of_getLast? hlast]
      refine List.isChain_append.mpr ⟨hcontiguous, Chain.blocksFrom_contiguous _ _ _,
        fun a ha b hb => ?_⟩
      rw [hlast] at ha
      obtain rfl := Option.some.inj ha
      exact Chain.blocks_head? hb

theorem missing_has (c : Chain) (known : List KnownBlock) : ∀ k ∈ missing c known, c.Has k := by
  intro b hb
  cases hlast : (common c known).getLast? with
  | none =>
      rw [missing_of_nil (List.getLast?_eq_none_iff.mp hlast)] at hb
      obtain rfl := List.mem_singleton.mp hb
      exact Chain.has_iff.mpr ⟨Int.natCast_nonneg _, le_refl _, rfl⟩
  | some k =>
      rw [missing_of_getLast? hlast] at hb
      have hlow := (Chain.has_iff.mp (has_of_common_getLast? hlast)).1
      exact Chain.mem_blocks (by omega) (le_refl _) hb

/-- Heights go up along a contiguous list. -/
theorem Contiguous.pairwise {blocks : List KnownBlock} (h : Contiguous blocks) :
    blocks.Pairwise fun a b => a.height < b.height := by
  have hlt : blocks.IsChain fun a b => a.height < b.height := by
    refine List.IsChain.imp (fun a b hstep => ?_) h
    rw [hstep]
    exact Int.lt_succ _
  exact hlt.pairwise

/-- The blocks that are kept are the known ones at or below the highest common one. -/
theorem Linked.mem_common (hc : c.Of headers) (hlinked : Linked headers known)
    {k : KnownBlock} (hk : k ∈ known) :
    k ∈ common c known ↔ ∃ k' ∈ known, c.Has k' ∧ k.height ≤ k'.height := by
  obtain ⟨dropped, hknown⟩ := common_isPrefix c known
  have hdropped := not_has_of_dropped hknown
  constructor
  · intro hkept
    exact ⟨k, hk, hlinked.common_has hc k hkept, le_refl _⟩
  · rintro ⟨k', hk', hhas, hle⟩
    rw [← hknown] at hk hk'
    have hkept := (List.mem_append.mp hk').resolve_right fun hmem => hdropped k' hmem hhas
    refine (List.mem_append.mp hk).resolve_right fun hmem => ?_
    have hpairwise := hlinked.contiguous.pairwise
    rw [← hknown] at hpairwise
    have hlt := (List.pairwise_append.mp hpairwise).2.2 k' hkept k hmem
    exact absurd hlt (not_lt.mpr hle)

/-- The highest known block that is on the chain is the newest that is kept. -/
theorem Linked.common_getLast? (hlinked : Linked headers known) (hc : c.Of headers) {k : KnownBlock}
    (hk : k ∈ known) (hhas : c.Has k) (hhighest : ∀ k' ∈ known, c.Has k' → k'.height ≤ k.height) :
    (common c known).getLast? = some k := by
  have hkept : k ∈ common c known := (hlinked.mem_common hc hk).mpr ⟨k, hk, hhas, le_refl _⟩
  obtain ⟨last, hlast⟩ : ∃ last, (common c known).getLast? = some last :=
    Option.isSome_iff_exists.mp (List.getLast?_isSome.mpr (List.ne_nil_of_mem hkept))
  have hle := hhighest last ((common_isPrefix c known).subset (List.mem_of_getLast? hlast))
    (has_of_common_getLast? hlast)
  obtain ⟨older, hcommon⟩ := List.getLast?_eq_some_iff.mp hlast
  have hpairwise := (hlinked.common_contiguous (c := c)).pairwise
  rw [hcommon] at hkept hpairwise
  obtain hmem | hmem := List.mem_append.mp hkept
  · have hlt := (List.pairwise_append.mp hpairwise).2.2 k hmem last (List.mem_singleton_self _)
    exact absurd hlt (not_lt.mpr hle)
  · rw [hlast, List.mem_singleton.mp hmem]

end Lists

/-! ## Exactness -/

section Exact

variable {headers : Headers} {c : Chain} {env : Env} {w w' : World} {e : Exc}

theorem Chain.Undisturbed.returns (hundisturbed : c.Undisturbed env) (hc : c.Of headers)
    (hknown : Linked headers w.stamper.knownBlocks) :
    ∃ w', updateFromProxy env w = (.ok (missing c w.stamper.knownBlocks), w') ∧
      w'.stamper.knownBlocks = common c w.stamper.knownBlocks ++
        missing c w.stamper.knownBlocks := by
  have hruns := (knows_updateFromProxy (E := fun _ _ => False) hc hundisturbed fun k hk =>
      (hknown.height k hk).1).out w rfl
  rw [Prog.wp] at hruns
  split at hruns
  next new w' hrun =>
    obtain ⟨rfl, hnow⟩ := hruns
    exact ⟨w', hrun, hnow⟩
  next => exact hruns.elim

theorem known_of_error (h : updateFromProxy env w = (.error e, w')) :
    w'.stamper.knownBlocks = w.stamper.knownBlocks := by
  have hruns := (knows_restored env w.stamper.knownBlocks).out w rfl
  rw [Prog.wp, h] at hruns
  exact hruns

/-- A discovery on a chain that does not change, from known blocks that are linked, returns
the blocks above the highest common one and keeps those up to it; one that raises leaves the
known blocks to the next, which returns the same. -/
theorem discovery_exact (hc : c.Of headers) (hknown : Linked headers w.stamper.knownBlocks) :
    ∃ kept new : List KnownBlock,
      (∀ env, c.Undisturbed env →
        ∃ w', updateFromProxy env w = (.ok new, w') ∧ w'.stamper.knownBlocks = kept ++ new) ∧
      (Contiguous (kept ++ new) ∧ (∀ k ∈ kept ++ new, c.Has k) ∧
        (kept ++ new).getLast? = some ⟨c.tip, c.hash c.tip⟩) ∧
      (kept <+: w.stamper.knownBlocks ∧ ∀ k ∈ w.stamper.knownBlocks,
        k ∈ kept ↔ ∃ k' ∈ w.stamper.knownBlocks, c.Has k' ∧ k.height ≤ k'.height) ∧
      (∀ k ∈ w.stamper.knownBlocks, c.Has k →
        (∀ k' ∈ w.stamper.knownBlocks, c.Has k' → k'.height ≤ k.height) →
          new = c.blocks (k.height + 1) c.tip) ∧
      (∀ env e w', updateFromProxy env w = (.error e, w') →
        w'.stamper.knownBlocks = w.stamper.knownBlocks ∧
          ∀ env', c.Undisturbed env' → ∃ w'', updateFromProxy env' w' = (.ok new, w'') ∧
            w''.stamper.knownBlocks = kept ++ new) := by
  refine ⟨common c w.stamper.knownBlocks, missing c w.stamper.knownBlocks, ?_,
    ⟨?_, ?_, ?_⟩, ⟨?_, ?_⟩, ?_, ?_⟩
  · intro env hundisturbed
    exact hundisturbed.returns hc hknown
  · exact found_contiguous hknown.common_contiguous
  · intro k hk
    exact (List.mem_append.mp hk).elim (hknown.common_has hc k) (missing_has c _ k)
  · exact getLast?_found c _
  · exact common_isPrefix c _
  · intro k hk
    exact hknown.mem_common hc hk
  · intro k hk hhas hhighest
    exact missing_of_getLast? (hknown.common_getLast? hc hk hhas hhighest)
  · intro env e w' herror
    have hsame := known_of_error herror
    refine ⟨hsame, fun env' hundisturbed => ?_⟩
    rw [← hsame] at hknown ⊢
    exact hundisturbed.returns hc hknown

end Exact

namespace Fork

/-- A block's hash is one byte: its low half is the height, its high half the branch. -/
def headers : Headers where
  parent := fun hash => hash.map fun b => b % 16 - 1
  height := fun hash => (hash.headI % 16).toNat

/-- Three blocks. -/
def chain : Chain := ⟨2, fun height => [UInt8.ofNat height.toNat]⟩

/-- A node on that chain. -/
def env : Env :=
  { Env.quiet Lib.idle with
    getbestblockhash := fun _ => .ok (chain.hash chain.tip)
    getblockcount := fun _ => .ok chain.tip
    getblockhash := fun _ h => match chain.at? h with
      | some hash => .ok hash
      | none => .error .indexError }

/-- A process that knows the blocks. -/
def knowing (known : List KnownBlock) : World :=
  let start := World.empty (.standard false)
  { start with stamper := { start.stamper with knownBlocks := known } }

/-- The genesis block and a block of another branch. -/
def branched : World := knowing [⟨0, [0x00]⟩, ⟨1, [0x11]⟩]

theorem chain_of : chain.Of headers where
  height := by
    intro h hlow hhigh
    obtain ⟨n, rfl⟩ := Int.eq_ofNat_of_zero_le hlow
    have hn : n < 3 := by
      change (n : Int) ≤ 2 at hhigh
      omega
    interval_cases n <;> rfl
  parent := by
    intro h hlow hhigh
    obtain ⟨n, rfl⟩ := Int.eq_ofNat_of_zero_le hlow
    have hn : n < 2 := by
      change (n : Int) < 2 at hhigh
      omega
    interval_cases n <;> rfl

theorem env_undisturbed : chain.Undisturbed env where
  answers := ⟨fun _ => rfl, fun _ => rfl, fun _ _ => rfl⟩
  patience := fun _ => show 2 + 2 ≤ 8 by decide

theorem branched_linked : Linked headers branched.stamper.knownBlocks where
  contiguous := by
    rw [Contiguous]
    decide
  parent := by decide
  height := by decide

/-- The block of the other branch is dropped. -/
theorem branched_found : ∃ w', updateFromProxy env branched = (.ok [⟨1, [1]⟩, ⟨2, [2]⟩], w') := by
  obtain ⟨kept, new, hreturns, -, -, hnew, -⟩ := discovery_exact chain_of branched_linked
  obtain rfl : new = chain.blocks 1 2 := hnew ⟨0, [0x00]⟩ (by decide) (by decide) (by decide)
  obtain ⟨w', hrun, -⟩ := hreturns env env_undisturbed
  exact ⟨w', hrun⟩

end Fork

/-- Only the newest known block is compared: below one that is on the chain, a block of
another branch stays. -/
theorem stale_block_may_stay :
    ¬ ∀ (headers : Headers) (c : Chain) (env : Env) (w w' : World) (new : List KnownBlock),
      c.Of headers → c.Undisturbed env → Contiguous w.stamper.knownBlocks →
      (∀ k ∈ w.stamper.knownBlocks, headers.height k.hash = k.height ∧ 0 ≤ k.height) →
      updateFromProxy env w = (.ok new, w') → ∀ k ∈ w'.stamper.knownBlocks, c.Has k := by
  intro h
  have hstays := h Fork.headers Fork.chain Fork.env
    (Fork.knowing [⟨0, [0x20]⟩, ⟨1, [0x01]⟩]) _ _ Fork.chain_of Fork.env_undisturbed
    (by rw [Contiguous]; decide) (by decide) rfl ⟨0, [0x20]⟩ (by decide)
  exact absurd hstays (by decide)

end OtsServer.Service
