import OtsServer.Service.Discovery
import OtsServer.Service.Earned
import OtsServer.Service.Versions

/-!
# Trees called mature

A tree is called mature by its height alone: `__save_mature_trees` never looks at a hash. What makes
it safe is that a block which replaces another is queued, that the tree of its height is pending
again before any tree is saved, and that no discovery leaves a block among the known ones without
having queued it. A discovery compares only its newest block, so this needs of the node that two
calls in a row at neighbouring heights answer from one chain, and that the tip never goes down.
Below the first block that the process saw nothing is guarded.
-/

namespace OtsServer.Service

/-- A node whose best chain may change before any call, to one that is as high. Any call may
raise. -/
structure Node (headers : Headers) (chain : Nat → Chain) (env : Env) : Prop where
  of : ∀ n, (chain n).Of headers
  best : ∀ n hash, env.getbestblockhash n = .ok hash → (chain n).hash (chain n).tip = hash
  hash : ∀ n height hash, env.getblockhash n height = .ok hash → (chain n).at? height = some hash
  grows : ∀ n, (chain n).tip ≤ (chain (n + 1)).tip

/-- The chain does not change between the call that finds the known tip on it and the one that reads
the block on top, if it drops the tip. -/
structure SteadyNode (headers : Headers) (chain : Nat → Chain) (env : Env) :
    Prop extends Node headers chain env where
  joined : ∀ n height below hash, env.getblockhash n height = .ok below →
    env.getblockhash (n + 1) (height + 1) = .ok hash → headers.parent hash = below

/-! ## Heights -/

/-- The height is not below the first known block. -/
def Above (known : List KnownBlock) (height : Int) : Prop := ∀ k ∈ known.head?, k.height ≤ height

/-- The height is above the last known block. -/
def Beyond (known : List KnownBlock) (height : Int) : Prop :=
  ∀ k ∈ known.getLast?, k.height < height

/-- The last block of a height. -/
def lastAt (blocks : List KnownBlock) (height : Int) : Option KnownBlock :=
  (blocks.filter fun k => k.height = height).getLast?

section Lists

variable {known before now read kept fresh queue : List KnownBlock} {k b : KnownBlock}
  {height : Int}

theorem lastAt_append (xs ys : List KnownBlock) (height : Int) :
    lastAt (xs ++ ys) height = (lastAt ys height).or (lastAt xs height) := by
  rw [lastAt, List.filter_append, List.getLast?_append]
  rfl

theorem lastAt_singleton (k : KnownBlock) : lastAt [k] k.height = some k := by
  rw [lastAt, List.filter_singleton, decide_eq_true rfl]
  rfl

theorem lastAt_singleton_ne (h : k.height ≠ height) : lastAt [k] height = none := by
  rw [lastAt, List.filter_singleton, decide_eq_false h]
  rfl

theorem mem_of_lastAt (h : lastAt queue height = some k) : k ∈ queue ∧ k.height = height := by
  obtain ⟨hmem, hheight⟩ := List.mem_filter.mp (List.mem_of_getLast? h)
  exact ⟨hmem, of_decide_eq_true hheight⟩

theorem lastAt_eq_none (h : ∀ k ∈ queue, k.height ≠ height) : lastAt queue height = none := by
  rw [lastAt, List.filter_eq_nil_iff.mpr fun k hk => by rw [decide_eq_true_iff]; exact h k hk]
  rfl

theorem exists_lastAt (h : k ∈ queue) : ∃ b, lastAt queue k.height = some b := by
  refine Option.isSome_iff_exists.mp (List.getLast?_isSome.mpr (List.ne_nil_of_mem (a := k) ?_))
  exact List.mem_filter.mpr ⟨h, decide_eq_true rfl⟩

theorem Contiguous.eq_of_height (h : Contiguous known) (hk : k ∈ known) (hb : b ∈ known)
    (hheight : k.height = b.height) : k = b := by
  have hpairwise := h.pairwise
  obtain ⟨i, hi, rfl⟩ := List.getElem_of_mem hk
  obtain ⟨j, hj, rfl⟩ := List.getElem_of_mem hb
  obtain hlt | heq | hgt := lt_trichotomy i j
  · exact absurd hheight (List.pairwise_iff_getElem.mp hpairwise i j hi hj hlt).ne
  · subst heq
    rfl
  · exact absurd hheight.symm (List.pairwise_iff_getElem.mp hpairwise j i hj hi hgt).ne

theorem Contiguous.le_last (h : Contiguous known) (hk : k ∈ known) (hb : b ∈ known.getLast?) :
    k.height ≤ b.height := by
  obtain ⟨older, rfl⟩ := List.getLast?_eq_some_iff.mp hb
  obtain hold | hlast := List.mem_append.mp hk
  · exact ((List.pairwise_append.mp h.pairwise).2.2 k hold b (List.mem_singleton_self _)).le
  · exact (congrArg KnownBlock.height (List.mem_singleton.mp hlast)).le

/-- Every height from the first to the last is there. -/
theorem Contiguous.exists_height (h : Contiguous known) (hne : known ≠ [])
    (habove : Above known height) (hbeyond : ¬ Beyond known height) :
    ∃ k ∈ known, k.height = height := by
  induction known using List.reverseRecOn with
  | nil => exact absurd rfl hne
  | append_singleton older b ih =>
      have hle : height ≤ b.height := by
        by_contra hlt
        refine hbeyond fun k hk => ?_
        rw [List.getLast?_concat] at hk
        cases hk
        omega
      obtain rfl | hlt := hle.eq_or_lt
      · exact ⟨b, List.mem_append_right _ (List.mem_singleton_self _), rfl⟩
      · obtain ⟨hcontiguous, -, hstep⟩ := List.isChain_append.mp h
        cases hlast : older.getLast? with
        | none =>
            obtain rfl := List.getLast?_eq_none_iff.mp hlast
            exact absurd (habove b rfl) (by omega)
        | some last =>
            have hheight := hstep last hlast b rfl
            obtain ⟨k, hk, hkheight⟩ :=
                ih hcontiguous (List.ne_nil_of_mem (List.mem_of_getLast? hlast))
                (fun k hk => habove k (by rw [List.head?_append, Option.mem_def.mp hk]; rfl))
                fun hbeyond => by
                have := hbeyond last hlast
                omega
            exact ⟨k, List.mem_append_left _ hk, hkheight⟩

theorem not_beyond_of_mem (h : Contiguous known) (hk : k ∈ known) : ¬ Beyond known k.height := by
  intro hbeyond
  obtain ⟨last, hlast⟩ :=
    Option.isSome_iff_exists.mp (List.getLast?_isSome.mpr (List.ne_nil_of_mem hk))
  have hle := h.le_last hk hlast
  have hlt := hbeyond last hlast
  omega

end Lists

/-! ## Discoveries -/

/-- Where a discovery stands that started with the blocks `before` and has read `read`: what it
kept, and above it what it read last at each height. -/
structure Scan (headers : Headers) (before read now : List KnownBlock) : Prop where
  linked : Linked headers now
  split : ∃ kept fresh : List KnownBlock, now = kept ++ fresh ∧ kept <+: before ∧
    (∀ r ∈ read, ∀ k ∈ kept, k.height < r.height) ∧ ∀ k ∈ fresh, lastAt read k.height = some k

section Scans

variable {headers : Headers} {before read now older : List KnownBlock} {k b : KnownBlock}
  {height : Int}

theorem Linked.of_prefix (h : Linked headers now) (holder : older <+: now) :
    Linked headers older where
  contiguous := h.contiguous.prefix holder
  parent := List.IsChain.prefix h.parent holder
  height k hk := h.height k (holder.subset hk)

theorem Scan.start (h : Linked headers before) : Scan headers before [] before :=
  ⟨h, before, [], (List.append_nil _).symm, List.prefix_rfl, fun _ hr => absurd hr List.not_mem_nil,
    fun _ hk => absurd hk List.not_mem_nil⟩

/-- The newest known block is dropped. -/
theorem Scan.pop (h : Scan headers before read now) : Scan headers before read now.dropLast := by
  obtain ⟨hlinked, kept, fresh, rfl, hkept, hlow, hlast⟩ := h
  refine ⟨hlinked.of_prefix (List.dropLast_prefix _), ?_⟩
  by_cases hnil : fresh = []
  · subst hnil
    rw [List.append_nil]
    exact ⟨kept.dropLast, [], (List.append_nil _).symm, (List.dropLast_prefix _).trans hkept,
      fun r hr k hk => hlow r hr k (List.mem_of_mem_dropLast hk), fun _ hk =>
        absurd hk List.not_mem_nil⟩
  · rw [List.dropLast_append_of_ne_nil hnil]
    exact ⟨kept, fresh.dropLast, rfl, hkept, hlow, fun k hk =>
      hlast k (List.mem_of_mem_dropLast hk)⟩

/-- A block is read on top of the newest known one. -/
theorem Scan.push (h : Scan headers before read now)
    (hb : headers.height b.hash = b.height ∧ 0 ≤ b.height)
    (htop : ∀ k ∈ now.getLast?, b.height = k.height + 1 ∧ headers.parent b.hash = k.hash) :
    Scan headers before (read ++ [b]) (now ++ [b]) := by
  have hbelow : ∀ k ∈ now, k.height < b.height := by
    intro k hk
    obtain ⟨last, hl⟩ :=
      Option.isSome_iff_exists.mp (List.getLast?_isSome.mpr (List.ne_nil_of_mem hk))
    have hle := h.linked.contiguous.le_last hk hl
    have := (htop last hl).1
    omega
  have hsingle : ∀ a ∈ now.getLast?, ∀ c ∈ [b].head?, c.height = a.height + 1 ∧
      headers.parent c.hash = a.hash := by
    intro a ha c hc
    cases hc
    exact htop a ha
  refine ⟨⟨List.isChain_append.mpr ⟨h.linked.contiguous, .singleton _,
    fun a ha c hc => (hsingle a ha c hc).1⟩, List.isChain_append.mpr
    ⟨h.linked.parent, .singleton _, fun a ha c hc => (hsingle a ha c hc).2⟩, fun k hk => ?_⟩, ?_⟩
  · obtain hold | hnew := List.mem_append.mp hk
    · exact h.linked.height k hold
    · exact List.mem_singleton.mp hnew ▸ hb
  · obtain ⟨kept, fresh, rfl, hkept, hlow, hlast⟩ := h.split
    refine ⟨kept, fresh ++ [b], List.append_assoc .., hkept, fun r hr k hk => ?_, fun k hk => ?_⟩
    · obtain hold | hnew := List.mem_append.mp hr
      · exact hlow r hold k hk
      · exact List.mem_singleton.mp hnew ▸ hbelow k (List.mem_append_left _ hk)
    · rw [lastAt_append]
      obtain hold | hnew := List.mem_append.mp hk
      · rw [lastAt_singleton_ne (hbelow k (List.mem_append_right _ hold)).ne', Option.none_or]
        exact hlast k hold
      · obtain rfl := List.mem_singleton.mp hnew
        rw [lastAt_singleton]
        rfl

/-- A height within what a discovery leaves is that of a block it read last there, or of one it
kept. -/
theorem Scan.covers (h : Scan headers before read now) (habove : Above now height)
    (hbeyond : ¬ Beyond now height) :
    ∃ k ∈ now, k.height = height ∧ (lastAt read height = some k ∨
      (k ∈ before ∧ Above before height ∧ ∀ r ∈ read, height < r.height)) := by
  have hne : now ≠ [] := by
    rintro rfl
    exact hbeyond fun k hk => absurd hk (Option.not_mem_none k)
  obtain ⟨k, hk, hheight⟩ := h.linked.contiguous.exists_height hne habove hbeyond
  refine ⟨k, hk, hheight, ?_⟩
  obtain ⟨kept, fresh, rfl, ⟨dropped, rfl⟩, hlow, hlast⟩ := h.split
  obtain hkept | hfresh := List.mem_append.mp hk
  · refine .inr ⟨List.mem_append_left _ hkept, ?_, fun r hr => hheight ▸ hlow r hr k hkept⟩
    obtain ⟨first, rest, rfl⟩ := List.exists_cons_of_ne_nil (List.ne_nil_of_mem hkept)
    exact habove
  · exact .inl (hheight ▸ hlast k hfresh)

end Scans

/-! ## Guarded trees -/

/-- Every tree that waits has its block among the known ones, or a block of its height is queued; a
height above the known tip was rolled back and is read again before anything there can be deep. -/
structure Guarded (headers : Headers) (t : Trees) : Prop where
  linked : Linked headers t.known
  queue : ∀ q, lastAt t.queue q.height = some q → Above t.known q.height →
    q ∈ t.known ∨ Beyond t.known q.height
  waiting : ∀ height tree, t.waiting.lookup height = some tree → Above t.known height →
    (∃ q ∈ t.queue, q.height = height) ∨
      (∃ hash, t.blockAt.lookup height = some hash ∧ ⟨height, hash⟩ ∈ t.known) ∨
        Beyond t.known height

section Guarded

variable {headers : Headers} {a : Trees} {new now : List KnownBlock} {height : Int}

theorem lastAt_queueBlocks (queue : List KnownBlock) (hlow : ∀ r ∈ new, height < r.height) :
    lastAt (queueBlocks new queue) height = lastAt queue height := by
  cases new with
  | nil => rfl
  | cons fork rest =>
      rw [queueBlocks, lastAt_append, lastAt_eq_none fun k hk => (hlow k hk).ne',
        Option.none_or, lastAt, lastAt, List.filter_filter]
      congr 1
      refine List.filter_congr fun k _ => ?_
      have hfork := hlow fork (List.mem_cons_self ..)
      rw [Bool.and_eq_left_iff_imp.mpr]
      intro hk
      rw [decide_eq_true_iff] at hk ⊢
      omega

theorem lastAt_queueBlocks_read {k : KnownBlock} (queue : List KnownBlock)
    (h : lastAt new height = some k) : lastAt (queueBlocks new queue) height = some k := by
  cases new with
  | nil => exact absurd h.symm (Option.some_ne_none k)
  | cons fork rest => rw [queueBlocks, lastAt_append, h, Option.some_or]

/-- A discovery queues every block that replaced one. -/
theorem Guarded.discovered (h : Guarded headers a)
    (hscan : Scan headers a.known new now) (d : Nat) :
    Guarded headers { a with known := now, queue := queueBlocks new a.queue, discovery := d } where
  linked := hscan.linked
  queue q hq habove := by
    by_cases hbeyond : Beyond now q.height
    · exact .inr hbeyond
    · left
      obtain ⟨k, hk, hheight, hread | ⟨hbefore, hfirst, hlow⟩⟩ := hscan.covers habove hbeyond
      · have heq := (lastAt_queueBlocks_read a.queue hread).symm.trans hq
        exact Option.some.inj heq ▸ hk
      · have hold := (lastAt_queueBlocks a.queue hlow).symm.trans hq
        obtain hmem | hgone := h.queue q hold hfirst
        · exact h.linked.contiguous.eq_of_height hmem hbefore hheight.symm ▸ hk
        · exact absurd (hheight ▸ hgone) (not_beyond_of_mem h.linked.contiguous hbefore)
  waiting height tree htree habove := by
    by_cases hbeyond : Beyond now height
    · exact .inr (.inr hbeyond)
    · obtain ⟨k, hk, rfl, hread | ⟨hbefore, hfirst, hlow⟩⟩ := hscan.covers habove hbeyond
      · obtain ⟨hmem, hheight⟩ := mem_of_lastAt (lastAt_queueBlocks_read a.queue hread)
        exact .inl ⟨k, hmem, hheight⟩
      · obtain ⟨q, hq, hheight⟩ | ⟨hash, hat, hmem⟩ | hgone := h.waiting k.height tree htree hfirst
        · obtain ⟨last, hlast⟩ := exists_lastAt hq
          rw [hheight, ← lastAt_queueBlocks a.queue hlow] at hlast
          exact .inl ⟨last, mem_of_lastAt hlast⟩
        · have heq := h.linked.contiguous.eq_of_height hmem hbefore rfl
          exact .inr (.inl ⟨hash, hat, by rw [heq]; exact hk⟩)
        · exact absurd hgone (not_beyond_of_mem h.linked.contiguous hbefore)

end Guarded

/-! ## The scan -/

section Node

variable {env : Env} {headers : Headers} {chain : Nat → Chain} {a : Trees} {read : List KnownBlock}

/-- The trees are as they were but for the known blocks, and what was read is not above the tip. -/
structure Scanned (headers : Headers) (chain : Nat → Chain) (a : Trees) (read : List KnownBlock)
    (w : World) : Prop where
  trees : w.trees = { a with known := w.stamper.knownBlocks }
  scan : Scan headers a.known read w.stamper.knownBlocks
  below : ∀ r ∈ read, r.height ≤ (chain w.tick).tip

theorem Scanned.called (hnode : SteadyNode headers chain env) {w : World}
    (h : Scanned headers chain a read w) :
    Scanned headers chain a read { w with tick := w.tick + 1 } :=
  ⟨h.trees, h.scan, fun r hr => (h.below r hr).trans (Int.ofNat_le.mpr (hnode.grows _))⟩

theorem wp_ask {α : Type} {f : Nat → Except Exc α} {Q : α → World → Prop} {E : Exc → World → Prop}
    {w : World} (hok : ∀ x, f w.tick = .ok x → Q x { w with tick := w.tick + 1 })
    (herr : ∀ e, f w.tick = .error e → E e { w with tick := w.tick + 1 }) :
    Prog.wp (ask f) Q E w := by
  rw [Prog.wp, ask]
  cases hf : f w.tick with
  | ok x => exact hok x hf
  | error e => exact herr e hf

theorem wp_blockHashAt {height : Int} {Q : Option Bytes → World → Prop} {E : Exc → World → Prop}
    {w : World} (hsome : ∀ hash, env.getblockhash w.tick height = .ok hash →
      Q (some hash) { w with tick := w.tick + 1 })
    (hnone : Q none { w with tick := w.tick + 1 }) (herr : ∀ e, E e { w with tick := w.tick + 1 }) :
    Prog.wp (blockHashAt env height) Q E w := by
  rw [blockHashAt, Prog.wp_handle, Prog.wp_bind]
  refine wp_ask (fun hash hhash => hsome hash hhash) fun e _ => ?_
  cases e <;> first | exact hnone | exact herr _

/-- The newest known block, if there is one, was the node's at the last call. -/
def Checked (env : Env) (w : World) : Prop :=
  ∀ tip ∈ w.stamper.knownBlocks.getLast?, ∃ n, w.tick = n + 1 ∧
    env.getblockhash n tip.height = .ok tip.hash

theorem scanned_detectReorgs (hnode : SteadyNode headers chain env) {w : World}
    (h : Scanned headers chain a read w) :
    Prog.wp (detectReorgs env) (fun _ t => Scanned headers chain a read t ∧ Checked env t)
      (fun _ t => Scanned headers chain a read t) w := by
  rw [detectReorgs, Prog.wp_bind, Prog.wp_gets]
  refine Prog.wp_loop (fun n _ t => Scanned headers chain a read t ∧
      t.stamper.knownBlocks.length < n) (fun n _ t ht => ?_)
    (fun _ t ht => absurd ht.2 (Nat.not_lt_zero _)) _ () w ⟨h, Nat.lt_succ_self _⟩
  obtain ⟨hscanned, hlength⟩ := ht
  rw [Prog.wp_bind, Prog.wp_gets]
  cases hlast : t.stamper.knownBlocks.getLast? with
  | none =>
      exact ⟨hscanned, fun tip htip =>
        absurd (hlast.symm.trans htip) (Option.some_ne_none tip).symm⟩
  | some tip =>
      dsimp only
      have hpopped : Scanned headers chain a read { t with
          tick := t.tick + 1
          stamper := { t.stamper with knownBlocks := t.stamper.knownBlocks.dropLast } } ∧
          t.stamper.knownBlocks.dropLast.length < n := by
        refine ⟨⟨?_, hscanned.scan.pop, (hscanned.called hnode).below⟩, ?_⟩
        · exact congrArg (fun b : Trees => { b with known := t.stamper.knownBlocks.dropLast })
            hscanned.trees
        · rw [List.length_dropLast]
          have := List.length_pos_of_mem (List.mem_of_getLast? hlast)
          omega
      rw [Prog.wp_bind]
      refine wp_blockHashAt (fun hash hhash => ?_) ?_ fun e => hscanned.called hnode
      · rw [Prog.wp_ite]
        refine ⟨fun heq => ⟨hscanned.called hnode, fun tip' htip' => ⟨t.tick, rfl, ?_⟩⟩,
          fun _ => hpopped⟩
        cases Option.some.inj (hlast.symm.trans htip')
        exact hhash.trans (congrArg Except.ok (Option.some.inj heq))
      · rw [Prog.wp_ite]
        exact ⟨fun heq => absurd heq.symm (Option.some_ne_none _), fun _ => hpopped⟩

/-- What a round of a discovery leaves: it goes on, or its last call found the known tip to be the
best block. -/
def Rounded (headers : Headers) (chain : Nat → Chain) (a : Trees)
    (r : List KnownBlock ⊕ List KnownBlock) (w : World) : Prop :=
  match r with
  | .inl read => Scanned headers chain a read w
  | .inr read => Scanned headers chain a read w ∧ ∃ n tip, w.tick = n + 1 ∧
      w.stamper.knownBlocks.getLast? = some tip ∧ (chain n).hash (chain n).tip = tip.hash ∧
      ∀ r ∈ read, r.height ≤ (chain n).tip

/-- The block at a height, read at a call. -/
theorem Scanned.push (hnode : SteadyNode headers chain env) {w : World} {height : Int}
    {hash : Bytes} (h : Scanned headers chain a read w)
    (hhash : env.getblockhash w.tick height = .ok hash)
    (htop : ∀ tip ∈ w.stamper.knownBlocks.getLast?,
      height = tip.height + 1 ∧ headers.parent hash = tip.hash) :
    Scanned headers chain a (read ++ [⟨height, hash⟩]) { w with
      tick := w.tick + 1
      stamper := { w.stamper with knownBlocks := w.stamper.knownBlocks ++ [⟨height, hash⟩] } } := by
  have hhas : (chain w.tick).Has ⟨height, hash⟩ := hnode.hash _ _ _ hhash
  obtain ⟨hlow, hhigh, hat⟩ := Chain.has_iff.mp hhas
  refine ⟨?_, h.scan.push ⟨?_, hlow⟩ htop, fun r hr => ?_⟩
  · exact congrArg (fun b : Trees =>
        { b with known := w.stamper.knownBlocks ++ [(⟨height, hash⟩ : KnownBlock)] }) h.trees
  · exact hat ▸ (hnode.of w.tick).height height hlow hhigh
  · obtain hold | hnew := List.mem_append.mp hr
    · exact (h.called hnode).below r hold
    · obtain rfl := List.mem_singleton.mp hnew
      exact hhigh.trans (Int.ofNat_le.mpr (hnode.grows _))

theorem scanned_readOn (hnode : SteadyNode headers chain env) {w : World}
    (h : Scanned headers chain a read w) (hchecked : Checked env w) :
    Prog.wp (readOn env read) (Rounded headers chain a)
      (fun _ t => Scanned headers chain a read t) w := by
  have hread : ∀ (height : Int) (t : World), Scanned headers chain a read t →
      (∀ hash, env.getblockhash t.tick height = .ok hash → ∀ tip ∈ t.stamper.knownBlocks.getLast?,
        height = tip.height + 1 ∧ headers.parent hash = tip.hash) →
          ∀ rest : Option Bytes → M (List KnownBlock ⊕ List KnownBlock),
      rest none = pure (.inl read) → (∀ hash, rest (some hash) = do
        setKnownBlocks (· ++ [⟨height, hash⟩])
        pure (.inl (read ++ [⟨height, hash⟩]))) →
      Prog.wp (blockHashAt env height >>= rest) (Rounded headers chain a)
          (fun _ t => Scanned headers chain a read t) t := by
    intro height t ht htop rest hnone hsome
    rw [Prog.wp_bind]
    refine wp_blockHashAt (fun hash hhash => ?_) ?_ fun e => ht.called hnode
    · rw [hsome]
      exact ht.push hnode hhash (htop hash hhash)
    · rw [hnone]
      exact ht.called hnode
  rw [Prog.wp_bind, nextHeight, Prog.wp_bind, Prog.wp_gets]
  cases hlast : w.stamper.knownBlocks.getLast? with
  | none =>
      refine wp_ask (fun height _ => ?_) fun e _ => h.called hnode
      refine hread height _ (h.called hnode) (fun hash _ tip htip => ?_) _ rfl fun _ => rfl
      exact absurd (hlast.symm.trans htip) (Option.some_ne_none tip).symm
  | some tip =>
      refine hread (tip.height + 1) w h (fun hash hhash tip' htip' => ?_) _ rfl fun _ => rfl
      cases Option.some.inj (hlast.symm.trans htip')
      obtain ⟨n, htick, hbelow⟩ := hchecked tip hlast
      exact ⟨rfl, hnode.joined n tip.height tip.hash hash hbelow (htick ▸ hhash)⟩

theorem scanned_discover (hnode : SteadyNode headers chain env) {w : World}
    (h : Scanned headers chain a read w) :
    Prog.wp (discover env read) (Rounded headers chain a)
      (fun _ t => Scanned headers chain a read t) w := by
  have hon : ∀ t, Scanned headers chain a read t →
      Prog.wp (detectReorgs env >>= fun _ => readOn env read)
      (Rounded headers chain a) (fun _ t => Scanned headers chain a read t) t := by
    intro t ht
    rw [Prog.wp_bind]
    exact Prog.wp_mono (scanned_detectReorgs hnode ht)
      (fun _ u hu => scanned_readOn hnode hu.1 hu.2) fun _ _ h => h
  rw [discover, Prog.wp_bind, atBestBlock, Prog.wp_bind, Prog.wp_gets]
  cases hlast : w.stamper.knownBlocks.getLast? with
  | none => exact hon w h
  | some tip =>
      dsimp only
      rw [Prog.wp_bind]
      refine wp_ask (fun best hbest => ?_) fun e _ => h.called hnode
      rw [Prog.wp_pure, Prog.wp_ite]
      refine ⟨fun heq => ⟨h.called hnode, w.tick, tip, rfl, hlast, ?_, h.below⟩,
        fun _ => hon _ (h.called hnode)⟩
      exact (hnode.best _ _ hbest).trans (of_decide_eq_true heq)

/-- What a discovery that returns leaves: the known blocks are the chain's on which it ended, up to
its tip. -/
structure Discovered (headers : Headers) (chain : Nat → Chain) (a b : Trees)
    (new : List KnownBlock) : Prop where
  trees : b = { a with known := b.known, discovery := b.discovery }
  scan : Scan headers a.known new b.known
  has : ∀ k ∈ b.known, (chain b.discovery).Has k
  tip : ∃ tip, b.known.getLast? = some tip ∧ tip.height = (chain b.discovery).tip
  below : ∀ r ∈ new, r.height ≤ (chain b.discovery).tip

theorem discovered_updateFromProxy (hnode : SteadyNode headers chain env) {w : World}
    (hlinked : Linked headers w.trees.known) :
    Prog.wp (updateFromProxy env) (fun new t => Discovered headers chain w.trees t.trees new)
      (fun _ t => t.trees = w.trees) w := by
  have hloop : Prog.wp
      (Prog.loop (discover env) (fun _ => Prog.raise .stop) (env.patience w.tick) [])
      (fun new t => Rounded headers chain w.trees (.inr new) t)
      (fun _ t => t.trees = { w.trees with known := t.stamper.knownBlocks }) w := by
    refine Prog.wp_loop (fun _ read t => Scanned headers chain w.trees read t) (fun _ read t ht =>
        ?_) (fun _ t ht => ?_) _ [] w ⟨rfl, .start hlinked, fun _ hr => absurd hr List.not_mem_nil⟩
    · refine Prog.wp_mono (scanned_discover hnode ht) (fun r u hu => ?_) fun _ _ h => h.trees
      cases r <;> exact hu
    · exact ht.trees
  rw [updateFromProxy, Prog.wp_bind, Prog.wp_gets, Prog.wp_bind, Prog.wp_gets,
    Prog.wp_bind, Prog.wp_handle]
  refine Prog.wp_mono hloop (fun new t ht => ?_) fun e t ht => ?_
  · obtain ⟨hscanned, n, tip, htick, hlast, hbest, hbelow⟩ := ht
    rw [Prog.wp_bind, Prog.wp_gets, Prog.wp_bind]
    have hd : t.tick - 1 = n := by omega
    have hknown := hscanned.scan.linked.height tip (List.mem_of_getLast? hlast)
    obtain ⟨hhas, htip⟩ := Chain.has_tip_of_hash_eq (hnode.of n) hknown.1 hbest
    have hall := hscanned.scan.linked.all_has (hnode.of n) fun k hk => by
      rw [hlast] at hk
      cases hk
      exact hhas
    refine ⟨congrArg (fun b : Trees => { b with discovery := t.tick - 1 }) hscanned.trees,
      hscanned.scan, ?_, ?_, ?_⟩
    · exact fun k hk => show (chain (t.tick - 1)).Has k from hd ▸ hall k hk
    · exact ⟨tip, hlast, show tip.height = (chain (t.tick - 1)).tip from hd ▸ htip⟩
    · exact fun r hr => show r.height ≤ (chain (t.tick - 1)).tip from hd ▸ hbelow r hr
  · exact congrArg (fun b : Trees => { b with known := w.stamper.knownBlocks }) ht

/-! ## A pass -/

/-- A tree was called mature with its block on the chain on which the discovery ended, and deep
enough. -/
def Deep (chain : Nat → Chain) (known : List KnownBlock) (saved : Handed) : Prop :=
  Above known saved.height → ∃ hash, saved.blockHash = some hash ∧
    (chain saved.discovery).Has ⟨saved.height, hash⟩ ∧
    saved.height + saved.minConfirmations - 1 ≤ (chain saved.discovery).tip

/-- What stands in a pass whose discovery left the trees `a`. -/
structure Passing (headers : Headers) (chain : Nat → Chain) (a b : Trees) : Prop where
  guarded : Guarded headers b
  known : b.known = a.known
  discovery : b.discovery = a.discovery
  handed : ∃ new, b.handed = a.handed ++ new ∧ ∀ saved ∈ new, Deep chain a.known saved

theorem Passing.start (h : Guarded headers a) : Passing headers chain a a :=
  ⟨h, rfl, rfl, [], (List.append_nil _).symm, fun _ hs => absurd hs List.not_mem_nil⟩

/-- What is pending and what was broadcast may change. -/
theorem Guarded.free {t : Trees} (h : Guarded headers t) (pending : List Bytes)
    (unconfirmed : List UnconfirmedTimestampTx) :
    Guarded headers { t with pending := pending, unconfirmed := unconfirmed } :=
  ⟨h.linked, h.queue, h.waiting⟩

theorem Guarded.fewer {t : Trees} (h : Guarded headers t)
    {waiting : AList fun _ : Int => TimestampTx} (hsub : ∀ height tree,
      waiting.lookup height = some tree → t.waiting.lookup height = some tree) :
    Guarded headers { t with waiting := waiting } :=
  ⟨h.linked, h.queue, fun height tree htree => h.waiting height tree (hsub height tree htree)⟩

/-- The tree of a height at which a block is queued. -/
theorem Guarded.confirm {t : Trees} (h : Guarded headers t) {q : KnownBlock} (hq : q ∈ t.queue)
    (tree : TimestampTx) (hash : Bytes) : Guarded headers { t with
      waiting := t.waiting.insert q.height tree
      blockAt := t.blockAt.insert q.height hash } := by
  refine ⟨h.linked, h.queue, fun height tree' htree habove => ?_⟩
  by_cases hheight : height = q.height
  · exact .inl ⟨q, hq, hheight.symm⟩
  · obtain hqueued | ⟨hash', hat, hmem⟩ | hgone :=
      h.waiting height tree' ((AList.lookup_insert_ne hheight).symm.trans htree) habove
    · exact .inl hqueued
    · exact .inr (.inl ⟨hash', (AList.lookup_insert_ne hheight).trans hat, hmem⟩)
    · exact .inr (.inr hgone)

/-- A block leaves the queue; what waits at its height was found in it. -/
theorem Guarded.pop {t : Trees} (h : Guarded headers t) {q : KnownBlock} {rest : List KnownBlock}
    (hq : t.queue = q :: rest) (hread : ∀ tree, t.waiting.lookup q.height = some tree →
      t.blockAt.lookup q.height = some q.hash) : Guarded headers { t with queue := rest } := by
  have hlater : ∀ height k, lastAt rest height = some k → lastAt t.queue height = some k := by
    intro height k hk
    rw [hq, ← List.singleton_append, lastAt_append, hk, Option.some_or]
  refine ⟨h.linked, fun k hk => h.queue k (hlater _ _ hk), fun height tree htree habove => ?_⟩
  obtain ⟨k, hk, hheight⟩ | hrest := h.waiting height tree htree habove
  · cases hlast : lastAt rest height with
    | some last => exact .inl ⟨last, mem_of_lastAt hlast⟩
    | none =>
        obtain rfl | hmem := List.mem_cons.mp (hq ▸ hk)
        · -- no block of its height is left, so this one is known or was rolled back
          have hown : lastAt t.queue k.height = some k := by
            rw [hq, ← List.singleton_append, lastAt_append, hheight, hlast,
              Option.none_or, ← hheight, lastAt_singleton]
          subst hheight
          exact .inr ((h.queue k hown habove).imp_left fun hknown =>
              ⟨k.hash, hread tree htree, hknown⟩)
        · obtain ⟨last, hlast'⟩ := exists_lastAt hmem
          exact absurd ((hheight ▸ hlast').symm.trans hlast) (Option.some_ne_none _)
  · exact .inr hrest

/-- Before the block at the head of the queue leaves it: what waits at its height was found in
it. -/
def Reading (headers : Headers) (chain : Nat → Chain) (a : Trees) (q : KnownBlock)
    (rest : List KnownBlock) (b : Trees) : Prop :=
  Passing headers chain a b ∧ b.queue = q :: rest ∧
    ∀ tree, b.waiting.lookup q.height = some tree → b.blockAt.lookup q.height = some q.hash

theorem reading_processBlock {q : KnownBlock} {rest : List KnownBlock} {w : World}
    (h : Passing headers chain a w.trees) (hq : w.trees.queue = q :: rest) :
    Prog.wp (processBlock env q) (fun _ t => Reading headers chain a q rest t.trees)
      (fun _ t => Reading headers chain a q rest t.trees) w := by
  refine OfTrees.processBlock (I := fun t => Reading headers chain a q rest t.trees) .of ?_ ?_
  · rintro t u ⟨hpassing, hqueue, -⟩
    have hmem : q ∈ t.trees.queue := hqueue ▸ List.mem_cons_self ..
    refine ⟨⟨((hpassing.guarded.confirm hmem (minedTree t.stamper q.height u) q.hash).free _ []),
      hpassing.known, hpassing.discovery, hpassing.handed⟩, hqueue, fun _ _ =>
      AList.lookup_insert _⟩
  · rw [requeue, modifyStamper, Prog.wp_modify]
    cases hwaits : w.stamper.txsWaitingForConfirmation.lookup q.height with
    | none =>
        simp only
        exact ⟨h, hq, fun tree htree =>
          absurd (hwaits.symm.trans htree) (Option.some_ne_none _).symm⟩
    | some reorged =>
        simp only
        refine ⟨⟨(h.guarded.fewer fun _ _ => lookup_of_lookup_erase).free _
          w.stamper.unconfirmedTxs, h.known, h.discovery, h.handed⟩, hq, fun tree htree => ?_⟩
        exact absurd (htree.symm.trans (AList.lookup_erase _ _)) (Option.some_ne_none _)

theorem passing_processBlocks {w : World} (h : Passing headers chain a w.trees) :
    Prog.wp (processBlocks env) (fun done t => Passing headers chain a t.trees ∧
        (done = true → t.trees.queue = [])) (fun _ t => Passing headers chain a t.trees) w := by
  rw [processBlocks, Prog.wp_bind, Prog.wp_gets]
  refine Prog.wp_loop (fun n _ t => Passing headers chain a t.trees ∧ t.trees.queue.length < n)
    (fun n _ t ht => ?_)
    (fun _ t ht => absurd ht.2 (Nat.not_lt_zero _)) _ () w ⟨h, Nat.lt_succ_self _⟩
  obtain ⟨hpassing, hlength⟩ := ht
  rw [Prog.wp_bind, Prog.wp_gets]
  cases hqueue : t.stamper.unprocessedBlocks with
  | nil => exact ⟨hpassing, fun _ => hqueue⟩
  | cons q rest =>
      dsimp only
      rw [Prog.wp_bind]
      refine Prog.wp_mono (reading_processBlock hpassing hqueue)
        (fun done u hu => ?_) fun _ _ h => h.1
      obtain ⟨hkept, hq, hread⟩ := hu
      cases done with
      | false => exact ⟨hkept, fun h => absurd h Bool.false_ne_true⟩
      | true =>
          refine ⟨⟨hkept.guarded.pop hq hread, hkept.known, hkept.discovery, hkept.handed⟩, ?_⟩
          have hshorter : (q :: rest).length < n + 1 := by
            rw [← hqueue]
            exact hlength
          exact Nat.lt_of_succ_lt_succ hshorter

/-- With no block owed, a tree that waits at a height within the known ones is on the chain. -/
theorem Passing.deep {b : Trees} (h : Passing headers chain a b) (hqueue : b.queue = [])
    {best : Int} (hhas : ∀ k ∈ a.known, (chain a.discovery).Has k)
    (htip : ∃ tip, a.known.getLast? = some tip ∧ tip.height = (chain a.discovery).tip)
    (hbest : best ≤ (chain a.discovery).tip) {height : Int}
    {tree : TimestampTx} (htree : b.waiting.lookup height = some tree)
    {config : Config} (hdue : height ≤ best - config.minConfirmations + 1) :
    Deep chain a.known ⟨height, b.blockAt.lookup height, b.discovery, config.minConfirmations⟩ := by
  intro habove
  change Above a.known height at habove
  have hone := config.one_lt
  obtain ⟨q, hq, -⟩ | ⟨hash, hat,
    hmem⟩ | hgone := h.guarded.waiting height tree htree (h.known ▸ habove)
  · exact absurd (hqueue ▸ hq) List.not_mem_nil
  · rw [h.discovery]
    refine ⟨hash, hat, hhas _ (h.known ▸ hmem), ?_⟩
    change height + config.minConfirmations - 1 ≤ (chain a.discovery).tip
    omega
  · obtain ⟨tip, hlast, htip⟩ := htip
    have := hgone tip (h.known ▸ hlast)
    omega

theorem passing_saveMatureTrees {best : Int} (hhas : ∀ k ∈ a.known, (chain a.discovery).Has k)
    (htip : ∃ tip, a.known.getLast? = some tip ∧ tip.height = (chain a.discovery).tip)
    (hbest : best ≤ (chain a.discovery).tip) {w : World} (h : Passing headers chain a w.trees)
    (hqueue : w.trees.queue = []) :
    Prog.wp (saveMatureTrees env best) (fun _ t => Passing headers chain a t.trees)
      (fun _ t => Passing headers chain a t.trees) w := by
  rw [saveMatureTrees, Prog.wp_bind, Prog.wp_gets]
  refine Prog.wp_forEach (fun due t => (Passing headers chain a t.trees ∧ t.trees.queue = [] ∧
    t.trees.config = w.stamper.config) ∧ ∀ height ∈ due,
      height ≤ best - w.stamper.config.minConfirmations + 1)
    (fun height due t ht => ?_) (fun _ ht => ht.1.1) _ w ⟨⟨h, hqueue, rfl⟩, fun height hmem => ?_⟩
  · obtain ⟨hstands, hdue⟩ := ht
    have hkeeps : Prog.Keeps (fun t : World => Passing headers chain a t.trees ∧
          t.trees.queue = [] ∧ t.trees.config = w.stamper.config) (saveTree env height) := by
      refine OfTrees.saveTree
        (.of (P := fun b => Passing headers chain a b ∧ b.queue = [] ∧ b.config = w.stamper.config))
        height ?_ ?_
      · rintro u tree htree ⟨hpassing, hempty, hconfig⟩
        obtain ⟨new, hhanded, hnew⟩ := hpassing.handed
        refine ⟨⟨⟨hpassing.guarded.linked, hpassing.guarded.queue, hpassing.guarded.waiting⟩,
          hpassing.known,
          hpassing.discovery, new ++ [⟨height, u.history.blockAt.lookup height, u.history.discovery,
            u.stamper.config.minConfirmations⟩], ?_, fun saved hsaved => ?_⟩, hempty, hconfig⟩
        · rw [← List.append_assoc, ← hhanded]
          rfl
        · obtain hold | hnow := List.mem_append.mp hsaved
          · exact hnew saved hold
          · obtain rfl := List.mem_singleton.mp hnow
            refine hpassing.deep hempty hhas htip hbest htree ?_
            rw [show u.stamper.config = w.stamper.config from hconfig]
            exact hdue height (List.mem_cons_self ..)
      · rintro u tree ⟨hpassing, hempty, hconfig⟩
        have hfewer : ∀ other tree, (u.trees.waiting.erase height).lookup other = some tree →
            u.trees.waiting.lookup other = some tree := fun _ _ => lookup_of_lookup_erase
        exact ⟨⟨hpassing.guarded.fewer hfewer, hpassing.known, hpassing.discovery, hpassing.handed⟩,
          hempty, hconfig⟩
    refine Prog.wp_mono (hkeeps t hstands) (fun _ u hu =>
          ⟨hu, fun height hmem => hdue height (List.mem_cons_of_mem _ hmem)⟩) fun _ _ hu => hu.1
  · exact of_decide_eq_true (List.mem_filter.mp ((List.mem_insertionSort (· ≤ ·)).mp hmem)).2

theorem Passing.broadcast {b c : Trees} (h : Passing headers chain a b) (lib : Lib)
    (hc : Abandons b c ∨ b.pending ≠ [] ∧ Broadcast lib b c) : Passing headers chain a c := by
  have hfree : ∀ unconfirmed, Passing headers chain a { b with unconfirmed := unconfirmed } :=
      fun unconfirmed =>
    ⟨h.guarded.free b.pending unconfirmed, h.known, h.discovery, h.handed⟩
  obtain (rfl | rfl) | ⟨-, older, tx, fee, records, -, rfl⟩ := hc
  · exact h
  · exact hfree []
  · exact hfree _

/-- The trees stay guarded, and a tree that is called mature from here on is on the chain. -/
def Anchored (headers : Headers) (chain : Nat → Chain) (handed : List Handed) (t : Trees) : Prop :=
  Guarded headers t ∧ ∃ new, t.handed = handed ++ new ∧ ∀ saved ∈ new, Deep chain t.known saved

theorem sound_doBitcoin (hnode : SteadyNode headers chain env) {w : World}
    (h : Guarded headers w.trees) :
    Prog.wp (doBitcoin env) (fun _ t => Anchored headers chain w.history.handed t.trees)
      (fun _ t => Anchored headers chain w.history.handed t.trees) w := by
  have hunmoved : ∀ t : World, t.trees = w.trees →
      Anchored headers chain w.history.handed t.trees := by
    intro t ht
    rw [ht]
    exact ⟨h, [], (List.append_nil _).symm, fun _ hs => absurd hs List.not_mem_nil⟩
  have hI : OfTrees fun t => t.trees = w.trees := .of (P := fun b => b = w.trees)
  rw [doBitcoin, Prog.wp_bind]
  refine Prog.wp_mono (hI.ask _ w rfl) (fun _ t ht => ?_) fun _ t ht => hunmoved t ht
  rw [Prog.wp_bind]
  have hlinked : Linked headers t.trees.known := ht ▸ h.linked
  refine Prog.wp_mono (discovered_updateFromProxy hnode hlinked) (fun new u hu => ?_)
    fun _ u hu => hunmoved u (hu.trans ht)
  rw [ht] at hu
  rw [Prog.wp_bind, Prog.wp_gets, Prog.wp_bind, modifyStamper, Prog.wp_modify]
  obtain ⟨tip, hlast, htip⟩ := hu.tip
  have hguarded : Guarded headers { w.trees with
      known := u.trees.known
      queue := queueBlocks new w.trees.queue
      discovery := u.trees.discovery } := h.discovered hu.scan _
  generalize hv : ({ u with stamper := { u.stamper with
    unprocessedBlocks := queueBlocks new u.stamper.unprocessedBlocks } } : World) = v
  have htrees : v.trees = { w.trees with
      known := u.trees.known
      queue := queueBlocks new w.trees.queue
      discovery := u.trees.discovery } := by
    rw [← hv]
    have hqueue : u.stamper.unprocessedBlocks = w.stamper.unprocessedBlocks :=
      congrArg Trees.queue hu.trees
    rw [hqueue]
    exact congrArg
      (fun b : Trees => { b with queue := queueBlocks new w.stamper.unprocessedBlocks }) hu.trees
  rw [← htrees] at hguarded
  have hknown : v.trees.known = u.trees.known := by rw [htrees]
  have hdiscovery : v.trees.discovery = u.trees.discovery := by rw [htrees]
  have hhanded : v.trees.handed = w.history.handed := by rw [htrees]; rfl
  have hhas : ∀ k ∈ v.trees.known, (chain v.trees.discovery).Has k := hknown ▸ hdiscovery ▸ hu.has
  have htips : ∃ tip, v.trees.known.getLast? = some tip ∧
      tip.height = (chain v.trees.discovery).tip := by
    rw [hknown, hdiscovery]
    exact hu.tip
  have hends : ∀ t : World, Passing headers chain v.trees t.trees →
      Anchored headers chain w.history.handed t.trees := by
    intro t hpassing
    obtain ⟨more, heq, hmore⟩ := hpassing.handed
    rw [hhanded] at heq
    exact ⟨hpassing.guarded, more, heq, hpassing.known ▸ hmore⟩
  -- the rest of the pass, against a height that the chain's tip is not below
  have hrest : ∀ best : Int, best ≤ (chain u.trees.discovery).tip →
      Prog.wp (do
        let done ← processBlocks env
        if ¬done then pure ()
        else do
          saveMatureTrees env best
          let s ← Prog.gets (·.stamper)
          if new = [] ∧ s.unconfirmedTxs ≠ [] then pure () else anchorWhenDue env)
        (fun _ t => Anchored headers chain w.history.handed t.trees)
        (fun _ t => Anchored headers chain w.history.handed t.trees) v := by
    intro best hbest
    rw [Prog.wp_bind]
    refine Prog.wp_mono (passing_processBlocks (.start hguarded))
      (fun done x hx => ?_) fun _ x hx => hends x hx
    rw [Prog.wp_ite]
    refine ⟨fun _ => hends x hx.1, fun hdone => ?_⟩
    rw [Prog.wp_bind]
    refine Prog.wp_mono
      (passing_saveMatureTrees hhas htips (hdiscovery ▸ hbest) hx.1 (hx.2 (not_not.mp hdone)))
      (fun _ y hy => ?_) fun _ y hy => hends y hy
    rw [Prog.wp_bind, Prog.wp_gets, Prog.wp_ite]
    refine ⟨fun _ => hends y hy, fun _ => ?_⟩
    exact Prog.wp_mono (broadcast_anchorWhenDue y) (fun _ z hz => hends z (hy.broadcast env.lib hz))
      fun _ z hz => hends z (hy.broadcast env.lib (.inl hz))
  cases hnew : new.getLast? with
  | some block => exact hrest block.height (hu.below block (List.mem_of_getLast? hnew))
  | none =>
      refine hrest (bestBlockHeight u.stamper) ?_
      rw [bestBlockHeight, show u.stamper.knownBlocks.getLast? = some tip from hlast]
      exact htip.le

theorem guarded_boot (config : Config) (w : World) :
    Guarded headers ({ w with toState := w.toState.boot config } : World).trees where
  linked := ⟨.nil, .nil, fun _ hk => absurd hk List.not_mem_nil⟩
  queue q hq _ := absurd hq.symm (Option.some_ne_none q)
  waiting _ _ htree _ := absurd (htree.symm.trans (AList.lookup_empty _)) (Option.some_ne_none _)

theorem sound_step (hnode : SteadyNode headers chain env) {allowed : Config → Prop} {w w' : World}
    (hw : w.running = true → Guarded headers w.trees) (hstep : (service env allowed).step w w') :
    (w'.running = true → Guarded headers w'.trees) ∧ ∃ new, w'.history.handed =
        w.history.handed ++ new ∧ ∀ saved ∈ new, Deep chain w'.stamper.knownBlocks saved := by
  have hsound : Anchored headers chain w.history.handed w'.trees := by
    refine OfTrees.step (I := fun t => Anchored headers chain w.history.handed t.trees) .of
      (fun config => ?_) (fun h => ?_) (fun h => ?_) (fun hup => ?_) hstep
    · exact ⟨guarded_boot config w, [], (List.append_nil _).symm, fun _ hs =>
        absurd hs List.not_mem_nil⟩
    · have hgrown : ∀ t : World, Grown w.trees t.trees →
          Anchored headers chain w.history.handed t.trees := by
        rintro t ⟨more, heq⟩
        rw [heq]
        exact ⟨h.1.free _ w.trees.unconfirmed, h.2⟩
      exact Prog.wp_mono (grown_fill w.trees w (grown_refl _)) (fun _ => hgrown) fun _ => hgrown
    · exact sound_doBitcoin hnode h.1
    · exact ⟨hw hup, [], (List.append_nil _).symm, fun _ hs => absurd hs List.not_mem_nil⟩
  exact ⟨fun _ => hsound.1, hsound.2⟩

theorem guarded_reachable (hnode : SteadyNode headers chain env) {allowed : Config → Prop}
    {w : World} (h : (service env allowed).Reachable w) (hup : w.running = true) :
    Guarded headers w.trees := by
  refine Transition.System.Inductive.reachable (I := fun w => w.running = true →
      Guarded headers w.trees) ⟨?_, ?_⟩ h hup
  · exact fun w hw hup => absurd (hw.1.symm.trans hup) Bool.false_ne_true
  · exact fun w w' _ hw hstep => (sound_step hnode hw hstep).1

/-- A tree that a step calls mature, at a height that is not below the first block its process saw,
was found in the block that the chain on which the discovery ended has there, as deep as asked. -/
theorem no_orphan_is_saved (hnode : SteadyNode headers chain env)
    {allowed : Config → Prop} {w w' : World}
    (h : (service env allowed).Reachable w) (hstep : (service env allowed).step w w') :
    ∃ new, w'.history.handed = w.history.handed ++ new ∧
      ∀ saved ∈ new, (∀ k ∈ w'.stamper.knownBlocks.head?, k.height ≤ saved.height) →
        ∃ hash, saved.blockHash = some hash ∧ (chain saved.discovery).Has ⟨saved.height, hash⟩ ∧
          saved.height + saved.minConfirmations - 1 ≤ (chain saved.discovery).tip :=
  (sound_step hnode (guarded_reachable hnode h) hstep).2

end Node

/-! ## Courses -/

/-- The blocks of a course are the chain's, from the first to its tip. -/
def Course.Follows (c : Course) (chain : Nat → Chain) : Prop :=
  ∀ n, (c.chain n).map (·.1) = (List.range ((chain n).tip + 1)).map fun height : Nat =>
    (chain n).hash height

theorem Course.Follows.node {c : Course} {chain : Nat → Chain}
    {headers : Headers} (h : c.Follows chain) (hof : ∀ n, (chain n).Of headers)
    (hgrows : ∀ n, (chain n).tip ≤ (chain (n + 1)).tip) (lib : Lib) :
    Node headers chain (c.env lib) where
  of := hof
  grows := hgrows
  best n hash hbest := by
    have hlast : ((c.chain n).map (·.1)).getLast? = some ((chain n).hash (chain n).tip) := by
      rw [h n, List.range_succ, List.map_append]
      exact List.getLast?_concat ..
    rw [List.getLast?_map] at hlast
    obtain ⟨block, hblock, heq⟩ := Option.map_eq_some_iff.mp hlast
    change Except.ok ((c.chain n).getLast?.elim [] (·.1)) = _ at hbest
    rw [hblock] at hbest
    exact heq.symm.trans (Except.ok.inj hbest)
  hash n height hash hhash := by
    rw [Course.env] at hhash
    dsimp only at hhash
    by_cases hlow : height < 0
    · rw [if_pos hlow] at hhash
      cases hhash
    · rw [if_neg hlow] at hhash
      cases hblock : (c.chain n)[height.toNat]? with
      | none =>
          rw [hblock] at hhash
          cases hhash
      | some block =>
          rw [hblock] at hhash
          have hlength := (List.getElem?_eq_some_iff.mp hblock).1
          rw [← List.length_map (f := fun b : Bytes × Block => b.1), h n, List.length_map,
            List.length_range] at hlength
          have hat : ((c.chain n).map (·.1))[height.toNat]? = some hash := by
            rw [List.getElem?_map, hblock]
            exact congrArg some (Except.ok.inj hhash)
          rw [h n, List.getElem?_map, List.getElem?_range hlength, Option.map_some,
            Int.toNat_of_nonneg (by omega)] at hat
          rw [Chain.at?, if_pos (by omega)]
          exact hat

namespace Rehearsal

/-- What a label commits to: sixteen more is another branch from the first block on. -/
def headers : Headers where
  parent := fun hash => hash.map fun b => if b = 17 then 0 else b - 1
  height := fun hash => hash.headI.toNat % 16

/-- A chain of labels, on the other branch above its first block or not. -/
def branch (tip : Nat) (other : Bool) : Chain :=
  ⟨tip, fun height => label (match other, height.toNat with
    | true, n + 1 => n + 17
    | _, n => n)⟩

theorem branch_of {tip : Nat} (htip : tip < 10) (other : Bool) : (branch tip other).Of headers where
  height h hlow hhigh := by
    obtain ⟨n, rfl⟩ := Int.eq_ofNat_of_zero_le hlow
    have hn : n < 10 := by
      change (n : Int) ≤ tip at hhigh
      omega
    change headers.height ((branch 0 other).hash n) = n
    interval_cases n <;> cases other <;> decide
  parent h hlow hhigh := by
    obtain ⟨n, rfl⟩ := Int.eq_ofNat_of_zero_le hlow
    have hn : n < 9 := by
      change (n : Int) < tip at hhigh
      omega
    change headers.parent ((branch 0 other).hash (n + 1)) = (branch 0 other).hash n
    interval_cases n <;> cases other <;> decide

/-- The node's chains in the course. -/
def chain (n : Nat) : Chain := branch (if n < 35 then 0 else 2) false

theorem chain_of_headers (n : Nat) : (chain n).Of headers := by
  refine branch_of ?_ false
  split <;> omega

theorem course_node : Node headers chain (course.env lib) := by
  refine Course.Follows.node (fun n => ?_) chain_of_headers (fun n => ?_) lib
  · rw [course, chain]
    dsimp only
    split <;> decide
  · change (if n < 35 then 0 else 2) ≤ if n + 1 < 35 then 0 else 2
    split_ifs <;> omega

theorem course_steady : SteadyNode headers chain (course.env lib) where
  toNode := course_node
  joined n height below hash hbelow hhash := by
    have hhas : (chain n).Has ⟨height, below⟩ := course_node.hash _ _ _ hbelow
    have htop : (chain (n + 1)).Has ⟨height + 1, hash⟩ := course_node.hash _ _ _ hhash
    obtain ⟨hlow, -, hat⟩ := Chain.has_iff.mp hhas
    obtain ⟨-, hhigh, hat'⟩ := Chain.has_iff.mp htop
    have hparent := (chain_of_headers (n + 1)).parent height hlow (Int.lt_of_add_one_le hhigh)
    exact (congrArg headers.parent hat').symm.trans (hparent.trans hat)

/-- The tree that waits is called mature with its block on the chain. -/
theorem saved_tree_is_deep : ∃ new, saved.history.handed = broadcast.history.handed ++ new ∧
    ∀ handed ∈ new, (∀ k ∈ saved.stamper.knownBlocks.head?, k.height ≤ handed.height) →
      ∃ hash, handed.blockHash = some hash ∧ (chain handed.discovery).Has ⟨handed.height, hash⟩ ∧
        handed.height + handed.minConfirmations - 1 ≤ (chain handed.discovery).tip := by
  refine no_orphan_is_saved course_steady reachable_broadcast ⟨.pass, ?_, fun _ h => ?_, rfl⟩
  · change broadcast.running = true
    decide +kernel
  · cases h

/-- A course in which the chain goes over to the other branch between the two calls. -/
def split : Course :=
  { chain := fun n =>
      if n < 35 then [plain 0]
      else if n < 46 then [plain 0, withAnchor 1 anchor root]
      else if n < 49 then [plain 0, withAnchor 1 anchor root, plain 2]
      else [plain 0, plain 17, plain 18, plain 19]
    coin := fun n => if n < 35 then coin else changeOf anchorId 99896
    file := fun _ => .done
    batch := fun _ => .returns }

def splitChain (n : Nat) : Chain :=
  branch (if n < 35 then 0 else if n < 46 then 1 else if n < 49 then 2 else 3) (49 ≤ n)

theorem split_node : Node headers splitChain (split.env lib) := by
  refine Course.Follows.node (fun n => ?_) (fun n => branch_of ?_ _) (fun n => ?_) lib
  · simp only [split]
    split
    · rw [decide_eq_false (by omega)]
      decide
    · split
      · rw [decide_eq_false (by omega)]
        decide
      · split
        · rw [decide_eq_false (by omega)]
          decide
        · rw [decide_eq_true (by omega)]
          decide
  · split_ifs <;> omega
  · change (if n < 35 then 0 else if n < 46 then 1 else if n < 49 then 2 else 3) ≤
      if n + 1 < 35 then 0 else if n + 1 < 46 then 1 else if n + 1 < 49 then 2 else 3
    split_ifs <;> omega

/-- Two passes: the anchor is sent, and found in the first block. -/
def found : World := runEvents (split.env lib) events (.empty (config 10 true))

theorem reachable_found : (service (split.env lib) fun _ => True).Reachable found :=
  reachable_runEvents (by decide +kernel) fun _ _ => trivial

end Rehearsal

/-- Between the two calls a change is not seen: the block below stays known, what replaced it is
never read, and its tree is saved from an orphan. -/
theorem orphan_is_saved_when_split :
    ¬ ∀ (headers : Headers) (chain : Nat → Chain) (env : Env) (w w' : World),
      Node headers chain env → (service env fun _ => True).Reachable w →
        (service env fun _ => True).step w w' → ∃ new, w'.history.handed = w.history.handed ++ new ∧
        ∀ saved ∈ new, (∀ k ∈ w'.stamper.knownBlocks.head?, k.height ≤ saved.height) → ∃ hash,
            saved.blockHash = some hash ∧ (chain saved.discovery).Has ⟨saved.height, hash⟩ := by
  intro h
  have hstep : (service (Rehearsal.split.env Rehearsal.lib) fun _ => True).step Rehearsal.found
      (runProgram (Event.program (Rehearsal.split.env Rehearsal.lib) .pass) Rehearsal.found) :=
    ⟨.pass, show Rehearsal.found.running = true by decide +kernel, fun _ _ => trivial, rfl⟩
  obtain ⟨new, hhanded, hnew⟩ := h _ _ _ _ _ Rehearsal.split_node Rehearsal.reachable_found hstep
  have hnone : Rehearsal.found.history.handed = [] := List.length_eq_zero_iff.mp (by decide +kernel)
  have hall : (runProgram (Event.program (Rehearsal.split.env Rehearsal.lib) .pass)
        Rehearsal.found).history.handed.map
      (fun saved => (saved.height, saved.blockHash, saved.discovery)) =
      [(1, some (Rehearsal.label 1), 53)] := by
    decide +kernel
  rw [hhanded, hnone, List.nil_append, List.map_eq_singleton_iff] at hall
  obtain ⟨saved, rfl, hsaved⟩ := hall
  obtain ⟨hheight, hrest⟩ := Prod.mk.inj hsaved
  obtain ⟨hblock, hdiscovery⟩ := Prod.mk.inj hrest
  obtain ⟨hash, hhash, hhas⟩ := hnew saved (List.mem_singleton_self _) (hheight ▸ by decide +kernel)
  rw [hdiscovery, hheight, ← Option.some.inj (hblock.symm.trans hhash)] at hhas
  exact absurd hhas (by decide +kernel)

end OtsServer.Service
