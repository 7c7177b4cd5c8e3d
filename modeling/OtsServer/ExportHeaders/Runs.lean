import OtsServer.ExportHeaders.Chained

/-!
# Runs of the exporter

What a run does to the file is said from what is on file, whatever the node and the file
system answer: a cut leaves a beginning of it, and a batch that is not refused goes on with
its chain. `exported_file_verifies` is what the verifier finds after any number of runs.
-/

namespace OtsServer.ExportHeaders

open VerifyClaim
open Prog (Sees)

/-! ## Calls -/

section Calls

variable (env : Env) {α : Type} {s : Bytes} {E : Exc → Bytes → Prop}

/-- A call changes nothing on file. -/
theorem Sees.ask {answer : Nat → Except Exc α} {Q : α → Bytes → Prop}
    (hok : ∀ n a, answer n = .ok a → Q a s) (herr : ∀ e, E e s) :
    Sees World.raw (ask answer) Q E s := by
  refine ⟨?_⟩
  rintro w rfl
  cases h : answer w.calls with
  | ok a =>
      exact Prog.wp_of_ok (congrArg (·, ({ w with calls := w.calls + 1 } : World)) h) (hok _ a h)
  | error e =>
      exact Prog.wp_of_error (congrArg (·, ({ w with calls := w.calls + 1 } : World)) h) (herr e)

theorem Sees.fileCall {Q : Unit → Bytes → Prop} (hok : Q () s) (herr : ∀ e, E e s) :
    Sees World.raw (fileCall env) Q E s :=
  Sees.ask (fun _ _ _ => hok) herr

theorem Sees.fileSize {Q : Option Nat → Bytes → Prop}
    (hok : ∀ size : Option Nat, size.getD 0 = s.length → Q size s) (herr : ∀ e, E e s) :
    Sees World.raw (fileSize env) Q E s := by
  refine .bind (Sees.fileCall env ⟨?_⟩ herr)
  rintro w rfl
  refine hok _ ?_
  cases hfile : w.file <;> simp [World.raw, hfile]

/-- A cut may come about, or not. -/
theorem Sees.truncate {size : Nat} {Q : Unit → Bytes → Prop} (hok : Q () (s.take size))
    (hbefore : ∀ e, E e s) (hafter : ∀ e, E e (s.take size)) :
    Sees World.raw (truncate env size) Q E s := by
  refine .bind (Sees.fileCall env
      (.bind (Sees.fileCall env (.bind (.modify (g := List.take size) (fun w => ?_)
        (Sees.fileCall env hok hafter))) hbefore)) hbefore)
  cases hfile : w.file <;> simp [World.raw, hfile]

theorem Sees.readHeader {i : Nat} {Q : Bytes → Bytes → Prop} (hok : Q (headerAt s i) s)
    (herr : ∀ e, E e s) : Sees World.raw (readHeader env i) Q E s :=
  .bind (Sees.fileCall env (.gets (g := fun t => headerAt t i) (fun _ => rfl) hok) herr)

theorem Sees.rpcBatch {answer : Nat → Nat → α → Reply} {calls : List α}
    {Q : List Reply → Bytes → Prop} (hok : ∀ replies, replies.length = calls.length → Q replies s)
    (herr : ∀ e, E e s) : Sees World.raw (rpcBatch env answer calls) Q E s := by
  refine Sees.ask (fun n replies h => ?_) herr
  cases hrpc : env.rpc n with
  | error e =>
      rw [hrpc] at h
      exact nomatch h
  | ok _ =>
      rw [hrpc] at h
      refine hok replies ?_
      rw [← Except.ok.inj h, List.length_map, List.length_zipIdx]

theorem Sees.hashBatches {size : Nat} (hsize : 0 < size) (herr : ∀ e, E e s) (fuel : Nat) :
    ∀ {heights : List Nat} {Q : List Reply → Bytes → Prop}, heights.length ≤ fuel →
      (∀ hashes, hashes.length = heights.length → Q hashes s) →
      Sees World.raw (hashBatches env size fuel heights) Q E s := by
  induction fuel with
  | zero =>
      intro heights Q hlen hok
      exact .pure (hok _ (Nat.le_zero.mp hlen).symm)
  | succ fuel ih =>
      intro heights Q hlen hok
      refine .ite (fun hnil => .pure (hok _ (by rw [hnil]; rfl))) fun hne => ?_
      have hpos := List.length_pos_of_ne_nil hne
      refine .bind (Sees.rpcBatch env
          (fun out hout => .bind (ih ?_ fun rest hrest => .pure (hok _ ?_))) herr)
      · rw [List.length_drop]
        omega
      · rw [List.length_append, hout, hrest, List.length_take, List.length_drop]
        omega

theorem Sees.nodeHashes {heights : List Nat} {batch : Int} {Q : List Reply → Bytes → Prop}
    (hok : ∀ hashes, (0 < batch → hashes.length = heights.length) → Q hashes s)
    (herr : ∀ e, E e s) : Sees World.raw (nodeHashes env heights batch) Q E s := by
  refine .ite (fun _ => .raise (herr _)) fun _ =>
    .ite (fun hneg => .pure (hok _ fun hpos => ?_)) fun hneg => ?_
  · omega
  · exact Sees.hashBatches env (by omega) herr _ le_rfl fun hashes h => hok hashes fun _ => h

/-- `write_all` appends the data, or a beginning of it. -/
theorem Sees.writeAll {data : Bytes} {Q : Unit → Bytes → Prop} (hok : Q () (s ++ data))
    (herr : ∀ e landed, landed <+: data → E e (s ++ landed)) :
    Sees World.raw (writeAll env data) Q E s := by
  refine .loop (fun n view t => view.length < n ∧ ∃ landed, data = landed ++ view ∧ t = s ++ landed)
    (fun n view t ⟨hlt, landed, hdata, ht⟩ => ?_) (fun view t ⟨hlt, _⟩ =>
        absurd hlt (Nat.not_lt_zero _))
    (data.length + 1) data ⟨Nat.lt_succ_self _, [], rfl, (List.append_nil s).symm⟩
  refine .ite (fun hnil => ?_) fun hne => .bind ⟨?_⟩
  · rw [hnil, List.append_nil] at hdata
    exact .pure (ht ▸ hdata ▸ hok)
  rintro w rfl
  have hland : ∀ n, E .stop (w.raw ++ view.take n) := fun n => by
    rw [ht, List.append_assoc]
    refine herr _ _ ?_
    rw [hdata]
    exact List.prefix_append_right_inj _ |>.mpr (List.take_prefix n view)
  have hstay : ∀ e, E e w.raw :=
    fun e => ht ▸ herr e landed (hdata ▸ List.prefix_append landed view)
  cases hwrite : env.write w.calls with
  | wrote n =>
      refine Prog.wp_of_ok (by rw [osWrite, hwrite]) (.ite (fun hzero => ?_) fun hpos =>
          .pure ⟨?_, ?_⟩)
      · have hnone : view.take n = [] := by
          refine List.eq_nil_of_length_eq_zero ?_
          rw [List.length_take]
          exact hzero
        refine .raise ?_
        change E _ (w.raw ++ view.take n)
        rw [hnone, List.append_nil]
        exact hstay _
      · rw [List.length_drop]
        omega
      · refine ⟨landed ++ view.take n, ?_, ?_⟩
        · have hdrop : view.drop (min n view.length) = view.drop n := by
            rcases Nat.le_total n view.length with hle | hle
            · rw [Nat.min_eq_left hle]
            · rw [Nat.min_eq_right hle, List.drop_length, List.drop_eq_nil_of_le hle]
          rw [hdrop, List.append_assoc, List.take_append_drop, hdata]
        · change w.raw ++ view.take n = _
          rw [ht, List.append_assoc]
  | raises =>
      exact Prog.wp_of_error (t := { w with calls := w.calls + 1 })
        (by rw [osWrite, hwrite]) (hstay _)
  | stops n => exact Prog.wp_of_error (by rw [osWrite, hwrite]) (hland n)

theorem Sees.openAppend {Q : Unit → Bytes → Prop} (hok : Q () s) (herr : ∀ e, E e s) :
    Sees World.raw (openAppend env) Q E s :=
  .bind (Sees.fileCall env (.modify (g := id) (fun _ => rfl) hok) herr)

/-- The data is appended, or a beginning of it. -/
theorem Sees.appendChunk {chunk : Bytes} {Q : Bool → Bytes → Prop} (hok : Q true (s ++ chunk))
    (hfailed : ∀ landed, landed <+: chunk → Q false (s ++ landed))
    (herr : ∀ e landed, landed <+: chunk → E e (s ++ landed)) :
    Sees World.raw (appendChunk env chunk) Q E s := by
  have hstart : ∀ e, E e s := fun e => List.append_nil s ▸ herr e [] List.nil_prefix
  have hraise : ∀ e landed, landed <+: chunk →
      (∀ n, (if Exc.isOsError e then some (pure false) else none : Option (M Bool)) = some n →
        Sees World.raw n (fun written t => Sees World.raw (do
          ExportHeaders.fileCall env
          pure written) Q E t) E (s ++ landed)) ∧
      ((if Exc.isOsError e then some (pure false) else none : Option (M Bool)) = none →
            E e (s ++ landed)) := by
    intro e landed hp
    refine ⟨fun n hn => ?_, fun _ => herr e landed hp⟩
    split_ifs at hn
    obtain rfl := Option.some.inj hn
    exact .pure (.bind (Sees.fileCall env (.pure (hfailed landed hp)) fun e => herr e landed hp))
  refine .bind (Sees.openAppend env
      (.bind (.catching (.bind (Sees.writeAll env ?_ hraise)))) hstart)
  have hall := List.prefix_refl chunk
  refine .bind (Sees.fileCall env (.pure ?_) fun e => hraise e chunk hall)
  exact .bind (Sees.fileCall env (.pure hok) fun e => herr e chunk hall)

end Calls

/-! ## A batch -/

theorem Tip.le_of_atMost {height last : Int} {tip : Tip} (h : tip.atMost height = .ok last) :
    last ≤ height := by
  cases tip with
  | int n => exact Except.ok.inj h ▸ min_le_right n height
  | float value =>
      simp only [Tip.atMost] at h
      split_ifs at h
      exact (Except.ok.inj h).ge
  | infinite => exact (Except.ok.inj h).ge
  | notANumber => exact nomatch h
  | other => exact nomatch h

/-- The heights of a batch, from the first on. -/
def Heights (height : Nat) (batch : List (Nat × Reply)) : Prop :=
  ∀ k (hk : k < batch.length), (batch[k]).1 = height + k

theorem heights_zip (height count : Nat) (raws : List Reply) :
    Heights height ((List.range' height count).zip raws) := by
  intro k hk
  simp [List.getElem_zip, List.getElem_range']

theorem checkBatch_refusal {network : Network} {refusal : Refusal} (batch : List (Nat × Reply)) :
    ∀ {tail : Tail}, checkBatch network batch tail = .ok (.error refusal) →
      ∀ n, refusal ≠ .writeFailed n := by
  induction batch with
  | nil =>
      intro tail h
      cases h
  | cons call batch ih =>
      intro tail h n
      unfold checkBatch at h
      split at h
      · cases h
      · split at h
        · cases h
        next header _ =>
          by_cases hsize : header.length ≠ headerSize
          · rw [if_pos hsize] at h
            obtain rfl := Except.error.inj (Except.ok.inj h)
            exact fun hne => Refusal.noConfusion hne
          rw [if_neg hsize] at h
          split at h
          · obtain rfl := Except.error.inj (Except.ok.inj h)
            exact fun hne => Refusal.noConfusion hne
          · split at h
            · cases h
            · exact ih h n

section Batch

variable (env : Env) {s : Bytes}

/-- What a round can leave: nothing of the batch when it is refused, and a beginning of the checked
batch when the writing ends early. -/
theorem Sees.exportBatch {args : Args} {tip : Tip} {height : Nat} {tail : Tail}
    {Q : Except Refusal (Nat × Tail × Nat) → Bytes → Prop} {E : Exc → Bytes → Prop}
    (hrefused : ∀ refusal, (∀ n, refusal ≠ .writeFailed n) → Q (.error refusal) s)
    (hraise : ∀ e, E e s) (hchecked : ∀ batch chunk tail', Heights height batch →
      checkBatch args.network batch tail = .ok (.ok (chunk, tail')) → (∀ landed, landed <+: chunk →
        (∀ n, Q (.error (.writeFailed n)) (s ++ landed)) ∧ ∀ e, E e (s ++ landed)) ∧
      Q (.ok (height + batch.length, tail', batch.length)) (s ++ chunk)) :
    Sees World.raw (exportBatch env args tip height tail) Q E s := by
  refine .bind (.ofExcept (fun last hlast => ?_) fun e _ => hraise e)
  have hle := Tip.le_of_atMost hlast
  refine .bind (Sees.nodeHashes env (fun hashes hhashes =>
        .bind (Sees.rpcBatch env (fun raws hraws => ?_) hraise)) hraise)
  refine .bind (.ofExcept (fun result hresult => ?_) fun e _ => hraise e)
  cases result with
  | error refusal => exact .pure (hrefused refusal (checkBatch_refusal _ hresult))
  | ok checked =>
      obtain ⟨chunk, tail'⟩ := checked
      obtain ⟨hlanded, hok⟩ := hchecked _ chunk tail' (heights_zip height _ raws) hresult
      refine .bind (Sees.appendChunk env ?_ (fun landed hp => .pure ((hlanded landed hp).1 _))
        fun e landed hp => (hlanded landed hp).2 e)
      refine .ite (fun hnot => nomatch hnot) fun _ => ?_
      have hraises := (hlanded chunk (List.prefix_refl _)).2
      rw [List.getLast?_range']
      by_cases hcount : (last + 1 - height).toNat = 0
      · rw [if_pos hcount]
        exact .raise (hraises _)
      · rw [if_neg hcount]
        have hbatch : ((List.range' height (last + 1 - height).toNat).zip raws).length =
            (last + 1 - height).toNat := by
          rw [List.length_zip, hraws, hhashes (by omega), List.length_range', Nat.min_self]
        rw [hbatch] at hok
        rw [List.length_range']
        dsimp only
        rw [show height + (last + 1 - height).toNat - 1 + 1 =
          height + (last + 1 - height).toNat by omega]
        exact .pure hok

/-- Whatever comes of a round, what was on file stands at its beginning; a round refused for a
header leaves the file as it was. -/
theorem exportBatch_keeps (args : Args) (tip : Tip) (height : Nat) (tail : Tail) :
    Sees World.raw (exportBatch env args tip height tail)
      (fun r t => s <+: t ∧ ∀ refusal, r = .error refusal → (∀ n, refusal ≠ .writeFailed n) → t = s)
      (fun _ t => s <+: t) s := by
  refine Sees.exportBatch env (fun _ _ => ⟨List.prefix_refl s, fun _ _ _ => rfl⟩)
    (fun _ => List.prefix_refl s)
    fun batch chunk tail' _ _ => ⟨fun landed _ => ⟨fun n => ⟨List.prefix_append s landed, ?_⟩,
      fun _ => List.prefix_append s landed⟩, List.prefix_append s chunk, fun _ h => nomatch h⟩
  intro refusal hrefusal hne
  exact absurd (Except.error.inj hrefusal).symm (hne n)

end Batch

/-! ## A run -/

section Run

variable (env : Env) {network : Network} {s : Bytes} {E : Exc → Bytes → Prop}

theorem take_chained (h : Chained network s) (n : Nat) : Chained network (s.take n) :=
  h.of_prefix (List.take_prefix n s)

theorem length_take_of_le {n : Nat} (h : n ≤ headerCount s) :
    (s.take (n * headerSize)).length = n * headerSize := by
  rw [List.length_take]
  exact Nat.min_eq_left ((Nat.mul_le_mul_right headerSize h).trans (Nat.div_mul_le_self ..))

theorem Sees.truncateIf {c : Prop} [Decidable c]
    {size : Nat} (h : Chained network s) {Q : Unit → Bytes → Prop}
    (hcut : c → Q () (s.take size)) (hnot : ¬c → Q () s) (herr : ∀ e t, Chained network t → E e t) :
    Sees World.raw (truncateIf env c size) Q E s :=
  .ite (fun hc => Sees.truncate env (hcut hc) (fun e => herr e s h) fun e =>
      herr e _ (take_chained h _)) fun hc => .pure (hnot hc)

/-- The file is cut back to its whole headers. -/
theorem Sees.recover (h : Chained network s) {Q : Nat → Bytes → Prop}
    (hok : ∀ n t, Chained network t → t.length = n * headerSize → Q n t)
    (herr : ∀ e t, Chained network t → E e t) : Sees World.raw (recover env) Q E s := by
  refine .bind (Sees.fileSize env (fun size hsize => ?_) fun e => herr e s h)
  rw [hsize]
  refine .bind (Sees.truncateIf env h (fun _ => ?_) (fun hwhole => ?_) herr)
  · exact .pure (hok _ _ (take_chained h _) (length_take_of_le (s := s) le_rfl))
  · exact .pure (hok _ s h (Nat.div_mul_cancel (Nat.dvd_of_mod_eq_zero (not_not.mp hwhole))).symm)

theorem Sees.nodeHashAt {args : Args} {tip : Tip} {height : Nat} {Q : Reply → Bytes → Prop}
    (hok : ∀ hash, Q hash s) (herr : ∀ e, E e s) :
    Sees World.raw (nodeHashAt env args tip height) Q E s := by
  refine .bind (.ofExcept (fun reaches _ => ?_) fun e _ => herr e)
  refine .ite (fun _ => .bind (Sees.nodeHashes env (fun hashes _ => ?_) herr)) fun _ =>
    .pure (hok _)
  cases hashes with
  | nil => exact .raise (herr _)
  | cons hash rest => exact .pure (hok _)

theorem Sees.findCommon {args : Args} {tip : Tip} {Q : Nat → Bytes → Prop}
    (herr : ∀ e, E e s) (n : Nat) :
    (∀ keep ≤ n, Q keep s) → Sees World.raw (findCommon env args tip n) Q E s := by
  induction n with
  | zero => exact fun hok => .pure (hok 0 le_rfl)
  | succ n ih =>
      intro hok
      refine .bind (Sees.readHeader env (.bind (Sees.nodeHashAt env (fun hash => ?_) herr)) herr)
      exact .ite (fun _ => .pure (hok _ le_rfl)) fun _ => ih fun keep hkeep =>
        hok keep (Nat.le_succ_of_le hkeep)

theorem Sees.tailOf {keep : Nat} {Q : Tail → Bytes → Prop} (hok : Q (tailAt s keep) s)
    (herr : ∀ e, E e s) : Sees World.raw (tailOf env keep) Q E s := by
  rw [tailAt] at hok
  refine .ite (fun hzero => .pure ?_) fun hne => .bind (Sees.readHeader env (.pure ?_) herr)
  · rwa [if_pos hzero] at hok
  · rwa [if_neg hne] at hok

/-- A run goes on from a beginning of the file, and knows what the next header follows. -/
theorem Sees.resume {args : Args} {tip : Tip} {onFile : Nat} (h : Chained network s)
    (hlen : s.length = onFile * headerSize) {Q : Nat × Tail → Bytes → Prop}
    (hok : ∀ n t, Chained network t → t.length = n * headerSize → Q (n, tailAt t n) t)
    (herr : ∀ e t, Chained network t → E e t) :
    Sees World.raw (resume env args tip onFile) Q E s := by
  refine .ite (fun hzero => .pure (hok 0 s h (hzero ▸ hlen))) fun _ => ?_
  refine .bind (Sees.fileCall env
      (.bind (Sees.findCommon env (fun e => herr e s h) onFile fun keep hkeep => ?_))
      fun e => herr e s h)
  have hrest : ∀ t, Chained network t → t.length = keep * headerSize → Sees World.raw (do
      let tail ← ExportHeaders.tailOf env keep
      pure (keep, tail)) Q E t :=
    fun t ht htlen => .bind (Sees.tailOf env (.pure (hok keep t ht htlen)) fun e => herr e t ht)
  refine .bind (Sees.truncateIf env h (fun hlt => ?_) (fun hge => ?_) herr)
  · have hcount : headerCount s = onFile := headerCount_of_length hlen
    exact hrest _ (take_chained h _) (length_take_of_le (by omega))
  · exact hrest s h (by rw [hlen, Nat.le_antisymm hkeep (Nat.le_of_not_lt hge)])

theorem Sees.finish {appended : Nat} {Q : Nat → Bytes → Prop} (hok : Q 0 s) (herr : ∀ e, E e s) :
    Sees World.raw (finish env appended) Q E s := by
  have hlast : Sees World.raw (do
      ExportHeaders.fileCall env
      pure 0) Q E s := .bind (Sees.fileCall env (.pure hok) herr)
  refine .bind (.ite (fun _ => .pure hlast) fun _ => ?_)
  exact .bind (Sees.fileCall env (Sees.fileCall env hlast herr) herr)

/-- The loop's variables agree with what is on file. -/
structure Position.At (network : Network) (t : Bytes) (b : Position) : Prop where
  chained : Chained network t
  length : t.length = b.height * headerSize
  tail : b.tail = tailAt t b.height

theorem exportRound_at {args : Args} {tip : Tip} {b : Position} {t : Bytes}
    (hb : b.At args.network t) :
    Sees World.raw (exportRound env args tip b)
      (fun r t => match r with | .inl b => b.At args.network t | .inr _ => Chained args.network t)
      (fun _ => Chained args.network) t := by
  obtain ⟨height, tail, appended⟩ := b
  obtain ⟨ht, hlen, htail⟩ := hb
  dsimp only at hlen htail
  subst htail
  refine .bind (.ofExcept (fun reaches _ => .ite (fun _ => ?_) fun _ => ?_) fun _ _ => ht)
  · refine .bind (Sees.exportBatch env (fun _ _ => .pure ht)
        (fun _ => ht) fun batch chunk tail' hheights hcheck => ?_)
    obtain ⟨hchain, hlength, htail⟩ := ht.batch hlen hheights hcheck
    refine ⟨fun landed hp => ?_, .pure ⟨hchain, hlength, htail⟩⟩
    have hlanded : Chained args.network (t ++ landed) :=
      hchain.of_prefix ((List.prefix_append_right_inj t).mpr hp)
    exact ⟨fun _ => .pure hlanded, fun _ => hlanded⟩
  · exact .bind (Sees.finish env (.pure ht) fun _ => ht)

/-- A run keeps the file a chain, wherever it ends. -/
theorem exportRun_chained (args : Args) (rounds : Nat) (h : Chained args.network s) :
    Sees World.raw (exportRun env args rounds) (fun _ => Chained args.network)
      (fun _ => Chained args.network) s := by
  refine .bind (Sees.recover env h (fun onFile s₁ h₁ hlen₁ => ?_) fun _ _ ht => ht)
  refine .bind (Sees.ask (fun _ tip _ => ?_) fun _ => h₁)
  refine .bind (Sees.resume env h₁ hlen₁ (fun height s₂ h₂ hlen₂ => ?_) fun _ _ ht => ht)
  exact .loop (fun _ b t => b.At args.network t) (fun _ _ _ hb =>
      (exportRound_at env hb).mono (fun r _ hr => by cases r <;> exact hr) fun _ _ he => he)
    (fun _ _ hb => .raise hb.chained) rounds _ ⟨h₂, hlen₂, rfl⟩

end Run

/-- Runs of the exporter on one network, from no file. -/
def exports (network : Network) : Transition.System World where
  init w := w.file = none
  step w w' := ∃ env args rounds, args.network = network ∧ w' = (exportRun env args rounds w).2

theorem chained_of_reachable {network : Network} {w : World} (h : (exports network).Reachable w) :
    Chained network w.raw := by
  induction h with
  | init hinit =>
      rw [World.raw, show World.file _ = none from hinit]
      exact chained_nil network
  | step _ hstep ih =>
      obtain ⟨env, args, rounds, rfl, rfl⟩ := hstep
      exact (exportRun_chained env args rounds ih).apply

/-- After any runs from no file, whatever the node answered and wherever they were stopped, the
verifier finds nothing in the file but what the exporter does not judge; and a round that ends
with a refusal leaves what was written before it, all of the file when a header is refused. -/
theorem exported_file_verifies (network : Network) :
    (∀ w, (exports network).Reachable w → ∀ wanted,
      ∀ problem ∈ (verifyChain w.raw 0 none wanted network).problems,
        Tolerated network w.raw problem) ∧
    ∀ env args tip height tail w refusal,
      (exportBatch env args tip height tail w).1 = .ok (.error refusal) →
      w.raw <+: (exportBatch env args tip height tail w).2.raw ∧
        ((∀ n, refusal ≠ .writeFailed n) →
          (exportBatch env args tip height tail w).2.raw = w.raw) := by
  refine ⟨fun w hw wanted => (chained_of_reachable hw).verifies wanted,
    fun env args tip height tail w refusal h => ?_⟩
  have hkeeps := (exportBatch_keeps env (s := w.raw) args tip height tail).out w rfl
  revert hkeeps h
  unfold Prog.wp
  rcases exportBatch env args tip height tail w with ⟨e | r, t⟩
  · exact fun h => nomatch h
  · intro h hkeeps
    exact ⟨hkeeps.1, hkeeps.2 refusal (Except.ok.inj h)⟩

namespace DiskFull

/-! ### A first run whose write fails -/

/-- The genesis block's header on regtest. -/
def header : Bytes :=
  [0x01, 0, 0, 0] ++ List.replicate 32 0 ++
    [0x3b, 0xa3, 0xed, 0xfd, 0x7a, 0x7b, 0x12, 0xb2, 0x7a, 0xc7, 0x2c, 0x3e, 0x67, 0x76, 0x8f, 0x61,
     0x7f, 0xc8, 0x1b, 0xc3, 0x88, 0x8a, 0x51, 0x32, 0x3a, 0x9f, 0xb8, 0xaa, 0x4b, 0x1e, 0x5e, 0x4a,
     0xda, 0xe5, 0x49, 0x4d, 0xff, 0xff, 0x7f, 0x20, 0x02, 0, 0, 0]

def env : Env where
  file _ := .done
  write _ := .raises
  rpc _ := .ok ()
  getblockcount _ := .int 0
  getblockhash _ _ _ := some (display (sha256d header))
  getblockheader _ _ _ := some (Bytes.hexText header)

def args : Args := ⟨500, .regtest⟩

def start : World := ⟨none, 0⟩

def after : World := (exportRun env args 2 start).2

end DiskFull

open DiskFull in
/-- A file that was made and never written holds no header, and the verifier says so. -/
theorem exported_file_may_be_empty :
    ¬ ∀ (network : Network) (w : World), (exports network).Reachable w → ∀ wanted,
      ∀ problem ∈ (verifyChain w.raw 0 none wanted network).problems,
        (∃ extra, problem = .partialHeader extra) ∨
          (∃ actual, problem = .notGenesis network actual) ∨ ∃ height bits expected,
            height % retargetInterval = 0 ∧ problem = .wrongRetarget height bits expected := by
  intro hclaim
  have hreach : (exports .regtest).Reachable after :=
    .step (.init (s := start) rfl) ⟨env, args, 2, rfl, rfl⟩
  have hempty : Problem.empty ∈ (verifyChain after.raw 0 none [] .regtest).problems := by
    decide +kernel
  obtain ⟨_, h⟩ | ⟨_, h⟩ | ⟨_, _, _, -, h⟩ := hclaim .regtest after hreach [] .empty hempty
  all_goals exact nomatch h

end OtsServer.ExportHeaders
