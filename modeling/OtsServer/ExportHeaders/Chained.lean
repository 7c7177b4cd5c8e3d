import OtsServer.ExportHeaders.Export
import OtsServer.Library.Transition

/-!
# The exporter's file is a chain

At every moment of every run the whole headers on file follow one another: each links to
the one before it, has a valid target, meets it, and keeps its bits between retargets. What
`verify_chain` can still find is what the exporter does not judge.
-/

namespace OtsServer.ExportHeaders

open VerifyClaim
open Prog (Sees)

/-- The rules that the header at index `i` of a file keeps, whoever wrote it. -/
structure Follows (network : Network) (raw : Bytes) (i : Nat) : Prop where
  link : ∀ j, i = j + 1 → (headerFields (headerAt raw i)).prev = sha256d (headerAt raw j)
  work : ∃ target, IsTarget network (headerBits (headerAt raw i)) target ∧
    Bytes.natLE (sha256d (headerAt raw i)) ≤ target
  steady : network.retarget → ∀ j, i = j + 1 → i % retargetInterval ≠ 0 →
    headerBits (headerAt raw i) = headerBits (headerAt raw j)

def Chained (network : Network) (raw : Bytes) : Prop := ∀ i < headerCount raw, Follows network raw i

/-! ## Headers of a file and of its beginnings -/

theorem headerAt_append {raw : Bytes} {i : Nat} (h : i < headerCount raw) (rest : Bytes) :
    headerAt (raw ++ rest) i = headerAt raw i := by
  have hlen : (i + 1) * headerSize ≤ raw.length := (Nat.le_div_iff_mul_le (by decide)).mp h
  rw [Nat.succ_mul] at hlen
  unfold headerAt
  rw [List.drop_append_of_le_length (by omega),
    List.take_append_of_le_length (by rw [List.length_drop]; omega)]

theorem Follows.of_append {network : Network} {raw rest : Bytes} {i : Nat}
    (hi : i < headerCount raw) : Follows network (raw ++ rest) i ↔ Follows network raw i := by
  have hat : ∀ j ≤ i, headerAt (raw ++ rest) j = headerAt raw j :=
    fun j hj => headerAt_append (Nat.lt_of_le_of_lt hj hi) rest
  constructor
  · rintro ⟨hlink, hwork, hsteady⟩
    rw [hat i le_rfl] at hlink hwork hsteady
    refine ⟨fun j hj => ?_, hwork, fun hr j hj hm => ?_⟩
    · rw [← hat j (by omega)]
      exact hlink j hj
    · rw [← hat j (by omega)]
      exact hsteady hr j hj hm
  · rintro ⟨hlink, hwork, hsteady⟩
    refine ⟨fun j hj => ?_, ?_, fun hr j hj hm => ?_⟩
    · rw [hat i le_rfl, hat j (by omega)]
      exact hlink j hj
    · rw [hat i le_rfl]
      exact hwork
    · rw [hat i le_rfl, hat j (by omega)]
      exact hsteady hr j hj hm

theorem headerCount_append_le (raw rest : Bytes) : headerCount raw ≤ headerCount (raw ++ rest) :=
  Nat.div_le_div_right (by rw [List.length_append]; omega)

/-- A beginning of a chain, cut anywhere, is a chain. -/
theorem Chained.of_prefix {network : Network} {raw raw' : Bytes} (h : Chained network raw)
    (hp : raw' <+: raw) : Chained network raw' := by
  obtain ⟨rest, rfl⟩ := hp
  exact fun i hi =>
    (Follows.of_append hi).mp (h i (Nat.lt_of_lt_of_le hi (headerCount_append_le raw' rest)))

theorem chained_nil (network : Network) : Chained network [] :=
  fun i hi => absurd hi (Nat.not_lt_zero i)

/-- What the header at index `n` has to follow. -/
def tailAt (raw : Bytes) (n : Nat) : Tail :=
  if n = 0 then ⟨none, none⟩ else .after (headerAt raw (n - 1))

theorem tailAt_succ (raw : Bytes) (n : Nat) : tailAt raw (n + 1) = .after (headerAt raw n) := rfl

section Append

variable {network : Network} {raw header : Bytes} {n : Nat}

theorem headerCount_of_length (h : raw.length = n * headerSize) : headerCount raw = n := by
  rw [headerCount, h]
  exact Nat.mul_div_cancel n (by decide)

theorem headerAt_snoc (hraw : raw.length = n * headerSize) (hheader : header.length = headerSize) :
    headerAt (raw ++ header) n = header := by
  unfold headerAt
  rw [← hraw, List.drop_left, ← hheader, List.take_length]

/-- A header that is not refused follows the ones before it. -/
theorem Chained.snoc (h : Chained network raw) (hraw : raw.length = n * headerSize)
    (hheader : header.length = headerSize)
    (hcheck : checkHeader header n (tailAt raw n) network = none) :
    Chained network (raw ++ header) := by
  intro i hi
  have hcount : headerCount (raw ++ header) = n + 1 :=
    headerCount_of_length (by rw [List.length_append, hraw, hheader, Nat.succ_mul])
  rw [hcount] at hi
  rcases Nat.lt_succ_iff_lt_or_eq.mp hi with hlt | rfl
  · have hlt' : i < headerCount raw := (headerCount_of_length hraw).symm ▸ hlt
    exact (Follows.of_append hlt').mpr (h i hlt')
  have hbefore : ∀ j, i = j + 1 → headerAt (raw ++ header) j = headerAt raw j :=
    fun j hj => headerAt_append ((headerCount_of_length hraw).symm ▸ by omega) header
  unfold checkHeader at hcheck
  dsimp only at hcheck
  by_cases hlink : (tailAt raw i).prevHash ≠ none ∧
    some (headerFields header).prev ≠ (tailAt raw i).prevHash
  · rw [if_pos hlink] at hcheck
    exact nomatch hcheck
  rw [if_neg hlink] at hcheck
  split at hcheck
  · exact nomatch hcheck
  next target htarget =>
    split_ifs at hcheck with hwork hsteady
    refine ⟨fun j hj => ?_, ⟨target, ?_, ?_⟩, fun hr j hj hm => ?_⟩
    · rw [headerAt_snoc hraw hheader, hbefore j hj]
      subst hj
      by_contra hne
      exact hlink ⟨(fun hnone => nomatch hnone), fun heq => hne (Option.some.inj heq)⟩
    · rw [headerAt_snoc hraw hheader]
      exact (checkTarget_eq_ok_iff ..).mp htarget
    · rw [headerAt_snoc hraw hheader]
      exact Nat.le_of_not_gt hwork
    · rw [headerAt_snoc hraw hheader, hbefore j hj]
      subst hj
      by_contra hne
      exact hsteady ⟨hr, (fun hnone => nomatch hnone), hm, fun heq => hne (Option.some.inj heq)⟩

/-- A batch that is not refused goes on with the chain, and leaves what the next one follows. -/
theorem Chained.batch {batch : List (Nat × Reply)} :
    ∀ {raw : Bytes} {n : Nat} {chunk : Bytes} {tail : Tail}, Chained network raw →
      raw.length = n * headerSize → (∀ k (hk : k < batch.length), (batch[k]).1 = n + k) →
    checkBatch network batch (tailAt raw n) = .ok (.ok (chunk, tail)) →
    Chained network (raw ++ chunk) ∧ (raw ++ chunk).length = (n + batch.length) * headerSize ∧
      tail = tailAt (raw ++ chunk) (n + batch.length) := by
  induction batch with
  | nil =>
      intro raw n chunk tail h hraw _ hbatch
      obtain ⟨rfl, rfl⟩ := Prod.mk.inj (Except.ok.inj (Except.ok.inj hbatch))
      rw [List.append_nil]
      exact ⟨h, hraw, rfl⟩
  | cons call batch ih =>
      intro raw n chunk tail h hraw hheights hbatch
      obtain ⟨height, reply⟩ := call
      obtain rfl : height = n := hheights 0 (Nat.succ_pos _)
      unfold checkBatch at hbatch
      cases reply with
      | none => exact nomatch hbatch
      | some text =>
          dsimp only at hbatch
          cases hhex : Text.fromHex text with
          | none =>
              rw [hhex] at hbatch
              exact nomatch hbatch
          | some header =>
              rw [hhex] at hbatch
              dsimp only at hbatch
              by_cases hsize : header.length ≠ headerSize
              · rw [if_pos hsize] at hbatch
                exact nomatch hbatch
              rw [if_neg hsize] at hbatch
              cases hcheck : checkHeader header height (tailAt raw height) network with
              | some reason =>
                  rw [hcheck] at hbatch
                  exact nomatch hbatch
              | none =>
                  rw [hcheck] at hbatch
                  have hlen := not_not.mp hsize
                  have hsnoc : (raw ++ header).length = (height + 1) * headerSize := by
                    rw [List.length_append, hraw, hlen, Nat.succ_mul]
                  have htail : Tail.after header = tailAt (raw ++ header) (height + 1) := by
                    rw [tailAt_succ, headerAt_snoc hraw hlen]
                  rw [htail] at hbatch
                  dsimp only at hbatch
                  split at hbatch
                  next rest tail' hrest =>
                    obtain ⟨rfl, rfl⟩ := Prod.mk.inj (Except.ok.inj (Except.ok.inj hbatch))
                    have hnext : ∀ k (hk : k < batch.length), (batch[k]).1 = height + 1 + k := by
                      intro k hk
                      have := hheights (k + 1) (Nat.succ_lt_succ hk)
                      rw [List.getElem_cons_succ] at this
                      omega
                    obtain ⟨hchain, hlength, rfl⟩ := ih (h.snoc hraw hlen hcheck) hsnoc hnext hrest
                    rw [List.append_assoc] at hchain hlength ⊢
                    rw [List.length_cons,
                      show height + (batch.length + 1) = height + 1 + batch.length by omega]
                    exact ⟨hchain, hlength, rfl⟩
                  next hnot => exact absurd hbatch (hnot _ _)

end Append

/-! ## What the verifier finds -/

/-- What `verify_chain` may find in the exporter's file; that it is empty, where no whole header is
on file. -/
inductive Tolerated (network : Network) (raw : Bytes) : Problem → Prop
  | partialHeader (extra : Nat) : Tolerated network raw (.partialHeader extra)
  | empty : headerCount raw = 0 → Tolerated network raw .empty
  | notGenesis (actual : Bytes) : Tolerated network raw (.notGenesis network actual)
  | wrongRetarget (height : Int) (bits expected : Nat) : height % retargetInterval = 0 →
      Tolerated network raw (.wrongRetarget height bits expected)

theorem headerStep_tolerated {network : Network}
    {raw : Bytes} {wanted : List Bytes} {i : Nat} {s s' : Progress}
    {trust : Option Trust} {problem : Problem} (hs : s.At raw 0 trust i) (h : Follows network raw i)
    (hstep : headerStep raw 0 wanted network i s = .error (s', problem)) :
    Tolerated network raw problem := by
  obtain ⟨target, htarget, hwork⟩ := h.work
  simp only [headerStep, headerFields_bits, (checkTarget_eq_ok_iff ..).mpr htarget,
    if_neg (Nat.not_lt.mpr hwork), zero_add] at hstep
  split at hstep
  next e hlink =>
    obtain rfl := Except.error.inj hstep
    cases i with
    | zero =>
        rw [linkHeader, if_pos (hs.firstHash.mpr rfl)] at hlink
        dsimp only at hlink
        split_ifs at hlink
        obtain ⟨-, rfl⟩ := Prod.mk.inj (Except.error.inj hlink)
        exact .notGenesis _
    | succ j =>
        have hfirst : s.firstHash ≠ none := fun hnone => Nat.succ_ne_zero j (hs.firstHash.mp hnone)
        rw [linkHeader, if_neg hfirst, hs.prevHash j rfl, h.link j rfl,
          if_neg (not_not.mpr rfl)] at hlink
        cases hlink
  next s₁ hlink =>
    have hlink' : linkHeader network (0 + (i : Int)) (sha256d (headerAt raw i))
        (headerFields (headerAt raw i)).prev s = .ok s₁ := by
      rw [zero_add, hlink]
    obtain ⟨-, -, -, hbits, -⟩ := linkHeader_ok hs hlink'
    split at hstep
    next e hdiff =>
      obtain rfl := Except.error.inj hstep
      unfold checkDifficulty at hdiff
      split at hdiff
      · cases hdiff
      next prevBits hprev =>
        dsimp only at hdiff
        split_ifs at hdiff with hretarget hmod hne hfirst
        · obtain ⟨-, rfl⟩ := Prod.mk.inj (Except.error.inj hdiff)
          cases i with
          | zero =>
              have hnone := (hs.noBits rfl).symm.trans (hbits.symm.trans hprev)
              cases hnone
          | succ j =>
              have hbits' :=
                Option.some.inj ((hs.prevBits j rfl).symm.trans (hbits.symm.trans hprev))
              refine absurd ?_ hne
              rw [← hbits']
              refine h.steady (by simpa using hretarget) j rfl fun hzero => hmod ?_
              exact_mod_cast hzero
        · obtain ⟨-, rfl⟩ := Prod.mk.inj (Except.error.inj hdiff)
          exact .wrongRetarget _ _ _ (not_not.mp hmod)
    next => cases hstep

theorem checkHeaders_tolerated {network : Network} {raw : Bytes} {wanted : List Bytes}
    {trust : Option Trust} (todo : Nat) :
    ∀ (i : Nat) (s : Progress), s.At raw 0 trust i →
      (∀ k, i ≤ k → k < i + todo → Follows network raw k) →
      ∀ problem ∈ (checkHeaders raw 0 wanted network todo i s).2,
        Tolerated network raw problem := by
  induction todo with
  | zero => exact fun _ _ _ _ problem hmem => absurd hmem List.not_mem_nil
  | succ todo ih =>
      intro i s hs hfollows problem hmem
      rw [checkHeaders] at hmem
      split at hmem
      next s' problem' hstep =>
        obtain rfl := List.mem_singleton.mp hmem
        exact headerStep_tolerated hs (hfollows i le_rfl (by omega)) hstep
      next s' hstep =>
        exact ih (i + 1) s' (headerStep_ok hs hstep).2
          (fun k hk hlt => hfollows k (by omega) (by omega)) problem hmem

/-- A chain has, for the verifier, no problem that the exporter could have seen. -/
theorem Chained.verifies {network : Network} {raw : Bytes} (h : Chained network raw)
    (wanted : List Bytes) :
    ∀ problem ∈ (verifyChain raw 0 none wanted network).problems,
      Tolerated network raw problem := by
  intro problem hmem
  have hpartial : ∀ problem ∈ (if raw.length % headerSize ≠ 0 then
      [Problem.partialHeader (raw.length % headerSize)] else []),
          Tolerated network raw problem := by
    intro problem hmem
    split_ifs at hmem
    · exact List.mem_singleton.mp hmem ▸ .partialHeader _
    · exact absurd hmem List.not_mem_nil
  rw [verifyChain] at hmem
  dsimp only at hmem
  by_cases hcount : headerCount raw = 0
  · rw [if_pos hcount] at hmem
    obtain hmem | hmem := List.mem_append.mp hmem
    · exact hpartial problem hmem
    · exact List.mem_singleton.mp hmem ▸ .empty hcount
  · rw [if_neg hcount, checkpointProblem] at hmem
    obtain hmem | hmem := List.mem_append.mp hmem
    · exact hpartial problem hmem
    · exact checkHeaders_tolerated (headerCount raw) 0 _ (Progress.at_start raw 0 _)
        (fun k _ hk => h k (by omega)) problem hmem

end OtsServer.ExportHeaders
