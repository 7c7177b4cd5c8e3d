import OtsServer.VerifyClaim.Reading

/-!
# The loop reads the recursive grammar

The stack of resume points is the call stack of the recursive reading: reading a
timestamp from any state ends in `Walk.resume`, which pops the point the enclosing fork
left. `walkStep_cases` says once what an iteration can do. Completeness follows the
syntax tree and soundness the number of bytes left, which every iteration reduces.
-/

namespace OtsServer.VerifyClaim

/-- Everything an iteration that raises nothing can have done. -/
theorem walkStep_cases {w : Walk} {next : Walk.Next} (h : walkStep w = .ok next) :
    (∃ rest, w.rest = forkMarker :: rest ∧ w.afterFork = false ∧
      next = .again { w with
        rest := rest, pending := ⟨w.msg, w.path, w.ops⟩ :: w.pending, afterFork := true }) ∨
    (∃ n bs rest, w.rest = attestationMarker :: (bs ++ rest) ∧ Notary.Encodes n bs ∧
      next = Walk.resume rest (w.out ++ [n.attestation w.msg w.path]) w.pending) ∨
    (∃ o bs rest, w.rest = bs ++ rest ∧ Op.Encodes o bs ∧
      (o.apply w.msg).length ≤ maxOperand ∧ w.ops + 1 ≤ maxOpsOnAPath ∧
      next = .again { w with
        rest := rest, msg := o.apply w.msg, path := w.path ++ [o.step w.msg], ops := w.ops + 1
        afterFork := false }) := by
  unfold walkStep at h
  split at h
  · cases h
  · next tag rest hrest =>
    split at h
    · next htag =>
      split at h
      · cases h
      · next hfork =>
        exact .inl ⟨rest, by rw [hrest, htag], by simpa using hfork, (Except.ok.inj h).symm⟩
    · split at h
      · next htag =>
        split at h
        · cases h
        · next attestation tail hread =>
          obtain ⟨n, bs, rfl, henc, rfl⟩ := readAttestation_ok_iff.mp hread
          exact .inr (.inl ⟨n, bs, tail, by rw [hrest, htag], henc, (Except.ok.inj h).symm⟩)
      · split at h
        · cases h
        · split at h
          · cases h
          · next operand new tail hread =>
            obtain ⟨o, bs, heq, henc, rfl, rfl⟩ := readOperation_ok_iff.mp hread
            obtain ⟨tag', field, rfl, hname, -, -⟩ := henc.cons
            obtain ⟨rfl, -⟩ := List.cons.inj heq
            rw [hname] at h
            split_ifs at h with hnew hops
            exact .inr (.inr ⟨o, tag :: field, tail, by rw [hrest, heq], henc, by omega, by omega,
              (Except.ok.inj h).symm⟩)

theorem walkStep_fork {w : Walk} {rest : Bytes} (h : w.rest = forkMarker :: rest)
    (hfork : w.afterFork = false) :
    walkStep w = .ok (.again { w with
      rest := rest, pending := ⟨w.msg, w.path, w.ops⟩ :: w.pending, afterFork := true }) := by
  simp [walkStep, h, hfork]

theorem walkStep_attest {w : Walk} {n : Notary} {bs rest : Bytes}
    (h : w.rest = attestationMarker :: (bs ++ rest)) (henc : n.Encodes bs) :
    walkStep w =
      .ok (Walk.resume rest (w.out ++ [n.attestation w.msg w.path]) w.pending) := by
  have hread : readAttestation (bs ++ rest) w.msg w.path = .ok (n.attestation w.msg w.path, rest) :=
    readAttestation_ok_iff.mpr ⟨n, bs, rfl, henc, rfl⟩
  have hne : attestationMarker ≠ forkMarker := by decide
  simp [walkStep, h, hread, hne]

theorem walkStep_op {w : Walk} {o : Op} {bs rest : Bytes} (h : w.rest = bs ++ rest)
    (henc : o.Encodes bs) (hmsg : w.msg.length ≤ maxMsg)
    (hnew : (o.apply w.msg).length ≤ maxOperand) (hops : w.ops + 1 ≤ maxOpsOnAPath) :
    walkStep w = .ok (.again { w with
      rest := rest, msg := o.apply w.msg, path := w.path ++ [o.step w.msg], ops := w.ops + 1
      afterFork := false }) := by
  obtain ⟨tag, field, rfl, hname, hfork, hattest⟩ := henc.cons
  have hread : readOperation tag (field ++ rest) w.msg = .ok (o.operand, o.apply w.msg, rest) :=
    readOperation_ok_iff.mpr ⟨o, tag :: field, rfl, henc, rfl, rfl⟩
  rw [List.cons_append] at h
  simp [walkStep, h, hfork, hattest, hread, hname, show ¬ maxMsg < w.msg.length by omega,
    show ¬ maxOperand < (o.apply w.msg).length by omega,
    show ¬ maxOpsOnAPath < w.ops + 1 by omega, Op.step]

theorem walkStep_onlyProofError (w : Walk) : OnlyProofError (walkStep w) := by
  unfold walkStep
  split
  · exact .proofError _
  · next tag rest hrest =>
    split
    · split
      · exact .proofError _
      · exact .ok _
    · split
      · split
        · next h => exact (readAttestation_onlyProofError _ _ _).error_of_eq h
        · exact .ok _
      · split
        · exact .proofError _
        · split
          · next h => exact (readOperation_onlyProofError _ _ _).error_of_eq h
          · next operand new tail hread =>
            obtain ⟨o, bs, heq, henc, rfl, rfl⟩ := readOperation_ok_iff.mp hread
            obtain ⟨tag', field, rfl, hname, -, -⟩ := henc.cons
            obtain ⟨rfl, -⟩ := List.cons.inj heq
            rw [hname]
            split_ifs
            · exact .proofError _
            · exact .proofError _
            · exact .ok _

/-- Every iteration that goes round has consumed a byte. -/
theorem walkStep_rest_lt {w w' : Walk} (h : walkStep w = .ok (.again w')) :
    w'.rest.length < w.rest.length := by
  rcases walkStep_cases h with ⟨rest, hrest, -, heq⟩ | ⟨n, bs, rest, hrest, -, heq⟩ |
    ⟨o, bs, rest, hrest, henc, -, -, heq⟩
  · cases heq
    simp [hrest]
  · cases hp : w.pending with
    | nil => rw [hp] at heq; cases heq
    | cons r pending =>
        rw [hp] at heq
        cases heq
        simp only [hrest, List.length_cons, List.length_append]
        omega
  · cases heq
    obtain ⟨tag, field, rfl, -⟩ := henc.cons
    simp only [hrest, List.length_cons, List.length_append]
    omega

/-- Iterations of the loop, from one state to a later place. -/
inductive Steps : Walk → Walk.Next → Prop
  | one {w : Walk} {next : Walk.Next} : walkStep w = .ok next → Steps w next
  | more {w w' : Walk} {next : Walk.Next} : walkStep w = .ok (.again w') → Steps w' next →
      Steps w next

theorem Steps.trans {w w' : Walk} {next : Walk.Next} (first : Steps w (.again w'))
    (rest : Steps w' next) : Steps w next := by
  generalize hmid : Walk.Next.again w' = mid at first
  induction first with
  | one h => subst hmid; exact .more h rest
  | more h _ ih => exact .more h (ih hmid)

theorem walk_of_steps {w : Walk} {out : List Attestation} {rest : Bytes}
    (h : Steps w (.done out rest)) :
    ∀ fuel, w.rest.length < fuel → walk fuel w = .ok (out, rest) := by
  generalize hend : Walk.Next.done out rest = last at h
  induction h with
  | one h =>
      subst hend
      intro fuel hfuel
      obtain ⟨fuel, rfl⟩ := Nat.exists_eq_succ_of_ne_zero (Nat.ne_of_gt (Nat.zero_lt_of_lt hfuel))
      simp [walk, h]
  | more h _ ih =>
      intro fuel hfuel
      obtain ⟨fuel, rfl⟩ := Nat.exists_eq_succ_of_ne_zero (Nat.ne_of_gt (Nat.zero_lt_of_lt hfuel))
      have hlt := walkStep_rest_lt h
      simp only [walk, h]
      exact ih hend fuel (by omega)

theorem steps_of_walk (fuel : Nat) :
    ∀ {w : Walk} {out : List Attestation} {rest : Bytes}, walk fuel w = .ok (out, rest) →
      Steps w (.done out rest) := by
  induction fuel with
  | zero => intro w out rest h; cases h
  | succ fuel ih =>
      intro w out rest h
      unfold walk at h
      split at h
      · cases h
      · next hstep => cases h; exact .one hstep
      · next hstep => exact .more hstep (ih h)

/-- A walk with enough iterations for the bytes it has left does not run out of them. -/
theorem walk_onlyProofError (fuel : Nat) :
    ∀ {w : Walk}, w.rest.length < fuel → OnlyProofError (walk fuel w) := by
  induction fuel with
  | zero => intro w h; omega
  | succ fuel ih =>
      intro w h
      unfold walk
      split
      · next hstep => exact (walkStep_onlyProofError w).error_of_eq hstep
      · exact .ok _
      · next w' hstep =>
        have hlt := walkStep_rest_lt hstep
        exact ih (by omega)

mutual

/-- From any state before a spelled timestamp, the loop reads it and resumes. -/
theorem Timestamp.steps (tail : Bytes) (msg : Bytes) (path : List Step) (pending : List Resume) :
    ∀ (t : Timestamp) (bs : Bytes) (out : List Attestation), t.Encodes bs →
      msg.length ≤ maxMsg → (∀ a ∈ t.attestations msg path, PathWithinLimits a.path) →
      Steps ⟨bs ++ tail, msg, path, path.length, false, pending, out⟩
        (Walk.resume tail (out ++ t.attestations msg path) pending)
  | .last b, bs, out, henc, hmsg, hlimits =>
      b.steps tail msg path false pending bs out henc hmsg hlimits
  | .fork b t, bs, out, henc, hmsg, hlimits => by
      obtain ⟨xs, ys, rfl, hb, ht⟩ := henc
      simp only [Timestamp.attestations, List.mem_append] at hlimits
      let w : Walk :=
        ⟨forkMarker :: (xs ++ ys) ++ tail, msg, path, path.length, false, pending, out⟩
      have hfork : walkStep w = .ok (.again ⟨xs ++ (ys ++ tail), msg, path, path.length, true,
          ⟨msg, path, path.length⟩ :: pending, out⟩) := walkStep_fork (by simp [w]) rfl
      have hbranch := b.steps (ys ++ tail) msg path true (⟨msg, path, path.length⟩ :: pending) xs
        out hb hmsg (fun a ha => hlimits a (.inl ha))
      have hrest := t.steps tail msg path pending ys (out ++ b.attestations msg path) ht hmsg
        (fun a ha => hlimits a (.inr ha))
      rw [Timestamp.attestations, ← List.append_assoc]
      exact .more hfork (hbranch.trans hrest)

theorem Branch.steps (tail : Bytes) (msg : Bytes) (path : List Step) (afterFork : Bool)
    (pending : List Resume) :
    ∀ (b : Branch) (bs : Bytes) (out : List Attestation), b.Encodes bs →
      msg.length ≤ maxMsg → (∀ a ∈ b.attestations msg path, PathWithinLimits a.path) →
      Steps ⟨bs ++ tail, msg, path, path.length, afterFork, pending, out⟩
        (Walk.resume tail (out ++ b.attestations msg path) pending)
  | .attest n, bs, out, henc, _, _ => by
      obtain ⟨xs, rfl, hn⟩ := henc
      exact .one (walkStep_attest (by simp) hn)
  | .op o t, bs, out, henc, hmsg, hlimits => by
      obtain ⟨xs, ys, rfl, ho, ht⟩ := henc
      obtain ⟨a, ha, hprefix⟩ := t.exists_attestation (o.apply msg) (path ++ [o.step msg])
      have hpath := (hlimits a ha).mono hprefix
      have hnew : (o.apply msg).length ≤ maxMsg := hpath.2 (o.step msg) (by simp)
      have hops : path.length + 1 ≤ maxOpsOnAPath := by simpa using hpath.1
      let w : Walk := ⟨(xs ++ ys) ++ tail, msg, path, path.length, afterFork, pending, out⟩
      have hstep : walkStep w = .ok (.again ⟨ys ++ tail, o.apply msg, path ++ [o.step msg],
          path.length + 1, false, pending, out⟩) := walkStep_op (by simp [w]) ho hmsg hnew hops
      have hnext := t.steps tail (o.apply msg) (path ++ [o.step msg]) pending ys out ht hnew hlimits
      rw [List.length_append, List.length_singleton] at hnext
      exact .more hstep hnext

end

/-- Where the walk goes from a place it has reached. -/
def Walk.Next.Leads : Walk.Next → List Attestation → Bytes → Prop
  | .again w, out, rest => Steps w (.done out rest)
  | .done out rest, out', rest' => out = out' ∧ rest = rest'

theorem Steps.inv {w : Walk} {out : List Attestation} {rest : Bytes}
    (h : Steps w (.done out rest)) :
    ∃ next, walkStep w = .ok next ∧ next.Leads out rest := by
  cases h with
  | one h => exact ⟨_, h, rfl, rfl⟩
  | more h hrest => exact ⟨_, h, hrest⟩

/-- The state an iteration can be in: the operation count is the path's length, and the
path is within the limits. -/
structure Walk.Sound (w : Walk) : Prop where
  ops : w.ops = w.path.length
  path : PathWithinLimits w.path

/-- The walk from `w` has read one branch of a timestamp and gone on from the resume point. -/
def Walk.ReadsBranch (w : Walk) (out : List Attestation) (rest : Bytes) : Prop :=
  ∃ (b : Branch) (bs tail : Bytes), w.rest = bs ++ tail ∧ tail.length < w.rest.length ∧
    b.Encodes bs ∧ (∀ a ∈ b.attestations w.msg w.path, PathWithinLimits a.path) ∧
    (Walk.resume tail (w.out ++ b.attestations w.msg w.path) w.pending).Leads out rest

/-- The walk from `w` has read a whole timestamp and gone on from the resume point. -/
def Walk.ReadsTimestamp (w : Walk) (out : List Attestation) (rest : Bytes) : Prop :=
  ∃ (t : Timestamp) (bs tail : Bytes), w.rest = bs ++ tail ∧ tail.length < w.rest.length ∧
    t.Encodes bs ∧ (∀ a ∈ t.attestations w.msg w.path, PathWithinLimits a.path) ∧
    (Walk.resume tail (w.out ++ t.attestations w.msg w.path) w.pending).Leads out rest

/-- A branch at which no fork is open is the last one of its timestamp. -/
theorem Walk.ReadsBranch.last {w : Walk} {out : List Attestation} {rest : Bytes}
    (h : w.ReadsBranch out rest) : w.ReadsTimestamp out rest := by
  obtain ⟨b, bs, tail, hrest, hlt, henc, hlimits, hleads⟩ := h
  exact ⟨.last b, bs, tail, hrest, hlt, henc, hlimits, hleads⟩

/-- A walk that ends has read a branch if it started after a fork marker, and a timestamp
if it did not. The induction is on the bytes left: after a fork marker it is used twice,
for the branch and, from the point the branch resumed, for the rest of the timestamp. -/
theorem exists_tree_of_steps (size : Nat) :
    ∀ {w : Walk} {out : List Attestation} {rest : Bytes}, w.rest.length ≤ size → w.Sound →
      Steps w (.done out rest) →
      (w.afterFork = true → w.ReadsBranch out rest) ∧
        (w.afterFork = false → w.ReadsTimestamp out rest) := by
  induction size with
  | zero =>
      intro w out rest hsize _ h
      obtain ⟨next, hstep, -⟩ := h.inv
      have hnil : w.rest = [] := List.length_eq_zero_iff.mp (Nat.le_zero.mp hsize)
      simp [walkStep, hnil] at hstep
  | succ size ih =>
      intro w out rest hsize hsound h
      obtain ⟨next, hstep, hleads⟩ := h.inv
      rcases walkStep_cases hstep with ⟨rest', hrest, hfork, rfl⟩ | ⟨n, bs,
        tail, hrest, henc, rfl⟩ | ⟨o, bs, tail, hrest, henc, hnew, hops, rfl⟩
      · refine ⟨fun hcontra => absurd (hfork.symm.trans hcontra) (by decide), fun _ => ?_⟩
        have hlen : rest'.length ≤ size := by simp [hrest] at hsize; omega
        obtain ⟨b, xs, tail, hxs, hlt, hb, hblimits, hbleads⟩ :=
          (ih (w := ⟨rest', w.msg, w.path, w.ops, true, ⟨w.msg, w.path, w.ops⟩ :: w.pending, w.out⟩)
            hlen ⟨hsound.ops, hsound.path⟩ hleads).1 rfl
        have hlen' : tail.length ≤ size := Nat.le_trans (Nat.le_of_lt hlt) hlen
        obtain ⟨t, ys, tail', hys, hlt', ht, htlimits, htleads⟩ :=
          (ih (w := ⟨tail, w.msg, w.path, w.ops, false, w.pending, _⟩) hlen'
            ⟨hsound.ops, hsound.path⟩ hbleads).2 rfl
        dsimp only at hxs hys hlt hlt' hblimits htlimits htleads
        refine ⟨.fork b t, forkMarker :: (xs ++ ys), tail', ?_, ?_, ⟨xs, ys, rfl, hb, ht⟩, ?_, ?_⟩
        · simp [hrest, hxs, hys]
        · simp only [hrest, List.length_cons]
          omega
        · simp only [Timestamp.attestations, List.mem_append]
          rintro a (ha | ha)
          · exact hblimits a ha
          · exact htlimits a ha
        · simpa only [Timestamp.attestations, List.append_assoc] using htleads
      · have hbranch : w.ReadsBranch out rest := by
          refine ⟨.attest n, attestationMarker :: bs, tail, by simp [hrest],
            ?_, ⟨bs, rfl, henc⟩, ?_, hleads⟩
          · simp only [hrest, List.length_cons, List.length_append]
            omega
          · simpa [Branch.attestations] using hsound.path
        exact ⟨fun _ => hbranch, fun _ => hbranch.last⟩
      · obtain ⟨tag, field, rfl, -⟩ := henc.cons
        have hlen : tail.length ≤ size := by
          simp only [hrest, List.length_cons, List.length_append] at hsize
          omega
        have hpath : PathWithinLimits (w.path ++ [o.step w.msg]) := by
          refine ⟨by simpa [hsound.ops] using hops, ?_⟩
          intro s hs
          rcases List.mem_append.mp hs with hs | hs
          · exact hsound.path.2 s hs
          · rw [List.mem_singleton.mp hs]
            exact hnew
        obtain ⟨t, ys, tail', hys, hlt, ht, hlimits, htleads⟩ :=
          (ih (w := ⟨tail, o.apply w.msg, w.path ++ [o.step w.msg], w.ops + 1,
                false, w.pending, w.out⟩) hlen ⟨by simp [hsound.ops], hpath⟩ hleads).2 rfl
        dsimp only at hys hlt hlimits htleads
        have hbranch : w.ReadsBranch out rest := by
          refine ⟨.op o t, tag :: field ++ ys, tail', by simp [hrest, hys], ?_,
            ⟨tag :: field, ys, rfl, henc, ht⟩, hlimits, htleads⟩
          simp only [hrest, List.length_append, List.length_cons]
          omega
        exact ⟨fun _ => hbranch, fun _ => hbranch.last⟩

theorem parseTimestamp_ok_iff {digest data : Bytes} {parsed : Parsed}
    (hdigest : digest.length = 32) :
    parseTimestamp digest data = .ok parsed ↔
      ∃ t : Timestamp, t.Encodes data ∧ parsed = ⟨digest, t.attestations digest []⟩ ∧
        ∀ a ∈ t.attestations digest [], PathWithinLimits a.path := by
  constructor
  · intro h
    unfold parseTimestamp at h
    split at h
    · cases h
    · next out rest hwalk =>
      split_ifs at h with hrest
      have hsound : Walk.Sound ⟨data, digest, [], 0, false, [], []⟩ :=
        ⟨rfl, by simp [PathWithinLimits]⟩
      obtain ⟨t, bs, tail, hdata, -, henc, hlimits, rfl, rfl⟩ :=
        (exists_tree_of_steps data.length (Nat.le_refl _) hsound (steps_of_walk _ hwalk)).2 rfl
      have htail : tail = [] := not_not.mp hrest
      subst htail
      dsimp only at hdata hlimits
      rw [List.append_nil] at hdata
      subst hdata
      exact ⟨t, henc, (Except.ok.inj h).symm, hlimits⟩
  · rintro ⟨t, henc, rfl, hlimits⟩
    have hsteps := t.steps [] digest [] [] data [] henc (by rw [hdigest]; decide) hlimits
    have hwalk := walk_of_steps hsteps (data.length + 1) (by simp)
    rw [List.append_nil, List.length_nil, List.nil_append] at hwalk
    simp [parseTimestamp, hwalk]

theorem parseTimestamp_onlyProofError (digest data : Bytes) :
    OnlyProofError (parseTimestamp digest data) := by
  unfold parseTimestamp
  split
  · next h => exact (walk_onlyProofError _ (by simp)).error_of_eq h
  · split_ifs
    · exact .proofError _
    · exact .ok _

/-- What follows the version and the digest is read as a timestamp. -/
theorem parseProof_of_header {v digest body : Bytes} (hv : IsVaruint v version)
    (hdigest : digest.length = 32) :
    parseProof (magic ++ v ++ opSha256 :: (digest ++ body)) = parseTimestamp digest body := by
  have hversion : readVaruint (v ++ opSha256 :: (digest ++ body)) =
      .ok (version, opSha256 :: (digest ++ body)) :=
    readVaruint_ok_iff.mpr ⟨v, rfl, hv⟩
  simp [parseProof, List.append_assoc, hversion, hdigest]

theorem parseProof_ok_iff {data : Bytes} {parsed : Parsed} :
    parseProof data = .ok parsed ↔ IsProof data parsed := by
  constructor
  · intro h
    unfold parseProof at h
    split_ifs at h with hmagic
    split at h
    · cases h
    · next v rest hversion =>
      dsimp only at h
      split_ifs at h with hv hop hdigest
      obtain ⟨field, hfield, hvar⟩ := readVaruint_ok_iff.mp hversion
      obtain ⟨t, henc, rfl, hlimits⟩ := (parseTimestamp_ok_iff (not_not.mp hdigest)).mp h
      refine ⟨field, _, t, ?_, by simpa [not_not.mp hv] using hvar, not_not.mp hdigest, henc, rfl,
        hlimits⟩
      have hrest : rest = opSha256 :: rest.drop 1 := by
        cases rest with
        | nil => simp at hop
        | cons b rest => simpa using hop
      conv_lhs => rw [← List.take_append_drop magic.length data, not_not.mp hmagic, hfield, hrest,
        ← List.take_append_drop 32 (rest.drop 1)]
      simp
  · rintro ⟨v, body, t, rfl, hv, hdigest, henc, hatt, hlimits⟩
    rw [parseProof_of_header hv hdigest]
    refine (parseTimestamp_ok_iff hdigest).mpr ⟨t, henc, ?_, ?_⟩
    · rw [← hatt]
    · rwa [← hatt]

/-- The walk over an accepted timestamp leaves what follows it, which is refused. -/
theorem parseTimestamp_append {digest body more : Bytes} {parsed parsed' : Parsed}
    (hdigest : digest.length = 32) (h : parseTimestamp digest body = .ok parsed)
    (h' : parseTimestamp digest (body ++ more) = .ok parsed') : more = [] := by
  obtain ⟨t, henc, -, hlimits⟩ := (parseTimestamp_ok_iff hdigest).mp h
  have hsteps := t.steps more digest [] [] body [] henc (by rw [hdigest]; decide) hlimits
  have hwalk := walk_of_steps hsteps ((body ++ more).length + 1) (Nat.lt_succ_self _)
  rw [List.length_nil] at hwalk
  rw [parseTimestamp, hwalk] at h'
  by_contra hmore
  change (if more ≠ [] then _ else _) = _ at h'
  rw [if_pos hmore] at h'
  exact nomatch h'

theorem parseProof_append {data more : Bytes} {parsed parsed' : Parsed}
    (h : parseProof data = .ok parsed) (h' : parseProof (data ++ more) = .ok parsed') :
    more = [] := by
  obtain ⟨v, body, t, hdata, hv, hdigest, -⟩ := parseProof_ok_iff.mp h
  have happend : data ++ more = magic ++ v ++ opSha256 :: (parsed.digest ++ (body ++ more)) := by
    simp only [hdata, List.append_assoc, List.cons_append]
  rw [hdata, parseProof_of_header hv hdigest] at h
  rw [happend, parseProof_of_header hv hdigest] at h'
  exact parseTimestamp_append hdigest h h'

/-- The reader accepts exactly the grammar, returns its recursive reading, and raises
`ProofError` on every other byte string. -/
theorem parseProof_accepts_exactly (data : Bytes) :
    (∀ parsed, parseProof data = .ok parsed ↔ IsProof data parsed) ∧
      ((¬ ∃ parsed, IsProof data parsed) → ∃ text,
        parseProof data = .error (.proofError text)) := by
  refine ⟨fun parsed => parseProof_ok_iff, fun hnot => ?_⟩
  have honly : OnlyProofError (parseProof data) := by
    unfold parseProof
    split_ifs
    · exact .proofError _
    · split
      · next h => exact (readVaruint_onlyProofError _).error_of_eq h
      · dsimp only
        split_ifs
        · exact .proofError _
        · exact .proofError _
        · exact .proofError _
        · exact parseTimestamp_onlyProofError _ _
  cases h : parseProof data with
  | ok parsed => exact absurd ⟨parsed, parseProof_ok_iff.mp h⟩ hnot
  | error e =>
      obtain ⟨text, rfl⟩ := honly e h
      exact ⟨text, rfl⟩

end OtsServer.VerifyClaim
