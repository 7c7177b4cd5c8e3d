import OtsServer.VerifyClaim.Headers

/-!
# The headers file, checked whole

`verifyChain` is `verify_chain`: every header of the file in order, and then what
ties the file to the network. A header that breaks a rule ends the loop, and the
result keeps what was gathered until then. Heights are integers, as the command
line's are: nothing in the source keeps a start height or a checkpoint from being
negative.

`SoundChain` says what a sound file is without the loop, header by header;
`verifyChain_ok_iff` is the connection. What an accepted file is authenticated up to
is `verifyChain_authenticatedHeight`.
-/

namespace OtsServer.VerifyClaim

inductive Trust
  | genesis | checkpoint
deriving DecidableEq

/-- Why a headers file is refused. -/
inductive Problem
  | partialHeader (extra : Nat)
  | empty
  | checkpointOutside (height first last : Int)
  | checkpointMismatch (height : Int) (actual stated : Bytes)
  | notGenesis (network : Network) (actual : Bytes)
  | unlinked (height : Int) (prev expected : Bytes)
  | invalidTarget (height : Int) (rule : TargetError) (bits : Nat)
  | failsWork (height : Int) (hash : Bytes) (bits : Nat)
  | bitsChanged (height : Int) (bits prevBits : Nat)
  | wrongRetarget (height : Int) (bits expected : Nat)
deriving DecidableEq

/-- `notes`: the wanted hashes that were found, with height and time, and the retargets
whose period starts before the file. -/
structure Notes where
  found : List (Bytes × Int × Nat)
  uncheckedRetargets : List Int

structure ChainResult where
  ok : Bool
  problems : List Problem
  checked : Nat
  firstHash : Option Bytes
  lastHash : Option Bytes
  retargets : Nat
  notes : Notes
  trust : Option Trust
  authenticatedHeight : Option Int

def headerCount (raw : Bytes) : Nat := raw.length / headerSize

/-- `raw[i * HEADER_SIZE:(i + 1) * HEADER_SIZE]`. -/
def headerAt (raw : Bytes) (i : Nat) : Bytes := (raw.drop (i * headerSize)).take headerSize

/-- The header at a height of a file that starts at `start`. -/
def headerAtHeight (raw : Bytes) (start height : Int) : Bytes := headerAt raw (height - start).toNat

/-- The height is one of the file's. -/
def Contains (raw : Bytes) (start height : Int) : Prop :=
  start ≤ height ∧ height < start + headerCount raw

instance (raw : Bytes) (start height : Int) : Decidable (Contains raw start height) :=
  inferInstanceAs (Decidable (_ ∧ _))

/-- The loop's variables. -/
structure Progress where
  prevHash : Option Bytes
  prevBits : Option Nat
  firstHash : Option Bytes
  trust : Option Trust
  retargets : Nat
  checked : Nat
  notes : Notes

/-- The first header is compared with the genesis block when it stands at height 0;
every other header links to the one before it. -/
def linkHeader (network : Network) (height : Int) (thisHash prev : Bytes) (s : Progress) :
    Except (Progress × Problem) Progress :=
  if s.firstHash = none then
    let s := { s with firstHash := some thisHash }
    if height = 0 then
      if display thisHash ≠ network.genesis then .error (s, .notGenesis network thisHash)
      else .ok { s with trust := some .genesis }
    else .ok s
  else if some prev ≠ s.prevHash then .error (s, .unlinked height prev (s.prevHash.getD []))
  else .ok s

/-- The difficulty rule: bits stay between retargets, and follow the period's timestamps
at each retarget whose period is in the file. -/
def checkDifficulty (raw : Bytes) (network : Network) (i : Nat) (height : Int) (bits : Nat)
    (s : Progress) : Except (Progress × Problem) Progress :=
  match s.prevBits with
  | none => .ok s
  | some prevBits =>
      if !network.retarget then .ok s
      else if height % retargetInterval ≠ 0 then
        if bits ≠ prevBits then .error (s, .bitsChanged height bits prevBits) else .ok s
      else if i < retargetInterval then
        .ok { s with notes := { s.notes with
          uncheckedRetargets := s.notes.uncheckedRetargets ++ [height] } }
      else
        let expected :=
          nextBits (headerAt raw (i - retargetInterval)) (headerAt raw (i - 1)) network
        if bits ≠ expected then .error (s, .wrongRetarget height bits expected)
        else .ok { s with retargets := s.retargets + 1 }

/-- `notes['found'][hash] = (height, time)` for a wanted hash. -/
def Notes.see (notes : Notes) (wanted : List Bytes) (hash : Bytes) (height : Int) (time : Nat) :
    Notes :=
  if hash ∈ wanted then
    { notes with found := (hash, height, time) :: notes.found.filter (·.1 ≠ hash) }
  else notes

/-- One iteration of the loop's body. An error is a `break`, with the variables as they
were then. -/
def headerStep (raw : Bytes) (start : Int) (wanted : List Bytes) (network : Network) (i : Nat)
    (s : Progress) : Except (Progress × Problem) Progress :=
  let height := start + i
  let header := headerAt raw i
  let thisHash := sha256d header
  let fields := headerFields header
  match linkHeader network height thisHash fields.prev s with
  | .error e => .error e
  | .ok s =>
      match checkTarget fields.bits network with
      | .error rule => .error (s, .invalidTarget height rule fields.bits)
      | .ok target =>
          if Bytes.natLE thisHash > target then .error (s, .failsWork height thisHash fields.bits)
          else
            match checkDifficulty raw network i height fields.bits s with
            | .error e => .error e
            | .ok s =>
                .ok { s with
                  notes := s.notes.see wanted thisHash height fields.time
                  prevHash := some thisHash
                  prevBits := some fields.bits
                  checked := s.checked + 1 }

/-- The loop, over the `todo` headers from index `i` on. -/
def checkHeaders (raw : Bytes) (start : Int) (wanted : List Bytes) (network : Network) :
    (todo i : Nat) → Progress → Progress × List Problem
  | 0, _, s => (s, [])
  | todo + 1, i, s =>
      match headerStep raw start wanted network i s with
      | .error (s, problem) => (s, [problem])
      | .ok s => checkHeaders raw start wanted network todo (i + 1) s

/-- What is wrong with the stated checkpoint, if one is stated. -/
def checkpointProblem (raw : Bytes) (start : Int) : Option (Int × Bytes) → Option Problem
  | none => none
  | some (height, hash) =>
      if ¬Contains raw start height then
        some (.checkpointOutside height start (start + headerCount raw - 1))
      else
        let actual := sha256d (headerAtHeight raw start height)
        if actual ≠ hash then some (.checkpointMismatch height actual hash) else none

/-- The result of a refusal before any header is checked. -/
def ChainResult.refused (problems : List Problem) : ChainResult :=
  ⟨false, problems, 0, none, none, 0, ⟨[], []⟩, none, none⟩

/-- `authenticated`: 0, or the checkpoint's height where that is higher. -/
def authenticatedBy : Option (Int × Bytes) → Int
  | none => 0
  | some (height, _) => max 0 height

def verifyChain (raw : Bytes) (start : Int) (checkpoint : Option (Int × Bytes))
    (wanted : List Bytes) (network : Network) : ChainResult :=
  let problems : List Problem :=
    if raw.length % headerSize ≠ 0 then [.partialHeader (raw.length % headerSize)] else []
  if headerCount raw = 0 then .refused (problems ++ [.empty])
  else
    match checkpointProblem raw start checkpoint with
    | some problem => .refused (problems ++ [problem])
    | none =>
        let trust := if checkpoint.isSome then some Trust.checkpoint else none
        let (s, broken) := checkHeaders raw start wanted network (headerCount raw) 0
          ⟨none, none, none, trust, 0, 0, ⟨[], []⟩⟩
        let problems := problems ++ broken
        let ok := problems.isEmpty
        { ok, problems
          checked := s.checked
          firstHash := s.firstHash
          lastHash := s.prevHash
          retargets := s.retargets
          notes := s.notes
          trust := if ok then s.trust else none
          authenticatedHeight :=
            if ok ∧ s.trust ≠ none then some (authenticatedBy checkpoint) else none }

/-! ## What a sound file is -/

/-- The rules the header at index `i` meets in a file that starts at height `start`. -/
structure HeaderRule (network : Network) (raw : Bytes) (start : Int) (i : Nat) : Prop where
  genesis : i = 0 → start = 0 → display (sha256d (headerAt raw i)) = network.genesis
  link : ∀ j, i = j + 1 → (headerFields (headerAt raw i)).prev = sha256d (headerAt raw j)
  work : ∃ target, IsTarget network (headerBits (headerAt raw i)) target ∧
    Bytes.natLE (sha256d (headerAt raw i)) ≤ target
  steady : network.retarget → ∀ j, i = j + 1 → (start + i) % retargetInterval ≠ 0 →
    headerBits (headerAt raw i) = headerBits (headerAt raw j)
  retarget : network.retarget → retargetInterval ≤ i → (start + i) % retargetInterval = 0 →
    headerBits (headerAt raw i) =
      nextBits (headerAt raw (i - retargetInterval)) (headerAt raw (i - 1)) network

/-- A file of whole headers, at least one, each of which meets its rules. -/
structure SoundChain (network : Network) (raw : Bytes) (start : Int) : Prop where
  whole : raw.length % headerSize = 0
  nonempty : 0 < headerCount raw
  rule : ∀ i < headerCount raw, HeaderRule network raw start i

/-- The checkpoint, where one is stated, is a header of the file. -/
def PinnedBy (raw : Bytes) (start : Int) : Option (Int × Bytes) → Prop
  | none => True
  | some (height, hash) =>
      Contains raw start height ∧ sha256d (headerAtHeight raw start height) = hash

/-! ## The loop checks every rule -/

/-- The loop's variables before index `i`, started with `trust`. -/
structure Progress.At (raw : Bytes) (start : Int) (trust : Option Trust) (i : Nat) (s : Progress) :
    Prop where
  firstHash : s.firstHash = none ↔ i = 0
  prevHash : ∀ j, i = j + 1 → s.prevHash = some (sha256d (headerAt raw j))
  prevBits : ∀ j, i = j + 1 → s.prevBits = some (headerBits (headerAt raw j))
  noBits : i = 0 → s.prevBits = none
  trust : s.trust = if 0 < i ∧ start = 0 then some .genesis else trust
  checked : s.checked = i

section Step

variable {raw : Bytes} {start : Int} {wanted : List Bytes} {network : Network}
variable {trust : Option Trust} {i : Nat} {s s' : Progress}

/-- The two rules that `linkHeader` checks. -/
def Linked (network : Network) (raw : Bytes) (start : Int) (i : Nat) : Prop :=
  (i = 0 → start = 0 → display (sha256d (headerAt raw i)) = network.genesis) ∧
    ∀ j, i = j + 1 → (headerFields (headerAt raw i)).prev = sha256d (headerAt raw j)

/-- The two rules that `checkDifficulty` checks. -/
def Difficult (network : Network) (raw : Bytes) (start : Int) (i : Nat) : Prop :=
  (network.retarget → ∀ j, i = j + 1 → (start + i) % retargetInterval ≠ 0 →
    headerBits (headerAt raw i) = headerBits (headerAt raw j)) ∧
  (network.retarget → retargetInterval ≤ i → (start + i) % retargetInterval = 0 →
    headerBits (headerAt raw i) =
      nextBits (headerAt raw (i - retargetInterval)) (headerAt raw (i - 1)) network)

/-- A header that `linkHeader` lets through is linked, and only the first hash and the
trust of the variables change. -/
theorem linkHeader_ok (hs : s.At raw start trust i)
    (h : linkHeader network (start + i) (sha256d (headerAt raw i))
      (headerFields (headerAt raw i)).prev s = .ok s') :
    Linked network raw start i ∧ s'.firstHash ≠ none ∧
      s'.trust = (if start = 0 then some .genesis else trust) ∧
      s'.prevBits = s.prevBits ∧ s'.checked = s.checked := by
  have htrust := hs.trust
  cases i with
  | zero =>
      have hfirst := hs.firstHash.2 rfl
      simp only [linkHeader, if_pos hfirst, Nat.cast_zero, add_zero] at h
      split_ifs at h with hz hg
      · obtain rfl := Except.ok.inj h
        have hg : display (sha256d (headerAt raw 0)) = network.genesis := by simpa using hg
        exact ⟨⟨fun _ _ => hg, by simp⟩, by simp, by simp [hz], rfl, rfl⟩
      · obtain rfl := Except.ok.inj h
        exact ⟨⟨fun _ h0 => absurd h0 hz, by simp⟩, by simp, by simpa [hz] using htrust, rfl, rfl⟩
  | succ j =>
      have hfirst : s.firstHash ≠ none := fun hn => by simpa using hs.firstHash.1 hn
      simp only [linkHeader, if_neg hfirst, hs.prevHash j rfl] at h
      split_ifs at h with hp
      · obtain rfl := Except.ok.inj h
        refine ⟨⟨by simp, fun k hk => ?_⟩, hfirst, by simpa using htrust, rfl, rfl⟩
        obtain rfl : j = k := by omega
        simpa using hp

theorem linkHeader_error (hs : s.At raw start trust i) {e : Progress × Problem}
    (h : linkHeader network (start + i) (sha256d (headerAt raw i))
      (headerFields (headerAt raw i)).prev s = .error e) : ¬Linked network raw start i := by
  rintro ⟨hgenesis, hlink⟩
  cases i with
  | zero =>
      simp only [linkHeader, if_pos (hs.firstHash.2 rfl), Nat.cast_zero, add_zero] at h
      split_ifs at h with hz hg
      exact hg (hgenesis rfl hz)
  | succ j =>
      have hfirst : s.firstHash ≠ none := fun hn => by simpa using hs.firstHash.1 hn
      simp only [linkHeader, if_neg hfirst, hs.prevHash j rfl, hlink j rfl] at h
      simp at h

/-- A header that `checkDifficulty` lets through meets the difficulty rule, and only the
counts and the notes of the variables change. -/
theorem checkDifficulty_ok (hs : s.prevBits = none ∧ i = 0 ∨
      ∃ j, i = j + 1 ∧ s.prevBits = some (headerBits (headerAt raw j)))
    (h : checkDifficulty raw network i (start + i) (headerBits (headerAt raw i)) s = .ok s') :
    Difficult network raw start i ∧ s'.firstHash = s.firstHash ∧ s'.trust = s.trust ∧
      s'.checked = s.checked := by
  rcases hs with ⟨hbits, rfl⟩ | ⟨j, rfl, hbits⟩
  · simp only [checkDifficulty, hbits] at h
    obtain rfl := Except.ok.inj h
    exact ⟨⟨by simp, fun _ hi => absurd hi (by decide)⟩, rfl, rfl, rfl⟩
  · cases hr : network.retarget with
    | false =>
        simp only [checkDifficulty, hr, hbits, Bool.not_false, if_true] at h
        obtain rfl := Except.ok.inj h
        exact ⟨⟨by simp [hr], by simp [hr]⟩, rfl, rfl, rfl⟩
    | true =>
        simp only [checkDifficulty, hr, hbits, Bool.not_true, Bool.false_eq_true, if_false] at h
        split_ifs at h with hm hb hi he
        · obtain rfl := Except.ok.inj h
          refine ⟨⟨fun _ k hk _ => ?_, fun _ _ h0 => absurd h0 hm⟩, rfl, rfl, rfl⟩
          obtain rfl : j = k := by omega
          simpa using hb
        · obtain rfl := Except.ok.inj h
          exact ⟨⟨fun _ _ _ hne => absurd hne hm, fun _ hle => absurd hi (by omega)⟩, rfl, rfl, rfl⟩
        · obtain rfl := Except.ok.inj h
          exact ⟨⟨fun _ _ _ hne => absurd hne hm, fun _ _ _ => by simpa using he⟩, rfl, rfl, rfl⟩

theorem checkDifficulty_error {e : Progress × Problem}
    (hs : s.prevBits = none ∧ i = 0 ∨
      ∃ j, i = j + 1 ∧ s.prevBits = some (headerBits (headerAt raw j)))
    (h : checkDifficulty raw network i (start + i) (headerBits (headerAt raw i)) s = .error e) :
    ¬Difficult network raw start i := by
  rintro ⟨hsteady, hretarget⟩
  rcases hs with ⟨hbits, rfl⟩ | ⟨j, rfl, hbits⟩
  · simp [checkDifficulty, hbits] at h
  · cases hr : network.retarget with
    | false => simp [checkDifficulty, hr, hbits] at h
    | true =>
        simp only [checkDifficulty, hr, hbits, Bool.not_true, Bool.false_eq_true, if_false] at h
        split_ifs at h with hm hb hi he
        · exact hb (hsteady hr j rfl hm)
        · exact he (hretarget hr (Nat.le_of_not_lt hi) (not_not.1 hm))

theorem headerRule_iff : HeaderRule network raw start i ↔
    Linked network raw start i ∧
      (∃ target, IsTarget network (headerBits (headerAt raw i)) target ∧
        Bytes.natLE (sha256d (headerAt raw i)) ≤ target) ∧
      Difficult network raw start i :=
  ⟨fun h => ⟨⟨h.genesis, h.link⟩, h.work, h.steady, h.retarget⟩,
    fun ⟨⟨hg, hl⟩, hw, hs, hr⟩ => ⟨hg, hl, hw, hs, hr⟩⟩

/-- One iteration goes round exactly when the header meets its rules, and leaves the
variables ready for the next index. -/
theorem headerStep_ok (hs : s.At raw start trust i)
    (h : headerStep raw start wanted network i s = .ok s') :
    HeaderRule network raw start i ∧ s'.At raw start trust (i + 1) := by
  have hprev : s.prevBits = none ∧ i = 0 ∨
      ∃ j, i = j + 1 ∧ s.prevBits = some (headerBits (headerAt raw j)) := by
    cases i with
    | zero => exact .inl ⟨hs.noBits rfl, rfl⟩
    | succ j => exact .inr ⟨j, rfl, hs.prevBits j rfl⟩
  simp only [headerStep, headerFields_bits] at h
  split at h
  next => simp at h
  next s₁ hlink =>
    obtain ⟨hlinked, hfirst, htrust, hbits₁, hchecked₁⟩ := linkHeader_ok hs hlink
    split at h
    next => simp at h
    next target htarget =>
      split_ifs at h with hwork
      split at h
      next => simp at h
      next s₂ hdiff =>
        obtain ⟨hdifficult, hfirst₂, htrust₂, hchecked₂⟩ :=
          checkDifficulty_ok (by simpa only [hbits₁] using hprev) hdiff
        obtain rfl := Except.ok.inj h
        refine ⟨headerRule_iff.2 ⟨hlinked, ⟨target, (checkTarget_eq_ok_iff ..).1 htarget, by omega⟩,
          hdifficult⟩, ?_⟩
        exact
          { firstHash := by simp [hfirst₂, hfirst]
            prevHash := fun j hj => by obtain rfl : i = j := by omega
                                       rfl
            prevBits := fun j hj => by obtain rfl : i = j := by omega
                                       rfl
            noBits := by simp
            trust := by simp [htrust₂, htrust]
            checked := by simp [hchecked₂, hchecked₁, hs.checked] }

theorem headerStep_error (hs : s.At raw start trust i) {e : Progress × Problem}
    (h : headerStep raw start wanted network i s = .error e) : ¬HeaderRule network raw start i := by
  have hprev : s.prevBits = none ∧ i = 0 ∨
      ∃ j, i = j + 1 ∧ s.prevBits = some (headerBits (headerAt raw j)) := by
    cases i with
    | zero => exact .inl ⟨hs.noBits rfl, rfl⟩
    | succ j => exact .inr ⟨j, rfl, hs.prevBits j rfl⟩
  rw [headerRule_iff]
  rintro ⟨hlinked, ⟨target, htarget, hwork⟩, hdifficult⟩
  simp only [headerStep, headerFields_bits, (checkTarget_eq_ok_iff ..).2 htarget,
    if_neg (Nat.not_lt.mpr hwork)] at h
  split at h
  next he => exact linkHeader_error hs he hlinked
  next s₁ hlink =>
    obtain ⟨-, -, -, hbits₁, -⟩ := linkHeader_ok hs hlink
    split at h
    next he => exact checkDifficulty_error (by simpa only [hbits₁] using hprev) he hdifficult
    next => simp at h

end Step

section Run

variable {raw : Bytes} {start : Int} {trust : Option Trust}

/-- The loop ends without a problem exactly when every header it was given meets its
rules; the variables are then those of the end of the file. -/
theorem checkHeaders_spec (wanted : List Bytes) (network : Network) (todo : Nat) :
    ∀ (i : Nat) (s : Progress), s.At raw start trust i →
    ((checkHeaders raw start wanted network todo i s).2 = [] ↔
      ∀ k, i ≤ k → k < i + todo → HeaderRule network raw start k) ∧
    ((checkHeaders raw start wanted network todo i s).2 = [] →
      (checkHeaders raw start wanted network todo i s).1.At raw start trust (i + todo)) := by
  induction todo with
  | zero =>
      intro i s hs
      exact ⟨⟨fun _ k hk hk' => absurd hk' (by omega), fun _ => rfl⟩, fun _ => hs⟩
  | succ todo ih =>
      intro i s hs
      rw [checkHeaders]
      split
      next s' problem he =>
        have hbroken := headerStep_error hs he
        refine ⟨⟨by simp, fun hall => ?_⟩, by simp⟩
        exact absurd (hall i (le_refl i) (by omega)) hbroken
      next s' hstep =>
        obtain ⟨hrule, hs'⟩ := headerStep_ok hs hstep
        obtain ⟨hiff, hat⟩ := ih (i + 1) s' hs'
        have hlen : i + 1 + todo = i + (todo + 1) := by omega
        rw [hlen] at hiff hat
        refine ⟨hiff.trans ⟨fun hall k hk hk' => ?_, fun hall k hk hk' => ?_⟩, hat⟩
        · rcases Nat.eq_or_lt_of_le hk with rfl | hlt
          · exact hrule
          · exact hall k hlt hk'
        · exact hall k (by omega) hk'

/-- The variables before the first header. -/
theorem Progress.at_start (raw : Bytes) (start : Int) (trust : Option Trust) :
    (⟨none, none, none, trust, 0, 0, ⟨[], []⟩⟩ : Progress).At raw start trust 0 :=
  ⟨by simp, by simp, by simp, by simp, by simp, rfl⟩

end Run

theorem checkpointProblem_eq_none_iff (raw : Bytes) (start : Int)
    (checkpoint : Option (Int × Bytes)) :
    checkpointProblem raw start checkpoint = none ↔ PinnedBy raw start checkpoint := by
  match checkpoint with
  | none => simp [checkpointProblem, PinnedBy]
  | some (height, hash) =>
      by_cases hc : Contains raw start height <;>
        by_cases hh : sha256d (headerAtHeight raw start height) = hash <;>
          simp [checkpointProblem, PinnedBy, hc, hh]

/-- The result for a file with headers in which the stated checkpoint is found. -/
theorem verifyChain_of_pinned {raw : Bytes} {start : Int} {checkpoint : Option (Int × Bytes)}
    (wanted : List Bytes) (network : Network) (hcount : headerCount raw ≠ 0)
    (hpin : PinnedBy raw start checkpoint) :
    ((verifyChain raw start checkpoint wanted network).ok ↔ SoundChain network raw start) ∧
    ((verifyChain raw start checkpoint wanted network).ok →
      (verifyChain raw start checkpoint wanted network).authenticatedHeight =
        if start = 0 ∨ checkpoint.isSome then some (authenticatedBy checkpoint) else none) := by
  have hnone := (checkpointProblem_eq_none_iff raw start checkpoint).2 hpin
  obtain ⟨hiff, hat⟩ := checkHeaders_spec wanted network (headerCount raw) 0 _
    (Progress.at_start raw start (if checkpoint.isSome then some Trust.checkpoint else none))
  simp only [verifyChain, if_neg hcount, hnone, List.isEmpty_iff, List.append_eq_nil_iff]
  have hempty : ∀ p : Problem, (if raw.length % headerSize ≠ 0 then [p] else []) = [] ↔
      raw.length % headerSize = 0 := by
    intro p
    split_ifs with h
    · simp [h]
    · simpa using h
  simp only [hempty, Nat.zero_add, Nat.zero_le, true_implies] at hiff hat ⊢
  refine ⟨⟨fun ⟨hwhole, hall⟩ => ⟨hwhole, Nat.pos_of_ne_zero hcount, hiff.1 hall⟩,
    fun h => ⟨h.whole, hiff.2 h.rule⟩⟩, fun ⟨hwhole, hall⟩ => ?_⟩
  have htrust := (hat hall).trust
  simp only [Nat.pos_of_ne_zero hcount, true_and] at htrust
  rw [htrust, hall]
  by_cases hz : start = 0 <;> cases checkpoint <;> simp [hz, hwhole]

/-- A file is accepted exactly when it is a sound chain that holds the stated checkpoint. -/
theorem verifyChain_ok_iff (raw : Bytes) (start : Int) (checkpoint : Option (Int × Bytes))
    (wanted : List Bytes) (network : Network) :
    (verifyChain raw start checkpoint wanted network).ok ↔
      PinnedBy raw start checkpoint ∧ SoundChain network raw start := by
  by_cases hcount : headerCount raw = 0
  · simp only [verifyChain, if_pos hcount, ChainResult.refused]
    refine ⟨by simp, fun ⟨_, h⟩ => absurd h.nonempty (by omega)⟩
  · by_cases hpin : PinnedBy raw start checkpoint
    · rw [(verifyChain_of_pinned wanted network hcount hpin).1]
      exact ⟨fun h => ⟨hpin, h⟩, fun h => h.2⟩
    · obtain ⟨problem, hproblem⟩ := Option.ne_none_iff_exists'.1
        (fun h => hpin ((checkpointProblem_eq_none_iff raw start checkpoint).1 h))
      simp only [verifyChain, if_neg hcount, hproblem, ChainResult.refused]
      exact ⟨by simp, fun ⟨h, _⟩ => absurd h hpin⟩

/-- An accepted file is tied to the network by a stated checkpoint or by starting at the
genesis block, and is authenticated up to 0 or the checkpoint, whichever is higher. -/
theorem verifyChain_authenticatedHeight {raw : Bytes} {start : Int}
    {checkpoint : Option (Int × Bytes)} {wanted : List Bytes} {network : Network}
    (h : (verifyChain raw start checkpoint wanted network).ok) :
    (verifyChain raw start checkpoint wanted network).authenticatedHeight =
      if start = 0 ∨ checkpoint.isSome then some (authenticatedBy checkpoint) else none := by
  obtain ⟨hpin, hsound⟩ := (verifyChain_ok_iff ..).1 h
  exact (verifyChain_of_pinned wanted network hsound.nonempty.ne' hpin).2 h

end OtsServer.VerifyClaim
