import OtsServer.VerifyClaim.Verdict

/-!
# What a checkpoint pins

Each header of a sound file carries the hash of the header before it, so the library's
rule on linked chains applies to any two accepted files between a height and the
checkpoint both hold. That covers every height a file counts as authenticated when the
checkpoint's height is not negative. Under a negative one it does not: the first header
after the checkpoint counts as authenticated although nothing pins it, and two headers
that both extend the genesis block show that it is not pinned.
-/

namespace OtsServer.VerifyClaim

section Links

variable {network : Network} {raw : Bytes} {start : Int}

theorem Contains.mono {height top : Int} (h : Contains raw start top) (hlow : start ≤ height)
    (hle : height ≤ top) : Contains raw start height :=
  ⟨hlow, lt_of_le_of_lt hle h.2⟩

/-- The headers of a sound file are linked, at the heights the file holds. -/
theorem SoundChain.linkedOn (h : SoundChain network raw start) {low high : Int}
    (hlow : start ≤ low) (hhigh : Contains raw start high) :
    HashChain.LinkedOn sha256d (fun header => (headerFields header).prev)
      (headerAtHeight raw start) low high := by
  intro k hk hkh
  have hindex : (k + 1 - start).toNat = (k - start).toNat + 1 := by omega
  have hcount : (k + 1 - start).toNat < headerCount raw := by have := hhigh.2; omega
  have hlink := (h.rule _ hcount).link (k - start).toNat hindex
  simpa only [headerAtHeight] using hlink

/-- Two sound files that hold one checkpoint agree at every height below it, or collide. -/
theorem eq_or_collide_of_pinned {raw₁ raw₂ hash : Bytes} {start₁ start₂ top height : Int}
    (h₁ : SoundChain network raw₁ start₁) (h₂ : SoundChain network raw₂ start₂)
    (hp₁ : PinnedBy raw₁ start₁ (some (top, hash))) (hp₂ : PinnedBy raw₂ start₂ (some (top, hash)))
    (hc₁ : Contains raw₁ start₁ height) (hc₂ : Contains raw₂ start₂ height) (hle : height ≤ top) :
    headerAtHeight raw₁ start₁ height = headerAtHeight raw₂ start₂ height ∨
      ∃ k, Contains raw₁ start₁ k ∧ Contains raw₂ start₂ k ∧ HashChain.CollideAt sha256d
          (headerAtHeight raw₁ start₁) (headerAtHeight raw₂ start₂) k := by
  obtain ⟨htop₁, hhash₁⟩ := hp₁
  obtain ⟨htop₂, hhash₂⟩ := hp₂
  rcases HashChain.eq_or_collideAt (h₁.linkedOn hc₁.1 htop₁) (h₂.linkedOn hc₂.1 htop₂) hle
    (hhash₁.trans hhash₂.symm) with heq | ⟨k, hk, hktop, hcol⟩
  · exact .inl heq
  · exact .inr ⟨k, htop₁.mono (hc₁.1.trans hk) hktop, htop₂.mono (hc₂.1.trans hk) hktop, hcol⟩

end Links

/-- Under a checkpoint that is stated, an accepted file is authenticated up to 0 or the
checkpoint, whichever is higher. -/
theorem authenticatedHeight_of_checkpoint {raw hash : Bytes} {start top : Int}
    {wanted : List Bytes} {network : Network}
    (h : (verifyChain raw start (some (top, hash)) wanted network).ok) :
    (verifyChain raw start (some (top, hash)) wanted network).authenticatedHeight =
      some (max 0 top) := by
  rw [verifyChain_authenticatedHeight h]
  simp [authenticatedBy]

theorem pinsOneHeader_of_nonneg {network : Network} {top : Int} (htop : 0 ≤ top) :
    PinsOneHeader network top := by
  intro hash raw₁ raw₂ start₁ start₂ wanted₁ wanted₂ height a₁ a₂ result₁ result₂ hok₁ ha₁ hle₁ hok₂
    _ _ hc₁ hc₂
  obtain ⟨hp₁, hs₁⟩ := (verifyChain_ok_iff ..).1 hok₁
  obtain ⟨hp₂, hs₂⟩ := (verifyChain_ok_iff ..).1 hok₂
  have hauth := (authenticatedHeight_of_checkpoint hok₁).symm.trans ha₁
  rw [max_eq_right htop, Option.some_inj] at hauth
  exact eq_or_collide_of_pinned hs₁ hs₂ hp₁ hp₂ hc₁ hc₂ (hle₁.trans hauth.ge)

/-! ## Exit code 0 -/

section Exit

variable {files : Files} {args : Args} {raw data digest : Bytes} {parsed : Parsed}
variable {attestation : Attestation}

theorem exitCode_eq_zero {same : Bool} {result : ChainResult} {height : Nat}
    (h : exitCode same result height = 0) :
    same ∧ result.ok ∧ ∃ authenticated, result.authenticatedHeight = some authenticated ∧
        (height : Int) ≤ authenticated := by
  simp only [exitCode] at h
  split_ifs at h with hbad hincomplete
  have hgood : same = true ∧ result.ok = true := by simpa using hbad
  refine ⟨hgood.1, hgood.2, ?_⟩
  cases hauth : result.authenticatedHeight with
  | none => simp [hauth] at hincomplete
  | some authenticated => exact ⟨authenticated, rfl, by simpa [hauth] using hincomplete⟩

/-- The digest that is held against the proof is the exhibit's, or the one given. -/
theorem exhibitDigest_ok (h : exhibitDigest files args = .ok digest)
    (hone : given args.exhibit ≠ given args.digest) : IsExhibitDigest files args digest := by
  unfold exhibitDigest at h
  split_ifs at h with hexhibit
  · obtain ⟨path, hpath⟩ : ∃ path, args.exhibit = some path := by
      cases he : args.exhibit with
      | none => simp [he, given] at hexhibit
      | some path => exact ⟨path, rfl⟩
    rw [hpath, Option.getD_some] at h
    split at h
    next content hread => exact .inl ⟨path, content, hpath, hread, (Except.ok.inj h).symm⟩
    next => cases h
  · obtain ⟨text, htext⟩ : ∃ text, args.digest = some text := by
      cases hd : args.digest with
      | none => simp [hd, given] at hexhibit hone; exact absurd hexhibit (by simpa using hone)
      | some text => exact ⟨text, rfl⟩
    rw [htext, Option.getD_some] at h
    split at h
    next d hhex => exact .inr ⟨text, htext, hhex.trans (by rw [Except.ok.inj h])⟩
    next => cases h

/-- The tie of an accepted file whose authenticated height covers the attested block. -/
theorem tied_of_authenticated {checkpoint : Option (Int × Bytes)} {wanted : List Bytes}
    {height : Nat} {authenticated : Int} (hstated : statedCheckpoint args = .ok checkpoint)
    (hnonneg : ∀ top hash, checkpoint = some (top, hash) → 0 ≤ top)
    (hok : (verifyChain raw args.startHeight checkpoint wanted args.network).ok)
    (hauth : (verifyChain raw args.startHeight checkpoint wanted args.network).authenticatedHeight =
      some authenticated)
    (hle : (height : Int) ≤ authenticated) : Tied args raw height := by
  obtain ⟨hpin, hsound⟩ := (verifyChain_ok_iff ..).1 hok
  match checkpoint with
  | some (top, hash) =>
      rw [authenticatedHeight_of_checkpoint hok, max_eq_right (hnonneg top hash rfl),
        Option.some_inj] at hauth
      exact .inl ⟨top, hash, hstated, hle.trans hauth.ge, hpin.1, hpin.2⟩
  | none =>
      rw [verifyChain_authenticatedHeight hok] at hauth
      split_ifs at hauth with hzero
      have hstart : args.startHeight = 0 := by simpa using hzero
      have hgenesis := (hsound.rule 0 hsound.nonempty).genesis rfl hstart
      have hheight : height = 0 := by
        have : (0 : Int) = authenticated := Option.some_inj.1 hauth
        omega
      exact .inr ⟨hheight, hstart, by simpa [headerAtHeight, hstart] using hgenesis⟩

/-- Steps 3 to 5 end in exit code 0 only on a block of a sound file that is tied. -/
theorem checkBlock_eq_zero {checkpoint : Option (Int × Bytes)}
    (hstated : statedCheckpoint args = .ok checkpoint)
    (hnonneg : ∀ top hash, checkpoint = some (top, hash) → 0 ≤ top)
    (h : checkBlock raw args attestation = .ok 0) :
    ∃ height, attestation.height = some height ∧ Contains raw args.startHeight height ∧
      (headerFields (headerAtHeight raw args.startHeight height)).merkleRoot = attestation.msg ∧
      SoundChain args.network raw args.startHeight ∧ Tied args raw height := by
  simp only [checkBlock, hstated] at h
  split at h
  next => cases h
  next height hheight =>
    split_ifs at h with hin
    · obtain ⟨hsame, hok, authenticated, hauth, hle⟩ := exitCode_eq_zero (Except.ok.inj h)
      exact ⟨height, hheight, hin, by simpa using hsame, ((verifyChain_ok_iff ..).1 hok).2,
        tied_of_authenticated hstated hnonneg hok hauth hle⟩
    · cases h

theorem find?_eq_some_of_filter {α : Type*} {p : α → Bool} {l rest : List α} {a : α}
    (h : l.filter p = a :: rest) : l.find? p = some a := by
  rw [← List.head?_filter, h, List.head?_cons]

/-- Exit code 0 stands for what it is meant to when no checkpoint is stated at a negative
height. -/
theorem holds_of_main_eq_zero {checkpoint : Option (Int × Bytes)}
    (hstated : statedCheckpoint args = .ok checkpoint)
    (hnonneg : ∀ top hash, checkpoint = some (top, hash) → 0 ≤ top)
    (h : main files args = .ok 0) : Holds files args := by
  unfold main at h
  split_ifs at h with hone
  split at h
  next _ raw _ hraw =>
    split at h
    next => cases h
    next data hdata =>
      unfold checkProof at h
      split at h
      next => cases h
      next => cases h
      next parsed hparsed =>
        split at h
        next => cases h
        next digest hdigest =>
          split_ifs at h with hsame
          · cases h
          · split at h
            next => cases h
            next attestation _ hfilter =>
              obtain ⟨height, hheight, hin, hroot, hsound, htied⟩ :=
                checkBlock_eq_zero hstated hnonneg h
              have hfirst := find?_eq_some_of_filter hfilter
              have hread := exhibitDigest_ok hdigest hone
              rw [not_not.1 hsame] at hread
              obtain ⟨_, _, t, -, -, -, -, hatt, -⟩ := parseProof_ok_iff.1 hparsed
              have hreplay := t.attestations_replay (.nil parsed.digest) attestation
                (hatt ▸ List.mem_of_find?_eq_some hfirst)
              exact ⟨raw, data, parsed, attestation, height,
                { headers := hraw, proof := hdata, reading := hparsed, digest := hread
                  first := hfirst, attested := hheight, replay := hreplay, inFile := hin
                  merkleRoot := hroot, chain := hsound, tied := htied }⟩
  next => cases h

end Exit

/-! ## A checkpoint at a negative height -/

/-- A file of two headers that starts below height 0 is sound when the second extends the
first at the same difficulty and both meet their target. -/
theorem SoundChain.of_pair {network : Network} {first second : Bytes} {start : Int}
    (hfirst : first.length = headerSize) (hsecond : second.length = headerSize) (hstart : start < 0)
    (hlink : (headerFields second).prev = sha256d first)
    (hbits : headerBits second = headerBits first) {target : Nat}
    (htarget : IsTarget network (headerBits first) target)
    (hwork₁ : Bytes.natLE (sha256d first) ≤ target)
    (hwork₂ : Bytes.natLE (sha256d second) ≤ target) :
    SoundChain network (first ++ second) start := by
  have hcount : headerCount (first ++ second) = 2 := by
    simp [headerCount, hfirst, hsecond, headerSize]
  have h0 : headerAt (first ++ second) 0 = first := by simp [headerAt, ← hfirst]
  have h1 : headerAt (first ++ second) 1 = second := by
    simp [headerAt, ← hfirst, List.take_of_length_le (hsecond.trans hfirst.symm).le]
  refine ⟨by simp [hfirst, hsecond, headerSize], by omega, fun i hi => ?_⟩
  obtain rfl | rfl : i = 0 ∨ i = 1 := by omega
  · exact
      { genesis := fun _ h => absurd h hstart.ne
        link := by simp
        work := ⟨target, by simpa only [h0] using htarget, by simpa only [h0] using hwork₁⟩
        steady := by simp
        retarget := by simp [retargetInterval] }
  · exact
      { genesis := by simp
        link := fun j hj => by
          obtain rfl : j = 0 := by omega
          rwa [h0, h1]
        work := ⟨target, by simpa only [h1, hbits] using htarget, by simpa only [h1] using hwork₂⟩
        steady := fun _ j hj _ => by
          obtain rfl : j = 0 := by omega
          rwa [h0, h1]
        retarget := by simp [retargetInterval] }

/-- The genesis block's header. -/
def genesisHeader : Bytes :=
  [0x01, 0x00, 0x00, 0x00, 0x00, 0x00, 0x00, 0x00, 0x00, 0x00, 0x00, 0x00, 0x00, 0x00, 0x00, 0x00,
   0x00, 0x00, 0x00, 0x00, 0x00, 0x00, 0x00, 0x00, 0x00, 0x00, 0x00, 0x00, 0x00, 0x00, 0x00, 0x00,
   0x00, 0x00, 0x00, 0x00, 0x3b, 0xa3, 0xed, 0xfd, 0x7a, 0x7b, 0x12, 0xb2, 0x7a, 0xc7, 0x2c, 0x3e,
   0x67, 0x76, 0x8f, 0x61, 0x7f, 0xc8, 0x1b, 0xc3, 0x88, 0x8a, 0x51, 0x32, 0x3a, 0x9f, 0xb8, 0xaa,
   0x4b, 0x1e, 0x5e, 0x4a, 0x29, 0xab, 0x5f, 0x49, 0xff, 0xff, 0x00, 0x1d, 0x1d, 0xac, 0x2b, 0x7c]

/-- The header of block 1. -/
def blockOne : Bytes :=
  [0x01, 0x00, 0x00, 0x00, 0x6f, 0xe2, 0x8c, 0x0a, 0xb6, 0xf1, 0xb3, 0x72, 0xc1, 0xa6, 0xa2, 0x46,
   0xae, 0x63, 0xf7, 0x4f, 0x93, 0x1e, 0x83, 0x65, 0xe1, 0x5a, 0x08, 0x9c, 0x68, 0xd6, 0x19, 0x00,
   0x00, 0x00, 0x00, 0x00, 0x98, 0x20, 0x51, 0xfd, 0x1e, 0x4b, 0xa7, 0x44, 0xbb, 0xbe, 0x68, 0x0e,
   0x1f, 0xee, 0x14, 0x67, 0x7b, 0xa1, 0xa3, 0xc3, 0x54, 0x0b, 0xf7, 0xb1, 0xcd, 0xb6, 0x06, 0xe8,
   0x57, 0x23, 0x3e, 0x0e, 0x61, 0xbc, 0x66, 0x49, 0xff, 0xff, 0x00, 0x1d, 0x01, 0xe3, 0x62, 0x99]

/-- Another header that extends the genesis block and meets the same target. -/
def rivalBlockOne : Bytes :=
  [0x01, 0x00, 0x00, 0x00, 0x6f, 0xe2, 0x8c, 0x0a, 0xb6, 0xf1, 0xb3, 0x72, 0xc1, 0xa6, 0xa2, 0x46,
   0xae, 0x63, 0xf7, 0x4f, 0x93, 0x1e, 0x83, 0x65, 0xe1, 0x5a, 0x08, 0x9c, 0x68, 0xd6, 0x19, 0x00,
   0x00, 0x00, 0x00, 0x00, 0x98, 0x20, 0x51, 0xfd, 0x1e, 0x4b, 0xa7, 0x44, 0xbb, 0xbe, 0x68, 0x0e,
   0x1f, 0xee, 0x14, 0x67, 0x7b, 0xa1, 0xa3, 0xc3, 0x54, 0x0b, 0xf7, 0xb1, 0xcd, 0xb6, 0x06, 0xe8,
   0x57, 0x23, 0x3e, 0x0e, 0x02, 0x43, 0x68, 0x49, 0xff, 0xff, 0x00, 0x1d, 0x35, 0x41, 0x10, 0x07]

/-- The hashes of the three headers. -/
def genesisHash : Bytes :=
  [0x6f, 0xe2, 0x8c, 0x0a, 0xb6, 0xf1, 0xb3, 0x72, 0xc1, 0xa6, 0xa2, 0x46, 0xae, 0x63, 0xf7, 0x4f,
   0x93, 0x1e, 0x83, 0x65, 0xe1, 0x5a, 0x08, 0x9c, 0x68, 0xd6, 0x19, 0x00, 0x00, 0x00, 0x00, 0x00]

def blockOneHash : Bytes :=
  [0x48, 0x60, 0xeb, 0x18, 0xbf, 0x1b, 0x16, 0x20, 0xe3, 0x7e, 0x94, 0x90, 0xfc, 0x8a, 0x42, 0x75,
   0x14, 0x41, 0x6f, 0xd7, 0x51, 0x59, 0xab, 0x86, 0x68, 0x8e, 0x9a, 0x83, 0x00, 0x00, 0x00, 0x00]

def rivalBlockOneHash : Bytes :=
  [0xe5, 0xf1, 0x4c, 0x70, 0xf0, 0xc7, 0x80, 0x8f, 0xfc, 0x16, 0x55, 0xb5, 0x7f, 0xbf, 0xda, 0xf2,
   0x15, 0x8c, 0xf6, 0x8a, 0xa7, 0xa6, 0x42, 0x82, 0x26, 0xf3, 0xd8, 0x47, 0x00, 0x00, 0x00, 0x00]

theorem sha256d_genesisHeader : sha256d genesisHeader = genesisHash := by decide +kernel

theorem sha256d_blockOne : sha256d blockOne = blockOneHash := by decide +kernel

theorem sha256d_rivalBlockOne : sha256d rivalBlockOne = rivalBlockOneHash := by decide +kernel

/-- `0x1d00ffff`. -/
def firstTarget : Nat := 0xffff * 2 ^ 208

theorem genesisHeader_isTarget (network : Network) :
    IsTarget network (headerBits genesisHeader) firstTarget := by
  rw [← checkTarget_eq_ok_iff]
  cases network <;> decide

theorem blockOne_sound (network : Network) {start : Int} (h : start < 0) :
    SoundChain network (genesisHeader ++ blockOne) start :=
  .of_pair (by decide) (by decide) h (sha256d_genesisHeader ▸ by decide)
    (by decide) (genesisHeader_isTarget network)
    (sha256d_genesisHeader ▸ by decide) (sha256d_blockOne ▸ by decide)

theorem rivalBlockOne_sound (network : Network) {start : Int} (h : start < 0) :
    SoundChain network (genesisHeader ++ rivalBlockOne) start :=
  .of_pair (by decide) (by decide) h (sha256d_genesisHeader ▸ by decide)
    (by decide) (genesisHeader_isTarget network)
    (sha256d_genesisHeader ▸ by decide) (sha256d_rivalBlockOne ▸ by decide)

/-- The heights of the two files: the genesis block where they start, then block 1 or its
rival. -/
theorem headerAtHeight_pair (start : Int) :
    headerAtHeight (genesisHeader ++ blockOne) start start = genesisHeader ∧
    headerAtHeight (genesisHeader ++ rivalBlockOne) start start = genesisHeader ∧
    headerAtHeight (genesisHeader ++ blockOne) start (start + 1) = blockOne ∧
    headerAtHeight (genesisHeader ++ rivalBlockOne) start (start + 1) = rivalBlockOne := by
  simp only [headerAtHeight, sub_self, add_sub_cancel_left]
  decide

theorem contains_pair_iff (start k : Int) :
    (Contains (genesisHeader ++ blockOne) start k ↔ k = start ∨ k = start + 1) ∧
    (Contains (genesisHeader ++ rivalBlockOne) start k ↔ k = start ∨ k = start + 1) := by
  have h₁ : headerCount (genesisHeader ++ blockOne) = 2 := by
    rw [headerCount, List.length_append]
    rfl
  have h₂ : headerCount (genesisHeader ++ rivalBlockOne) = 2 := by
    rw [headerCount, List.length_append]
    rfl
  simp only [Contains, h₁, h₂]
  omega

/-- The two files carry different headers of different hashes after the genesis block. -/
theorem not_collideAt_pair {start k : Int}
    (h : Contains (genesisHeader ++ blockOne) start k) :
    ¬HashChain.CollideAt sha256d (headerAtHeight (genesisHeader ++ blockOne) start)
      (headerAtHeight (genesisHeader ++ rivalBlockOne) start) k := by
  obtain ⟨h₁, h₂, h₃, h₄⟩ := headerAtHeight_pair start
  rcases (contains_pair_iff start k).1.1 h with rfl | rfl
  · exact fun hcol => hcol.1 (by rw [h₁, h₂])
  · have hne : blockOneHash ≠ rivalBlockOneHash := by decide
    exact fun hcol => hne (by
      simpa only [h₃, h₄, sha256d_blockOne, sha256d_rivalBlockOne] using hcol.2)

/-- Both files are accepted under the genesis block as a checkpoint at a negative height,
and count as authenticated up to height 0. -/
theorem verifyChain_pair (network : Network) {start : Int} (h : start < 0) {second : Bytes}
    (hsecond : second = blockOne ∨ second = rivalBlockOne) :
    let result := verifyChain (genesisHeader ++ second) start (some (start, genesisHash)) []
      network
    result.ok ∧ result.authenticatedHeight = some 0 := by
  obtain ⟨h₁, h₂, -, -⟩ := headerAtHeight_pair start
  obtain ⟨hc₁, hc₂⟩ := contains_pair_iff start start
  have hok : (verifyChain (genesisHeader ++ second) start (some (start, genesisHash)) []
      network).ok := by
    rw [verifyChain_ok_iff]
    rcases hsecond with rfl | rfl
    · exact ⟨⟨hc₁.2 (.inl rfl), by rw [h₁, sha256d_genesisHeader]⟩, blockOne_sound network h⟩
    · exact ⟨⟨hc₂.2 (.inl rfl), by rw [h₂, sha256d_genesisHeader]⟩, rivalBlockOne_sound network h⟩
  exact ⟨hok, by rw [authenticatedHeight_of_checkpoint hok, max_eq_left h.le]⟩

theorem not_pinsOneHeader_of_neg {network : Network} {top : Int} (htop : top < 0) :
    ¬PinsOneHeader network top := by
  intro hpins
  obtain ⟨hok₁, ha₁⟩ := verifyChain_pair network htop (.inl rfl)
  obtain ⟨hok₂, ha₂⟩ := verifyChain_pair network htop (.inr rfl)
  obtain ⟨hc₁, hc₂⟩ := contains_pair_iff top (top + 1)
  obtain ⟨-, -, h₃, h₄⟩ := headerAtHeight_pair top
  rcases hpins _ _ _ top top [] [] (top + 1) 0 0 hok₁ ha₁ (by omega) hok₂ ha₂ (by omega)
    (hc₁.2 (.inr rfl)) (hc₂.2 (.inr rfl)) with heq | ⟨k, hk, -, hcol⟩
  · rw [h₃, h₄] at heq
    exact absurd heq (by decide)
  · exact not_collideAt_pair hk hcol

/-- A verdict pins one header exactly when the stated checkpoint's height is not negative:
then the files agree or collide, and exit code 0 stands for what it is meant to. Without
a checkpoint exit code 0 always does. -/
theorem verdict_pins_one_header_iff (network : Network) :
    ExitSound network (· = none) ∧
    ∀ top : Int, (PinsOneHeader network top ∧ ExitSound network (∃ hash, · = some (top, hash))) ↔
      0 ≤ top := by
  refine ⟨fun files args checkpoint _ hstated hnone h => ?_, fun top =>
    ⟨fun hboth => ?_, fun htop => ?_⟩⟩
  · subst hnone
    exact holds_of_main_eq_zero hstated (by simp) h
  · by_contra hneg
    exact not_pinsOneHeader_of_neg (not_le.1 hneg) hboth.1
  · refine ⟨pinsOneHeader_of_nonneg htop, fun files args checkpoint _ hstated hsome h => ?_⟩
    obtain ⟨hash, rfl⟩ := hsome
    refine holds_of_main_eq_zero hstated (fun top' hash' heq => ?_) h
    obtain ⟨rfl, -⟩ := Prod.mk.inj (Option.some_inj.1 heq)
    exact htop

/-- A proof without operations of block 1's merkle root, attested at height 0. -/
def rootProof : Bytes :=
  magic ++ [0x01, opSha256] ++ (headerFields blockOne).merkleRoot ++
    attestationMarker :: (bitcoinTag ++ [0x01, 0x00])

/-- The folder with that proof and the two headers. -/
def rootFiles : Files where
  size path := if path = ['p'] then some rootProof.length else none
  read path :=
    if path = ['p'] then some rootProof
    else if path = ['h'] then some (genesisHeader ++ blockOne)
    else none

/-- The genesis block stated as a checkpoint at height -1, where the file starts. -/
def rootArgs : Args where
  exhibit := none
  proof := ['p']
  headers := ['h']
  digest := some (Bytes.hexText (headerFields blockOne).merkleRoot)
  startHeight := -1
  checkpoint := some (['-', '1', ':'] ++ display genesisHash)
  network := .mainnet

theorem statedCheckpoint_root : statedCheckpoint rootArgs = .ok (some (-1, genesisHash)) := by
  decide

/-- The proof is read as the root's, the chain is accepted, and the genesis block's height counts as
authenticated. -/
theorem main_root : main rootFiles rootArgs = .ok 0 := by
  have hparse : parseProof rootProof = .ok
      ⟨(headerFields blockOne).merkleRoot,
          [⟨.bitcoin, some 0, none, (headerFields blockOne).merkleRoot, []⟩]⟩ := by
    decide
  have hdigest : exhibitDigest rootFiles rootArgs = .ok (headerFields blockOne).merkleRoot := by
    decide
  have hcontains := (contains_pair_iff (-1) 0).1.2 (.inr rfl)
  have hheader := (headerAtHeight_pair (-1)).2.2.1
  obtain ⟨hok, hauth⟩ := verifyChain_pair .mainnet (show (-1 : Int) < 0 by decide) (.inl rfl)
  have hblock : checkBlock (genesisHeader ++ blockOne) rootArgs
      ⟨.bitcoin, some 0, none, (headerFields blockOne).merkleRoot, []⟩ = .ok 0 := by
    rw [checkBlock]
    change (if ¬ Contains (genesisHeader ++ blockOne) (-1) 0 then _ else _) = _
    rw [if_neg (not_not.mpr hcontains), statedCheckpoint_root]
    change Except.ok (exitCode
        ((headerFields (headerAtHeight (genesisHeader ++ blockOne) (-1) (-1 + 1))).merkleRoot ==
          (headerFields blockOne).merkleRoot)
        (verifyChain (genesisHeader ++ blockOne) (-1) (some (-1, genesisHash)) []
        .mainnet) 0) = _
    rw [hheader, beq_self_eq_true, exitCode, hok, hauth]
    rfl
  have hgiven : ¬ given rootArgs.exhibit = given rootArgs.digest := by decide
  have hsize : rootFiles.size rootArgs.proof = some rootProof.length := by decide
  have hproof : rootFiles.read rootArgs.proof = some rootProof := by decide
  have hheaders : rootFiles.read rootArgs.headers = some (genesisHeader ++ blockOne) := by
    decide +kernel
  simp only [main, if_neg hgiven, hsize, hheaders, hproof, checkProof, hparse,
    hdigest, ne_eq, not_true_eq_false, if_false]
  exact hblock

/-- With a checkpoint at height -1, two accepted files that are authenticated up to height 0
differ there without a collision, and exit code 0 is given to a block above the checkpoint. -/
theorem negative_checkpoint_authenticates_above_it :
    (∀ second, second = blockOne ∨ second = rivalBlockOne →
      let result := verifyChain (genesisHeader ++ second) (-1) (some (-1, genesisHash)) []
        .mainnet
      result.ok ∧ result.authenticatedHeight = some 0 ∧ Contains (genesisHeader ++ second) (-1) 0) ∧
    headerAtHeight (genesisHeader ++ blockOne) (-1) 0 ≠
      headerAtHeight (genesisHeader ++ rivalBlockOne) (-1) 0 ∧
    (∀ k, Contains (genesisHeader ++ blockOne) (-1) k →
      ¬HashChain.CollideAt sha256d (headerAtHeight (genesisHeader ++ blockOne) (-1))
        (headerAtHeight (genesisHeader ++ rivalBlockOne) (-1)) k) ∧
    main rootFiles rootArgs = .ok 0 ∧ ¬Holds rootFiles rootArgs := by
  refine ⟨fun second hsecond => ?_, by decide, fun k hk => not_collideAt_pair hk, main_root, ?_⟩
  · obtain ⟨hok, hauth⟩ := verifyChain_pair .mainnet (show (-1 : Int) < 0 by decide) hsecond
    refine ⟨hok, hauth, ?_⟩
    rcases hsecond with rfl | rfl
    · exact (contains_pair_iff (-1) 0).1.2 (.inr rfl)
    · exact (contains_pair_iff (-1) 0).2.2 (.inr rfl)
  · rintro ⟨raw, data, parsed, attestation, height, hholding⟩
    rcases hholding.tied with ⟨top, hash, hs, hle, -⟩ | ⟨-, hzero, -⟩
    · rw [statedCheckpoint_root] at hs
      obtain ⟨rfl, -⟩ := Prod.mk.inj (Option.some_inj.1 (Except.ok.inj hs))
      omega
    · exact absurd hzero (by decide)

end OtsServer.VerifyClaim
