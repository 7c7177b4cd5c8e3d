import Mathlib.Data.Nat.Bitwise
import OtsServer.VerifyClaim.Grammar

/-!
# What each reader reads

One equivalence for each primitive of the parser: it succeeds exactly on a spelling
of its piece of the grammar, and returns the bytes after it. Together with it goes the
fact that the primitive raises nothing but `ProofError`. The walk is verified from these
alone, without opening a reader again.
-/

namespace OtsServer.VerifyClaim

/-- The result is not an exception other than `ProofError`. -/
def OnlyProofError {α : Type} (r : Except Exc α) : Prop :=
  ∀ e, r = .error e → ∃ text, e = .proofError text

theorem OnlyProofError.ok {α : Type} (a : α) : OnlyProofError (.ok a : Except Exc α) :=
  fun _ h => nomatch h

theorem OnlyProofError.proofError {α : Type} (text : String) :
    OnlyProofError (.error (.proofError text) : Except Exc α) :=
  fun _ h => ⟨text, (Except.error.inj h).symm⟩

/-- Passing an exception on, in place of the match on the result that raised it. -/
theorem OnlyProofError.error_of_eq {α β : Type} {r : Except Exc α} {e : Exc}
    (h : OnlyProofError r) (he : r = .error e) : OnlyProofError (.error e : Except Exc β) := by
  obtain ⟨text, rfl⟩ := h e he
  exact .proofError text

theorem toNat_and_low (b : UInt8) : (b &&& 0x7f).toNat = b.toNat % 128 := by
  rw [UInt8.toNat_and]
  exact Nat.and_two_pow_sub_one_eq_mod b.toNat 7

theorem and_high_eq_zero_iff (b : UInt8) : b &&& 0x80 = 0 ↔ b.toNat < 128 := by
  have hb : b.toNat < 256 := b.toNat_lt
  have key : (b &&& 0x80).toNat = (b.toNat.testBit 7).toNat * 128 := by
    rw [UInt8.toNat_and]
    exact Nat.and_two_pow b.toNat 7
  rw [← UInt8.toNat_inj, key, Nat.testBit_eq_decide_div_mod_eq]
  by_cases h : b.toNat < 128
  · simp [h, show b.toNat / 128 % 2 = 0 by omega]
  · simp [h, show b.toNat / 128 % 2 = 1 by omega]

/-- Or-ing a group in above the bits read so far is addition. -/
theorem or_shiftLeft_eq_add {value shift : Nat} (h : value < 2 ^ shift) (group : Nat) :
    value ||| group <<< shift = value + 2 ^ shift * group := by
  rw [Nat.shiftLeft_eq, Nat.mul_comm, Nat.or_comm, ← Nat.two_pow_add_eq_or_of_lt h, Nat.add_comm]

theorem add_group_lt {value shift group : Nat} (h : value < 2 ^ shift) (hg : group < 128) :
    value + 2 ^ shift * group < 2 ^ (shift + 7) := by
  have : 2 ^ shift * (group + 1) ≤ 2 ^ shift * 128 := Nat.mul_le_mul_left _ hg
  rw [Nat.pow_add]
  rw [Nat.mul_add] at this
  omega

theorem readVaruintLoop_of_groups {bs : Bytes} {n : Nat} (h : VaruintGroups bs n) :
    ∀ (value shift count : Nat) (rest : Bytes), value < 2 ^ shift →
      count + bs.length ≤ maxVaruintBytes →
      readVaruintLoop value shift count (bs ++ rest) = .ok (value + 2 ^ shift * n, rest) := by
  induction h with
  | @last b hb =>
      intro value shift count rest hv hc
      have hcount : ¬ count ≥ maxVaruintBytes := by simp at hc; omega
      have hlow : (b &&& 0x7f).toNat = b.toNat := by
        rw [toNat_and_low, Nat.mod_eq_of_lt hb]
      simp only [List.singleton_append, readVaruintLoop, if_neg hcount,
        if_pos ((and_high_eq_zero_iff b).mpr hb), hlow, or_shiftLeft_eq_add hv]
  | @more b bs n hb _ ih =>
      intro value shift count rest hv hc
      have hb' : b.toNat < 256 := b.toNat_lt
      have hcount : ¬ count ≥ maxVaruintBytes := by simp at hc; omega
      have hhigh : ¬ b &&& 0x80 = 0 := by rw [and_high_eq_zero_iff]; omega
      have hlow : (b &&& 0x7f).toNat = b.toNat - 128 := by rw [toNat_and_low]; omega
      simp only [List.cons_append, readVaruintLoop, if_neg hcount, if_neg hhigh, hlow,
        or_shiftLeft_eq_add hv]
      rw [ih _ _ _ _ (add_group_lt hv (by omega)) (by simp at hc; omega)]
      rw [Nat.pow_add, Nat.mul_add, Nat.add_assoc, Nat.mul_assoc,
        show (2 : Nat) ^ 7 = 128 from rfl]

theorem groups_of_readVaruintLoop (bs : Bytes) :
    ∀ (value shift count n : Nat) (rest : Bytes), value < 2 ^ shift →
      readVaruintLoop value shift count bs = .ok (n, rest) →
      ∃ pre m, bs = pre ++ rest ∧ VaruintGroups pre m ∧ count + pre.length ≤ maxVaruintBytes ∧
        n = value + 2 ^ shift * m := by
  induction bs with
  | nil => intro value shift count n rest _ h; simp [readVaruintLoop] at h
  | cons b bs ih =>
      intro value shift count n rest hv h
      have hb' : b.toNat < 256 := b.toNat_lt
      by_cases hcount : count ≥ maxVaruintBytes
      · simp [readVaruintLoop, hcount] at h
      · by_cases hb : b.toNat < 128
        · have hlow : (b &&& 0x7f).toNat = b.toNat := by
            rw [toNat_and_low, Nat.mod_eq_of_lt hb]
          simp only [readVaruintLoop, if_neg hcount, if_pos ((and_high_eq_zero_iff b).mpr hb), hlow,
            or_shiftLeft_eq_add hv, Except.ok.injEq, Prod.mk.injEq] at h
          obtain ⟨rfl, rfl⟩ := h
          exact ⟨[b], b.toNat, rfl, .last hb, by simp; omega, rfl⟩
        · have hhigh : ¬ b &&& 0x80 = 0 := by rw [and_high_eq_zero_iff]; omega
          have hlow : (b &&& 0x7f).toNat = b.toNat - 128 := by rw [toNat_and_low]; omega
          simp only [readVaruintLoop, if_neg hcount, if_neg hhigh, hlow,
            or_shiftLeft_eq_add hv] at h
          obtain ⟨pre, m, rfl, hg, hl, rfl⟩ := ih _ _ _ _ _ (add_group_lt hv (by omega)) h
          refine ⟨b :: pre, b.toNat - 128 + 128 * m, rfl, .more (by omega) hg, ?_, ?_⟩
          · simp only [List.length_cons]; omega
          · rw [Nat.pow_add, Nat.mul_add, Nat.add_assoc, Nat.mul_assoc,
              show (2 : Nat) ^ 7 = 128 from rfl]

theorem readVaruint_ok_iff {data rest : Bytes} {n : Nat} :
    readVaruint data = .ok (n, rest) ↔ ∃ field, data = field ++ rest ∧ IsVaruint field n := by
  constructor
  · intro h
    obtain ⟨pre, m, rfl, hg, hl, rfl⟩ := groups_of_readVaruintLoop data 0 0 0 n rest (by simp) h
    exact ⟨pre, rfl, by simpa using hg, by omega⟩
  · rintro ⟨field, rfl, hg, hl⟩
    simpa [readVaruint] using readVaruintLoop_of_groups hg 0 0 0 rest (by simp) (by omega)

theorem readVaruint_onlyProofError (data : Bytes) : OnlyProofError (readVaruint data) := by
  suffices h : ∀ (bs : Bytes) (value shift count : Nat),
      OnlyProofError (readVaruintLoop value shift count bs) from h data 0 0 0
  intro bs
  induction bs with
  | nil => exact fun _ _ _ => .proofError _
  | cons b bs ih =>
      intro value shift count
      unfold readVaruintLoop
      split
      · exact .proofError _
      · dsimp only
        split
        · exact .ok _
        · exact ih _ _ _

theorem readVarbytes_ok_iff {data payload rest : Bytes} {maxLen minLen : Nat} :
    readVarbytes data maxLen minLen = .ok (payload, rest) ↔
      ∃ field, data = field ++ rest ∧ IsVarbytes maxLen minLen field payload := by
  constructor
  · intro h
    unfold readVarbytes at h
    split at h
    · cases h
    · next length tail hlen =>
      obtain ⟨field, rfl, hfield⟩ := readVaruint_ok_iff.mp hlen
      split_ifs at h with hmax hmin hshort
      simp only [Except.ok.injEq, Prod.mk.injEq] at h
      obtain ⟨rfl, rfl⟩ := h
      have hlength : (tail.take length).length = length := by simp; omega
      refine ⟨field ++ tail.take length, by simp, field, rfl, by rwa [hlength], ?_, ?_⟩ <;> omega
  · rintro ⟨_, rfl, field, rfl, hfield, hmin, hmax⟩
    have hlen : readVaruint (field ++ (payload ++ rest)) = .ok (payload.length, payload ++ rest) :=
      readVaruint_ok_iff.mpr ⟨field, rfl, hfield⟩
    simp [readVarbytes, hlen, show ¬ maxLen < payload.length by omega,
      show ¬ payload.length < minLen by omega]

theorem readVarbytes_onlyProofError (data : Bytes) (maxLen minLen : Nat) :
    OnlyProofError (readVarbytes data maxLen minLen) := by
  unfold readVarbytes
  split
  · next h => exact (readVaruint_onlyProofError data).error_of_eq h
  · split_ifs
    · exact .proofError _
    · exact .proofError _
    · exact .proofError _
    · exact .ok _

/-- Every allowed URI character is ASCII, so the decoding of an accepted URI succeeds. -/
theorem decodeAscii_of_isUriChar {uri : Bytes} (h : ∀ b ∈ uri, isUriChar b) :
    decodeAscii uri = .ok (uri.map fun b => Char.ofNat b.toNat) := by
  have hascii : uri.all (· < 0x80) = true := by
    rw [List.all_eq_true]
    intro b hb
    have hc := h b hb
    simp only [isUriChar, Bool.or_eq_true, Bool.and_eq_true, decide_eq_true_eq, beq_iff_eq,
      UInt8.le_iff_toNat_le, ← UInt8.toNat_inj] at hc
    rw [decide_eq_true_eq, UInt8.lt_iff_toNat_lt]
    simp at hc ⊢
    omega
  rw [decodeAscii, if_pos hascii]

theorem readPayload_ok_iff {atag payload msg : Bytes} {path : List Step} {a : Attestation}
    (htag : atag.length = 8) :
    readPayload atag payload msg path = .ok a ↔
      ∃ n : Notary, n.tag = atag ∧ n.Payload payload ∧ a = n.attestation msg path := by
  have hpending : pendingTag ∉ heightTags := by decide
  constructor
  · intro h
    unfold readPayload at h
    by_cases hp : atag = pendingTag
    · subst hp
      rw [if_pos rfl] at h
      split at h
      · cases h
      · next uri rest hread =>
        split_ifs at h with hrest hchars
        obtain ⟨field, rfl, hfield⟩ := readVarbytes_ok_iff.mp hread
        have hall : ∀ b ∈ uri, isUriChar b := by simpa using hchars
        rw [decodeAscii_of_isUriChar hall] at h
        refine ⟨.pending uri, rfl, ⟨?_, hall⟩, (Except.ok.inj h).symm⟩
        simpa [not_not.mp hrest] using hfield
    · by_cases hh : atag ∈ heightTags
      · rw [if_neg hp, if_pos hh] at h
        split at h
        · cases h
        · next height rest hread =>
          obtain ⟨field, rfl, hfield⟩ := readVaruint_ok_iff.mp hread
          have hrest : rest = [] := by
            by_contra hne
            rw [if_pos hne] at h
            cases h
          subst hrest
          refine ⟨.height atag height, rfl, ⟨hh, by simpa using hfield⟩, ?_⟩
          rw [if_neg (not_not.mpr rfl)] at h
          simp only [Notary.attestation]
          split_ifs at h ⊢ with hbtc
          · exact (Except.ok.inj h).symm
          · exact (Except.ok.inj h).symm
      · rw [if_neg hp, if_neg hh] at h
        exact ⟨.unknown atag payload, rfl, ⟨htag, hp, hh, rfl⟩, (Except.ok.inj h).symm⟩
  · rintro ⟨n, rfl, hpayload, rfl⟩
    cases n with
    | pending uri =>
        obtain ⟨hfield, hall⟩ := hpayload
        have hread : readVarbytes payload maxUri 0 = .ok (uri, []) :=
          readVarbytes_ok_iff.mpr ⟨payload, by simp, hfield⟩
        have hchars : uri.any (fun b => !isUriChar b) = false := by simpa using hall
        simp [readPayload, Notary.tag, hread, hchars, decodeAscii_of_isUriChar hall,
          Notary.attestation]
    | height tag k =>
        obtain ⟨htags, hfield⟩ := hpayload
        have hread : readVaruint payload = .ok (k, []) :=
          readVaruint_ok_iff.mpr ⟨payload, by simp, hfield⟩
        have hne : tag ≠ pendingTag := fun he => hpending (he ▸ htags)
        by_cases hbtc : tag = bitcoinTag <;>
          simp_all [readPayload, Notary.tag, Notary.attestation]
    | unknown tag body =>
        obtain ⟨_, hp, hh, rfl⟩ := hpayload
        simp [readPayload, Notary.tag, Notary.attestation, hp, hh]

theorem readPayload_onlyProofError (atag payload msg : Bytes) (path : List Step) :
    OnlyProofError (readPayload atag payload msg path) := by
  unfold readPayload
  split
  · split
    · next h => exact (readVarbytes_onlyProofError _ _ _).error_of_eq h
    · split
      · exact .proofError _
      · split
        · exact .proofError _
        · next hchars =>
          rw [decodeAscii_of_isUriChar (by simpa using hchars)]
          exact .ok _
  · split
    · split
      · next h => exact (readVaruint_onlyProofError _).error_of_eq h
      · split_ifs
        · exact .proofError _
        · exact .ok _
        · exact .ok _
    · exact .ok _

theorem Notary.tag_length {n : Notary} {payload : Bytes} (h : n.Payload payload) :
    n.tag.length = 8 := by
  cases n with
  | pending uri => rfl
  | height tag k =>
      have : ∀ t ∈ heightTags, t.length = 8 := by decide
      exact this tag h.1
  | unknown tag body => exact h.1

theorem readAttestation_ok_iff {data msg rest : Bytes} {path : List Step} {a : Attestation} :
    readAttestation data msg path = .ok (a, rest) ↔
      ∃ (n : Notary) (bs : Bytes), data = bs ++ rest ∧ n.Encodes bs ∧
        a = n.attestation msg path := by
  constructor
  · intro h
    unfold readAttestation at h
    split_ifs at h with htag
    split at h
    · cases h
    · next payload tail hread =>
      split at h
      · cases h
      · next attestation hpayload =>
        simp only [Except.ok.injEq, Prod.mk.injEq] at h
        obtain ⟨rfl, rfl⟩ := h
        obtain ⟨n, htagEq, hp, rfl⟩ := (readPayload_ok_iff (not_not.mp htag)).mp hpayload
        obtain ⟨field, hdrop, hfield⟩ := readVarbytes_ok_iff.mp hread
        refine ⟨n, n.tag ++ field, ?_, ⟨field, payload, rfl, hfield, hp⟩, rfl⟩
        rw [htagEq, List.append_assoc, ← hdrop, List.take_append_drop]
  · rintro ⟨n, bs, rfl, ⟨field, payload, rfl, hfield, hp⟩, rfl⟩
    have hlen := n.tag_length hp
    have htake : ((n.tag ++ field) ++ rest).take 8 = n.tag := by simp [hlen]
    have hdrop : ((n.tag ++ field) ++ rest).drop 8 = field ++ rest := by simp [hlen]
    have hread : readVarbytes (field ++ rest) maxAttestationPayload 0 = .ok (payload, rest) :=
      readVarbytes_ok_iff.mpr ⟨field, rfl, hfield⟩
    have hpayload : readPayload n.tag payload msg path = .ok (n.attestation msg path) :=
      (readPayload_ok_iff hlen).mpr ⟨n, rfl, hp, rfl⟩
    simp only [readAttestation, htake, hdrop, hread, hpayload, hlen, ne_eq, not_true_eq_false,
      if_false]

theorem readAttestation_onlyProofError (data msg : Bytes) (path : List Step) :
    OnlyProofError (readAttestation data msg path) := by
  unfold readAttestation
  split_ifs
  · exact .proofError _
  · split
    · next h => exact (readVarbytes_onlyProofError _ _ _).error_of_eq h
    · split
      · next h => exact (readPayload_onlyProofError _ _ _ _).error_of_eq h
      · exact .ok _

theorem readOperation_ok_iff {tag : UInt8} {data msg operand new rest : Bytes} :
    readOperation tag data msg = .ok (operand, new, rest) ↔
      ∃ (o : Op) (bs : Bytes), tag :: data = bs ++ rest ∧ o.Encodes bs ∧ operand = o.operand ∧
        new = o.apply msg := by
  have hps : opPrepend ≠ opSha256 := by decide
  have hpa : opPrepend ≠ opAppend := by decide
  have has : opAppend ≠ opSha256 := by decide
  constructor
  · intro h
    unfold readOperation at h
    split_ifs at h with hs ha hp
    · simp only [Except.ok.injEq, Prod.mk.injEq] at h
      obtain ⟨rfl, rfl, rfl⟩ := h
      exact ⟨.sha256, [opSha256], by simp [hs], rfl, rfl, rfl⟩
    · split at h
      · cases h
      · next payload tail hread =>
        obtain ⟨field, rfl, hfield⟩ := readVarbytes_ok_iff.mp hread
        simp only [Except.ok.injEq, Prod.mk.injEq] at h
        obtain ⟨rfl, rfl, rfl⟩ := h
        exact ⟨.append payload, opAppend :: field, by simp [ha], ⟨field, rfl, hfield⟩, rfl, rfl⟩
    · split at h
      · cases h
      · next payload tail hread =>
        obtain ⟨field, rfl, hfield⟩ := readVarbytes_ok_iff.mp hread
        simp only [Except.ok.injEq, Prod.mk.injEq] at h
        obtain ⟨rfl, rfl, rfl⟩ := h
        exact ⟨.prepend payload, opPrepend :: field, by simp [hp], ⟨field, rfl, hfield⟩, rfl, rfl⟩
  · rintro ⟨o, bs, heq, henc, rfl, rfl⟩
    cases o with
    | sha256 =>
        cases henc
        obtain ⟨rfl, rfl⟩ := List.cons.inj heq
        simp [readOperation, Op.operand, Op.apply]
    | append payload =>
        obtain ⟨field, rfl, hfield⟩ := henc
        rw [List.cons_append, List.cons.injEq] at heq
        obtain ⟨rfl, rfl⟩ := heq
        have hread : readVarbytes (field ++ rest) maxOperand 1 = .ok (payload, rest) :=
          readVarbytes_ok_iff.mpr ⟨field, rfl, hfield⟩
        simp [readOperation, Op.operand, Op.apply, hread, has]
    | prepend payload =>
        obtain ⟨field, rfl, hfield⟩ := henc
        rw [List.cons_append, List.cons.injEq] at heq
        obtain ⟨rfl, rfl⟩ := heq
        have hread : readVarbytes (field ++ rest) maxOperand 1 = .ok (payload, rest) :=
          readVarbytes_ok_iff.mpr ⟨field, rfl, hfield⟩
        simp [readOperation, Op.operand, Op.apply, hread, hps, hpa]

theorem readOperation_onlyProofError (tag : UInt8) (data msg : Bytes) :
    OnlyProofError (readOperation tag data msg) := by
  unfold readOperation
  split_ifs
  · exact .ok _
  · split
    · next h => exact (readVarbytes_onlyProofError _ _ _).error_of_eq h
    · exact .ok _
  · split
    · next h => exact (readVarbytes_onlyProofError _ _ _).error_of_eq h
    · exact .ok _
  · exact .proofError _

/-- The operation's tag is one `OP_NAMES` knows, and no other marker. -/
theorem Op.Encodes.cons {o : Op} {bs : Bytes} (h : o.Encodes bs) :
    ∃ tag field, bs = tag :: field ∧ opNames tag = .ok o.name ∧ tag ≠ forkMarker ∧
      tag ≠ attestationMarker := by
  cases o with
  | sha256 => exact ⟨opSha256, [], h, rfl, by decide, by decide⟩
  | append payload =>
      obtain ⟨field, rfl, _⟩ := h
      exact ⟨opAppend, field, rfl, rfl, by decide, by decide⟩
  | prepend payload =>
      obtain ⟨field, rfl, _⟩ := h
      exact ⟨opPrepend, field, rfl, rfl, by decide, by decide⟩

end OtsServer.VerifyClaim
