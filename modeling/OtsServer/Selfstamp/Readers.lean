import OtsServer.Selfstamp.Ots
import OtsServer.VerifyClaim.Accepts

/-!
# The two readers of proofs

`parse_ots` and `parse_proof` agree: the linear reader takes exactly the proofs in which
the other finds no fork, and both read the same digest, message and attestation there.
The small readers give the same answers and the same error texts; the two loops are
compared step by step, and a walk that has met a fork ends with two attestations or more.
-/

namespace OtsServer.Selfstamp

/-- The exception of one reader as that of the other. -/
def ofProofError : VerifyClaim.Exc → Exc
  | .proofError text => .otsError text
  | .unicodeDecodeError => .unicodeDecodeError
  | .keyError => .unfinished
  | .unfinished => .unfinished

/-- What `parse_ots` reports for an attestation of `parse_proof`. -/
def ofAttestation (a : VerifyClaim.Attestation) : Attestation :=
  match a.kind with
  | .pending => .pending (a.uri.getD [])
  | .bitcoin => .bitcoin (a.height.getD 0)
  | .unknown tag => .unknown (Bytes.hexText tag)

/-! ## The small readers -/

theorem readVaruintLoop_eq (data : Bytes) : ∀ value shift count : Nat,
    readVaruintLoop value shift count data =
      (VerifyClaim.readVaruintLoop value shift count data).mapError ofProofError := by
  induction data with
  | nil => intros; rfl
  | cons byte rest ih =>
      intro value shift count
      rw [readVaruintLoop, VerifyClaim.readVaruintLoop]
      by_cases hcount : count ≥ maxVaruintBytes
      · rw [if_pos hcount, if_pos (show count ≥ VerifyClaim.maxVaruintBytes from hcount)]
        rfl
      · rw [if_neg hcount, if_neg (show ¬count ≥ VerifyClaim.maxVaruintBytes from hcount)]
        dsimp only
        split_ifs
        · rfl
        · exact ih _ _ _

theorem readVaruint_eq (data : Bytes) :
    readVaruint data = (VerifyClaim.readVaruint data).mapError ofProofError :=
  readVaruintLoop_eq data 0 0 0

theorem readVarbytes_eq (data : Bytes) (maxLen minLen : Nat) :
    readVarbytes data maxLen minLen =
      (VerifyClaim.readVarbytes data maxLen minLen).mapError ofProofError := by
  rw [readVarbytes, VerifyClaim.readVarbytes, readVaruint_eq]
  rcases VerifyClaim.readVaruint data with e | ⟨length, rest⟩
  · rfl
  · simp only [Except.mapError]
    split_ifs <;> rfl

theorem decodeAscii_eq (bs : Bytes) :
    decodeAscii bs = (VerifyClaim.decodeAscii bs).mapError ofProofError := by
  rw [decodeAscii, VerifyClaim.decodeAscii]
  split_ifs <;> rfl

/-- A payload reads as the same attestation. -/
theorem readPayload_eq (atag payload msg : Bytes) (path : List VerifyClaim.Step) :
    readPayload atag payload =
      ((VerifyClaim.readPayload atag payload msg path).mapError ofProofError).map
        ofAttestation := by
  have hchar : VerifyClaim.isUriChar = isUriChar := rfl
  rw [readPayload, VerifyClaim.readPayload, readVarbytes_eq, readVaruint_eq,
    show VerifyClaim.pendingTag = pendingTag from rfl,
    show VerifyClaim.heightTags = heightTags from rfl,
    show VerifyClaim.bitcoinTag = bitcoinTag from rfl,
    show VerifyClaim.maxUri = maxUri from rfl, hchar]
  by_cases hpending : atag = pendingTag
  · rw [if_pos hpending, if_pos hpending]
    rcases VerifyClaim.readVarbytes payload maxUri 0 with e | ⟨uri, rest⟩
    · rfl
    · simp only [Except.mapError]
      split_ifs
      · rfl
      · rfl
      · rw [decodeAscii_eq]
        rcases VerifyClaim.decodeAscii uri with e | text <;> rfl
  · rw [if_neg hpending, if_neg hpending]
    by_cases hheight : atag ∈ heightTags
    · rw [if_pos hheight, if_pos hheight]
      rcases VerifyClaim.readVaruint payload with e | ⟨height, rest⟩
      · rfl
      · simp only [Except.mapError]
        split_ifs <;> rfl
    · rw [if_neg hheight, if_neg hheight]
      rfl

theorem readAttestation_eq (data msg : Bytes) (path : List VerifyClaim.Step) :
    readAttestation data =
      ((VerifyClaim.readAttestation data msg path).mapError ofProofError).map fun r =>
        (ofAttestation r.1, r.2) := by
  rw [readAttestation, VerifyClaim.readAttestation, readVarbytes_eq,
    show VerifyClaim.maxAttestationPayload = maxAttestationPayload from rfl]
  split_ifs
  · rfl
  · rcases VerifyClaim.readVarbytes (data.drop 8) maxAttestationPayload 0 with e | ⟨payload, rest⟩
    · rfl
    · simp only [Except.mapError]
      rw [readPayload_eq _ payload msg path]
      rcases VerifyClaim.readPayload (data.take 8) payload msg path with e | a <;> rfl

/-- An operation gives the same message; the two readers only word their refusals differently. -/
theorem readOperation_ok_iff {tag : UInt8} {data msg new rest : Bytes} :
    readOperation tag data msg = .ok (new, rest) ↔
      ∃ operand, VerifyClaim.readOperation tag data msg = .ok (operand, new, rest) := by
  rw [readOperation, VerifyClaim.readOperation, readVarbytes_eq,
    show VerifyClaim.opSha256 = opSha256 from rfl,
    show VerifyClaim.opAppend = opAppend from rfl, show VerifyClaim.opPrepend = opPrepend from rfl,
    show VerifyClaim.maxOperand = maxOperand from rfl]
  split_ifs
  · simp
  · rcases VerifyClaim.readVarbytes data maxOperand 1
      with e | ⟨operand, tail⟩ <;> simp [Except.mapError]
  · rcases VerifyClaim.readVarbytes data maxOperand 1
      with e | ⟨operand, tail⟩ <;> simp [Except.mapError]
  · simp

/-! ## The loops -/

/-- The walk of the other reader where this one is. -/
def linearWalk (rest msg : Bytes) (path : List VerifyClaim.Step) (ops : Nat) : VerifyClaim.Walk :=
  ⟨rest, msg, path, ops, false, [], []⟩

theorem marker_ne_fork : attestationMarker ≠ forkMarker := by decide

/-- Everything an iteration that raises nothing can have read, as the other reader reads it. -/
theorem parseStep_cases {rest msg : Bytes} {ops : Nat} {next : Next}
    (h : parseStep rest msg ops = .ok next) (path : List VerifyClaim.Step) :
    (∃ a, VerifyClaim.walkStep (linearWalk rest msg path ops) = .ok (.done [a] []) ∧ a.msg = msg ∧
      next = .done (ofAttestation a) rest msg) ∨
    (∃ tail new path', VerifyClaim.walkStep (linearWalk rest msg path ops) =
        .ok (.again (linearWalk tail new path' (ops + 1))) ∧ next = .again tail new (ops + 1)) := by
  unfold parseStep at h
  split at h
  next => cases h
  next tag tail =>
    by_cases hmarker : tag = attestationMarker
    · rw [if_pos hmarker, readAttestation_eq tail msg path] at h
      rcases hread : VerifyClaim.readAttestation tail msg path with e | ⟨a, tail'⟩
      · rw [hread] at h
        cases h
      · rw [hread] at h
        simp only [Except.mapError, Except.map] at h
        split_ifs at h with htail
        obtain rfl := not_not.mp htail
        obtain ⟨n, _, -, -, ha⟩ := VerifyClaim.readAttestation_ok_iff.mp hread
        refine .inl ⟨a, ?_, by rw [ha, VerifyClaim.Notary.attestation_msg], (Except.ok.inj h).symm⟩
        rw [VerifyClaim.walkStep, linearWalk]
        dsimp only
        rw [if_neg (show tag ≠ VerifyClaim.forkMarker from hmarker ▸ marker_ne_fork),
          if_pos (show tag = VerifyClaim.attestationMarker from hmarker), hread]
        rfl
    rw [if_neg hmarker] at h
    by_cases hfork : tag = forkMarker
    · rw [if_pos hfork] at h
      cases h
    rw [if_neg hfork] at h
    by_cases hmsg : msg.length > maxMsg
    · rw [if_pos hmsg] at h
      cases h
    rw [if_neg hmsg] at h
    rcases hread : readOperation tag tail msg with e | ⟨new, tail'⟩
    · rw [hread] at h
      cases h
    · rw [hread] at h
      dsimp only at h
      split_ifs at h with hnew hops
      obtain ⟨operand, hread⟩ := readOperation_ok_iff.mp hread
      obtain ⟨o, bs, heq, henc, -, -⟩ := VerifyClaim.readOperation_ok_iff.mp hread
      obtain ⟨tag', field, rfl, hname, -, -⟩ := henc.cons
      obtain ⟨rfl, -⟩ := List.cons.inj heq
      refine .inr ⟨tail', new, path ++ [⟨o.name, operand, new⟩], ?_, (Except.ok.inj h).symm⟩
      rw [VerifyClaim.walkStep, linearWalk]
      dsimp only
      rw [if_neg (show tag ≠ VerifyClaim.forkMarker from hfork),
        if_neg (show tag ≠ VerifyClaim.attestationMarker from hmarker),
        if_neg (show ¬msg.length > VerifyClaim.maxMsg from hmsg), hread]
      dsimp only
      rw [if_neg (show ¬new.length > VerifyClaim.maxOperand from hnew), hname]
      dsimp only
      rw [if_neg (show ¬ops + 1 > VerifyClaim.maxOpsOnAPath from hops)]
      rfl

/-- The other way round: a step of the other reader that is not at a fork is a step of this one. -/
theorem parseStep_of_walkStep {rest msg : Bytes} {path : List VerifyClaim.Step} {ops : Nat}
    {next : VerifyClaim.Walk.Next}
    (h : VerifyClaim.walkStep (linearWalk rest msg path ops) = .ok next) :
    (∃ w : VerifyClaim.Walk, next = .again w ∧ w.pending.length = 1) ∨ (∃ out tail,
      next = .done out tail ∧ (tail = [] → ∃ r, parseStep rest msg ops = .ok (.done r rest msg))) ∨
    (∃ tail new path', next = .again (linearWalk tail new path' (ops + 1)) ∧
      parseStep rest msg ops = .ok (.again tail new (ops + 1))) := by
  unfold VerifyClaim.walkStep linearWalk at h
  dsimp only at h
  split at h
  next => cases h
  next tag tail =>
    by_cases hfork : tag = VerifyClaim.forkMarker
    · rw [if_pos hfork, if_neg Bool.false_ne_true] at h
      exact .inl ⟨_, (Except.ok.inj h).symm, rfl⟩
    rw [if_neg hfork] at h
    by_cases hmarker : tag = VerifyClaim.attestationMarker
    · rw [if_pos hmarker] at h
      rcases hread : VerifyClaim.readAttestation tail msg path with e | ⟨a, tail'⟩
      · rw [hread] at h
        cases h
      · rw [hread] at h
        refine .inr (.inl ⟨[a], tail', (Except.ok.inj h).symm, fun htail => ⟨ofAttestation a, ?_⟩⟩)
        rw [parseStep, if_pos (show tag = attestationMarker from hmarker),
          readAttestation_eq tail msg path, hread]
        simp only [Except.mapError, Except.map]
        rw [if_neg (not_not.mpr htail)]
    rw [if_neg hmarker] at h
    by_cases hmsg : msg.length > VerifyClaim.maxMsg
    · rw [if_pos hmsg] at h
      cases h
    rw [if_neg hmsg] at h
    rcases hread : VerifyClaim.readOperation tag tail msg with e | ⟨operand, new, tail'⟩
    · rw [hread] at h
      cases h
    · rw [hread] at h
      dsimp only at h
      by_cases hnew : new.length > VerifyClaim.maxOperand
      · rw [if_pos hnew] at h
        cases h
      rw [if_neg hnew] at h
      cases hname : VerifyClaim.opNames tag with
      | error e =>
          rw [hname] at h
          cases h
      | ok name =>
          rw [hname] at h
          dsimp only at h
          split_ifs at h with hops
          refine .inr (.inr ⟨tail', new, _, (Except.ok.inj h).symm, ?_⟩)
          rw [parseStep, if_neg (show tag ≠ attestationMarker from hmarker),
            if_neg (show tag ≠ forkMarker from hfork),
            if_neg (show ¬msg.length > maxMsg from hmsg), readOperation_ok_iff.mpr ⟨operand, hread⟩]
          dsimp only
          rw [if_neg (show ¬new.length > maxOperand from hnew),
            if_neg (show ¬ops + 1 > maxOpsOnAPath from hops)]

/-- What this reader takes, the other takes, with one attestation. -/
theorem walk_of_parseLoop (fuel : Nat) :
    ∀ {rest msg : Bytes} {ops : Nat} {attestation : Attestation} {marker commitment : Bytes},
      parseLoop fuel rest msg ops = .ok (attestation, marker, commitment) → ∀ path, ∃ a,
      VerifyClaim.walk fuel (linearWalk rest msg path ops) = .ok ([a], []) ∧ a.msg = commitment ∧
      ofAttestation a = attestation := by
  induction fuel with
  | zero =>
      intro rest msg ops attestation marker commitment h
      cases h
  | succ fuel ih =>
      intro rest msg ops attestation marker commitment h path
      rw [parseLoop] at h
      rw [VerifyClaim.walk]
      cases hstep : parseStep rest msg ops with
      | error e =>
          rw [hstep] at h
          cases h
      | ok next =>
          rw [hstep] at h
          obtain ⟨a, hwalk, hmsg, rfl⟩ | ⟨tail, new, path', hwalk,
            rfl⟩ := parseStep_cases hstep path
          · obtain ⟨rfl, -, rfl⟩ : _ = attestation ∧ _ = marker ∧ _ = commitment := by
              simpa only [Except.ok.injEq, Prod.mk.injEq] using h
            rw [hwalk]
            exact ⟨a, rfl, hmsg, rfl⟩
          · rw [hwalk]
            exact ih h path'

/-- A walk ends with an attestation for every open fork, and one more. -/
theorem length_of_walk (fuel : Nat) :
    ∀ {w : VerifyClaim.Walk} {out : List VerifyClaim.Attestation} {rest : Bytes},
    VerifyClaim.walk fuel w = .ok (out, rest) →
      w.out.length + w.pending.length + 1 ≤ out.length := by
  induction fuel with
  | zero =>
      intro w out rest h
      cases h
  | succ fuel ih =>
      intro w out rest h
      rw [VerifyClaim.walk] at h
      cases hstep : VerifyClaim.walkStep w with
      | error e =>
          rw [hstep] at h
          cases h
      | ok next =>
          rw [hstep] at h
          obtain ⟨tail, -, -, rfl⟩ | ⟨n, bs, tail, -, -, rfl⟩ | ⟨o, bs, tail, -, -, -, -, rfl⟩ :=
            VerifyClaim.walkStep_cases hstep
          · have := ih h
            simp only [List.length_cons] at this
            omega
          · cases hpending : w.pending with
            | nil =>
                rw [hpending] at h
                obtain ⟨rfl, -⟩ := Prod.mk.inj (Except.ok.inj h)
                simp
            | cons r pending =>
                rw [hpending] at h
                have := ih h
                simp only [List.length_append, List.length_cons, List.length_nil] at this ⊢
                omega
          · have := ih h
            exact this

/-- A walk that ends with one attestation met no fork, and this reader makes it too. -/
theorem parseLoop_of_walk (fuel : Nat) :
    ∀ {rest msg : Bytes} {path : List VerifyClaim.Step} {ops : Nat} {a : VerifyClaim.Attestation},
      VerifyClaim.walk fuel (linearWalk rest msg path ops) = .ok ([a], []) →
    ∃ r, parseLoop fuel rest msg ops = .ok r := by
  induction fuel with
  | zero =>
      intro rest msg path ops a h
      cases h
  | succ fuel ih =>
      intro rest msg path ops a h
      rw [VerifyClaim.walk] at h
      rw [parseLoop]
      cases hstep : VerifyClaim.walkStep (linearWalk rest msg path ops) with
      | error e =>
          rw [hstep] at h
          cases h
      | ok next =>
          rw [hstep] at h
          obtain ⟨w, rfl, hone⟩ | ⟨out, tail, rfl, hdone⟩ | ⟨tail, new, path', rfl, hagain⟩ :=
            parseStep_of_walkStep hstep
          · have := length_of_walk fuel h
            simp only [List.length_cons, List.length_nil] at this
            omega
          · obtain ⟨-, rfl⟩ := Prod.mk.inj (Except.ok.inj h)
            obtain ⟨r, hr⟩ := hdone rfl
            rw [hr]
            exact ⟨_, rfl⟩
          · rw [hagain]
            exact ih h

/-! ## What the reader raises -/

/-- A reader that refuses raises `OtsError`, and nothing else. -/
def OnlyOtsError {α : Type} (r : Except Exc α) : Prop :=
  ∀ e, r = .error e → ∃ text, e = .otsError text

theorem OnlyOtsError.ok {α : Type} (a : α) : OnlyOtsError (.ok a : Except Exc α) :=
  fun _ h => nomatch h

theorem OnlyOtsError.otsError {α : Type} (text : String) :
    OnlyOtsError (.error (.otsError text) : Except Exc α) :=
  fun _ h => ⟨text, (Except.error.inj h).symm⟩

theorem OnlyOtsError.error_of_eq {α β : Type} {r : Except Exc α} {e : Exc} (h : OnlyOtsError r)
    (he : r = .error e) : OnlyOtsError (.error e : Except Exc β) := by
  obtain ⟨text, rfl⟩ := h e he
  exact .otsError text

theorem OnlyOtsError.mapError {α : Type} {r : Except VerifyClaim.Exc α}
    (h : VerifyClaim.OnlyProofError r) : OnlyOtsError (r.mapError ofProofError) := by
  intro e he
  cases r with
  | ok a => exact nomatch he
  | error e' =>
      obtain ⟨text, rfl⟩ := h e' rfl
      exact ⟨text, (Except.error.inj he).symm⟩

theorem OnlyOtsError.map {α β : Type} {r : Except Exc α} (h : OnlyOtsError r) (f : α → β) :
    OnlyOtsError (r.map f) := by
  intro e he
  cases r with
  | ok a => exact nomatch he
  | error e' =>
      obtain ⟨text, rfl⟩ := h e' rfl
      exact ⟨text, (Except.error.inj he).symm⟩

theorem readVaruint_onlyOtsError (data : Bytes) : OnlyOtsError (readVaruint data) :=
  readVaruint_eq data ▸ .mapError (VerifyClaim.readVaruint_onlyProofError data)

theorem readVarbytes_onlyOtsError (data : Bytes) (maxLen minLen : Nat) :
    OnlyOtsError (readVarbytes data maxLen minLen) :=
  readVarbytes_eq data maxLen minLen ▸
    .mapError (VerifyClaim.readVarbytes_onlyProofError data maxLen minLen)

theorem readAttestation_onlyOtsError (data : Bytes) : OnlyOtsError (readAttestation data) := by
  rw [readAttestation_eq data [] []]
  exact (OnlyOtsError.mapError (VerifyClaim.readAttestation_onlyProofError data [] [])).map _

theorem readOperation_onlyOtsError (tag : UInt8) (data msg : Bytes) :
    OnlyOtsError (readOperation tag data msg) := by
  unfold readOperation
  split_ifs
  · exact .ok _
  · split
    · next h => exact (readVarbytes_onlyOtsError _ _ _).error_of_eq h
    · exact .ok _
  · split
    · next h => exact (readVarbytes_onlyOtsError _ _ _).error_of_eq h
    · exact .ok _
  · exact .otsError _

theorem parseStep_onlyOtsError (rest msg : Bytes) (ops : Nat) :
    OnlyOtsError (parseStep rest msg ops) := by
  unfold parseStep
  split
  · exact .otsError _
  next tag tail =>
    by_cases hmarker : tag = attestationMarker
    · rw [if_pos hmarker]
      split
      · next h => exact (readAttestation_onlyOtsError _).error_of_eq h
      · split_ifs
        · exact .otsError _
        · exact .ok _
    rw [if_neg hmarker]
    by_cases hfork : tag = forkMarker
    · rw [if_pos hfork]
      exact .otsError _
    rw [if_neg hfork]
    by_cases hmsg : msg.length > maxMsg
    · rw [if_pos hmsg]
      exact .otsError _
    rw [if_neg hmsg]
    split
    · next h => exact (readOperation_onlyOtsError _ _ _).error_of_eq h
    · split_ifs
      · exact .otsError _
      · exact .otsError _
      · exact .ok _

/-- An iteration that goes round has read a byte at least. -/
theorem parseStep_rest_lt {rest msg tail new : Bytes} {ops ops' : Nat}
    (h : parseStep rest msg ops = .ok (.again tail new ops')) : tail.length < rest.length := by
  obtain ⟨a, -, -, hnext⟩ | ⟨tail', new', path', hwalk, hnext⟩ := parseStep_cases h []
  · exact nomatch hnext
  · obtain ⟨rfl, -, -⟩ := Next.again.inj hnext
    exact VerifyClaim.walkStep_rest_lt hwalk

/-- The loop ends before its iterations run out. -/
theorem parseLoop_onlyOtsError (fuel : Nat) : ∀ {rest msg : Bytes} {ops : Nat}, rest.length < fuel →
    OnlyOtsError (parseLoop fuel rest msg ops) := by
  induction fuel with
  | zero => exact fun h => absurd h (Nat.not_lt_zero _)
  | succ fuel ih =>
      intro rest msg ops hlt
      rw [parseLoop]
      cases hstep : parseStep rest msg ops with
      | error e => exact (parseStep_onlyOtsError rest msg ops).error_of_eq hstep
      | ok next =>
          cases next with
          | done attestation marker commitment => exact .ok _
          | again tail new ops' =>
              have := parseStep_rest_lt hstep
              exact ih (by omega)

theorem parseHeader_onlyOtsError (data : Bytes) : OnlyOtsError (parseHeader data) := by
  unfold parseHeader
  split_ifs
  · exact .otsError _
  · split
    · next h => exact (readVaruint_onlyOtsError _).error_of_eq h
    · dsimp only
      split_ifs
      · exact .otsError _
      · exact .otsError _
      · exact .otsError _
      · exact .ok _

theorem parseOts_onlyOtsError (data : Bytes) : OnlyOtsError (parseOts data) := by
  unfold parseOts
  split
  · next h => exact (parseHeader_onlyOtsError data).error_of_eq h
  · split
    · next h => exact (parseLoop_onlyOtsError _ (Nat.lt_succ_self _)).error_of_eq h
    · exact .ok _

/-! ## The readers -/

/-- Both readers find the same digest and the same timestamp's bytes behind it. -/
theorem parseProof_eq (data : Bytes) {parsed : VerifyClaim.Parsed} :
    VerifyClaim.parseProof data = .ok parsed ↔
      ∃ digest body, parseHeader data = .ok (digest, body) ∧
        VerifyClaim.parseTimestamp digest body = .ok parsed := by
  rw [VerifyClaim.parseProof, parseHeader, readVaruint_eq, show VerifyClaim.magic = magic from rfl,
    show VerifyClaim.version = version from rfl, show VerifyClaim.opSha256 = opSha256 from rfl]
  split_ifs
  · simp
  · rcases VerifyClaim.readVaruint (data.drop magic.length) with e | ⟨v, rest⟩
    · simp [Except.mapError]
    · simp only [Except.mapError]
      split_ifs <;> simp

/-- A proof the linear reader takes is read by the other, and alike. -/
theorem parseProof_of_parseOts {data : Bytes} {proof : Proof} (h : parseOts data = .ok proof) :
    ∃ a : VerifyClaim.Attestation, VerifyClaim.parseProof data = .ok ⟨proof.digest, [a]⟩ ∧
      a.msg = proof.commitment ∧ ofAttestation a = proof.attestation := by
  unfold parseOts at h
  split at h
  · cases h
  next digest body hheader =>
    split at h
    · cases h
    next attestation marker commitment hloop =>
      obtain rfl := Except.ok.inj h
      obtain ⟨a, hwalk, hmsg, hatt⟩ := walk_of_parseLoop _ hloop []
      refine ⟨a, (parseProof_eq data).mpr ⟨digest, body, hheader, ?_⟩, hmsg, hatt⟩
      rw [VerifyClaim.parseTimestamp]
      rw [linearWalk] at hwalk
      rw [hwalk]
      rfl

/-- A proof with one attestation is one the linear reader takes. -/
theorem parseOts_of_parseProof {data : Bytes} {parsed : VerifyClaim.Parsed}
    (h : VerifyClaim.parseProof data = .ok parsed) (hone : parsed.attestations.length = 1) :
    ∃ proof, parseOts data = .ok proof := by
  obtain ⟨digest, body, hheader, htime⟩ := (parseProof_eq data).mp h
  unfold VerifyClaim.parseTimestamp at htime
  split at htime
  · exact nomatch htime
  next out rest hwalk =>
    split_ifs at htime with hrest
    obtain rfl := not_not.mp hrest
    obtain rfl := Except.ok.inj htime
    obtain ⟨a, rfl⟩ := List.length_eq_one_iff.mp hone
    obtain ⟨⟨attestation, marker, commitment⟩, hloop⟩ := parseLoop_of_walk _ hwalk
    exact ⟨_, by rw [parseOts, hheader]; dsimp only; rw [hloop]⟩

/-- The two readers of proofs agree on every byte string: the linear one takes exactly the
proofs without a fork marker, which are those with one attestation, and reads them alike.
A proof that only the other takes has two attestations or more. -/
theorem readers_agree (data : Bytes) :
    ((∃ proof, parseOts data = .ok proof) ↔
      ∃ parsed, VerifyClaim.parseProof data = .ok parsed ∧ VerifyClaim.IsLinearProof data parsed) ∧
    (∀ parsed, VerifyClaim.parseProof data = .ok parsed →
      (VerifyClaim.IsLinearProof data parsed ↔ parsed.attestations.length = 1)) ∧
    (∀ proof parsed, parseOts data = .ok proof → VerifyClaim.parseProof data = .ok parsed →
      parsed.digest = proof.digest ∧ ∃ a, parsed.attestations = [a] ∧
          a.msg = proof.commitment ∧ ofAttestation a = proof.attestation) ∧
    (∀ e, parseOts data = .error e → (∃ text, e = .otsError text) ∧
      ∀ parsed, VerifyClaim.parseProof data = .ok parsed → 2 ≤ parsed.attestations.length) := by
  have hlinear : ∀ parsed, VerifyClaim.parseProof data = .ok parsed →
      (VerifyClaim.IsLinearProof data parsed ↔ parsed.attestations.length = 1) :=
    fun parsed h => (VerifyClaim.parseProof_ok_iff.mp h).linear_iff
  refine ⟨⟨?_, ?_⟩, hlinear, ?_, ?_⟩
  · rintro ⟨proof, h⟩
    obtain ⟨a, hparse, -, -⟩ := parseProof_of_parseOts h
    exact ⟨_, hparse, (hlinear _ hparse).mpr rfl⟩
  · rintro ⟨parsed, hparse, h⟩
    exact parseOts_of_parseProof hparse ((hlinear parsed hparse).mp h)
  · intro proof parsed h hparse
    obtain ⟨a, hparse', hmsg, hatt⟩ := parseProof_of_parseOts h
    obtain rfl := Except.ok.inj (hparse.symm.trans hparse')
    exact ⟨rfl, a, rfl, hmsg, hatt⟩
  · intro e he
    refine ⟨parseOts_onlyOtsError data e he, fun parsed hparse => ?_⟩
    obtain ⟨v, body, t, -, -, -, -, hatt, -⟩ := VerifyClaim.parseProof_ok_iff.mp hparse
    have hpos := t.length_attestations_pos parsed.digest []
    rw [← hatt] at hpos
    by_contra hlt
    obtain ⟨proof, hok⟩ := parseOts_of_parseProof hparse (by omega)
    exact nomatch he.symm.trans hok

/-- No accepted byte string begins with another one. -/
def Delimits (accepted : Bytes → Prop) : Prop :=
  ∀ data data', accepted data → accepted data' → data <+: data' → data = data'

/-- A reader accepts no strict prefix and no strict extension of a proof that it accepts, however
its forks nest. -/
theorem proofs_delimit_themselves :
    Delimits (fun data => ∃ parsed, VerifyClaim.parseProof data = .ok parsed) ∧
    Delimits fun data => ∃ proof, parseOts data = .ok proof := by
  have hproof : Delimits fun data => ∃ parsed, VerifyClaim.parseProof data = .ok parsed := by
    rintro data _ ⟨parsed, h⟩ ⟨parsed', h'⟩ ⟨more, rfl⟩
    rw [VerifyClaim.parseProof_append h h', List.append_nil]
  refine ⟨hproof, ?_⟩
  rintro data data' ⟨proof, h⟩ ⟨proof', h'⟩ hle
  obtain ⟨a, h, -⟩ := parseProof_of_parseOts h
  obtain ⟨a', h', -⟩ := parseProof_of_parseOts h'
  exact hproof data data' ⟨_, h⟩ ⟨_, h'⟩ hle

/-- A proof of a digest of zeros, whose two attestations are pending at `http://a`. -/
def forked : Bytes :=
  magic ++ [0x01, 0x08] ++ List.replicate 32 0x00 ++ [0xff, 0x00] ++
    pendingTag ++ [0x09, 0x08, 0x68, 0x74, 0x74, 0x70, 0x3a, 0x2f, 0x2f, 0x61] ++
    [0x00] ++ pendingTag ++ [0x09, 0x08, 0x68, 0x74, 0x74, 0x70, 0x3a, 0x2f, 0x2f, 0x61]

theorem forked_cut_refused :
    ¬∃ parsed, VerifyClaim.parseProof (forked.take (forked.length - 19)) = .ok parsed := by
  intro hcut
  have hwhole : ∃ parsed, VerifyClaim.parseProof forked = .ok parsed := by
    let a : VerifyClaim.Attestation :=
      ⟨.pending, none, some ['h', 't', 't', 'p', ':', '/', '/', 'a'], List.replicate 32 0x00, []⟩
    exact ⟨⟨List.replicate 32 0x00, [a, a]⟩, by decide +kernel⟩
  have hsame := proofs_delimit_themselves.1 _ _ hcut hwhole (List.take_prefix ..)
  exact absurd (congrArg List.length hsame) (by decide +kernel)

end OtsServer.Selfstamp
