import OtsServer.Selfstamp.Readers

/-!
# What an upgrade keeps of a proof

`splice_upgrade` cuts a proof at its attestation and puts the calendar's answer there. The
bytes before the cut are read as before whatever follows them, so the path of the old proof
stands at the head of the new one's.
-/

namespace OtsServer.VerifyClaim

/-- A path leads from a message to one message only. -/
theorem Replays.unique {msg final final' : Bytes} {path : List Step} (h : Replays msg path final)
    (h' : Replays msg path final') : final = final' := by
  induction h generalizing final' with
  | nil msg =>
      cases h'
      rfl
  | cons o msg _ ih =>
      generalize hpath : o.step msg :: _ = path at h'
      cases h' with
      | nil => exact nomatch hpath
      | cons p _ hrest =>
          obtain ⟨hstep, rfl⟩ := List.cons.inj hpath
          have hresult : o.apply msg = p.apply msg := congrArg Step.result hstep
          exact ih (hresult ▸ hrest)

theorem Replays.split {msg final : Bytes} {path rest : List Step}
    (h : Replays msg (path ++ rest) final) :
    ∃ mid, Replays msg path mid ∧ Replays mid rest final := by
  induction path generalizing msg with
  | nil => exact ⟨msg, .nil msg, h⟩
  | cons s path ih =>
      generalize hpath : s :: path ++ rest = whole at h
      cases h with
      | nil => exact nomatch hpath
      | cons o msg hrest =>
          obtain ⟨rfl, rfl⟩ := List.cons.inj hpath
          obtain ⟨mid, hleft, hright⟩ := ih hrest
          exact ⟨mid, .cons o msg hleft, hright⟩

end OtsServer.VerifyClaim

namespace OtsServer.Selfstamp

/-- The header of a proof is read alike whatever follows it. -/
theorem parseHeader_split {data digest body : Bytes} (h : parseHeader data = .ok (digest, body)) :
    ∃ head, data = head ++ body ∧ digest.length = 32 ∧ ∀ tail,
      parseHeader (head ++ tail) = .ok (digest, tail) := by
  unfold parseHeader at h
  split_ifs at h with hmagic
  split at h
  · exact nomatch h
  next v rest hversion =>
    dsimp only at h
    split_ifs at h with hv hop hdigest
    obtain ⟨rfl, rfl⟩ := Prod.mk.inj (Except.ok.inj h)
    obtain rfl := not_not.mp hv
    have hfield : VerifyClaim.readVaruint (data.drop magic.length) = .ok (version, rest) := by
      rw [readVaruint_eq] at hversion
      cases hread : VerifyClaim.readVaruint (data.drop magic.length) with
      | error e =>
          rw [hread] at hversion
          exact nomatch hversion
      | ok r =>
          rw [hread] at hversion
          exact congrArg Except.ok (Except.ok.inj hversion)
    obtain ⟨field, hdata, hvar⟩ := VerifyClaim.readVaruint_ok_iff.mp hfield
    have hrest : rest = opSha256 :: rest.drop 1 := by
      cases rest with
      | nil => exact absurd (by exact fun h' => nomatch h') hop
      | cons b rest =>
          have := Option.some.inj (not_not.mp hop)
          rw [this]
          rfl
    refine ⟨magic ++ field ++ opSha256 :: (rest.drop 1).take 32, ?_, not_not.mp hdigest,
      fun tail => ?_⟩
    · conv_lhs => rw [← List.take_append_drop magic.length data, not_not.mp hmagic, hdata, hrest,
        ← List.take_append_drop 32 (rest.drop 1)]
      simp only [List.append_assoc, List.cons_append]
    · have hlen := not_not.mp hdigest
      have hagain : readVaruint (field ++ opSha256 :: ((rest.drop 1).take 32 ++ tail)) =
          .ok (version, opSha256 :: ((rest.drop 1).take 32 ++ tail)) := by
        rw [readVaruint_eq, VerifyClaim.readVaruint_ok_iff.mpr ⟨field, rfl, hvar⟩]
        rfl
      generalize (rest.drop 1).take 32 = digest at hlen hagain ⊢
      simp [parseHeader, List.append_assoc, hagain, hlen]

theorem parseStep_msg_le {rest msg tail new : Bytes} {ops ops' : Nat}
    (h : parseStep rest msg ops = .ok (.again tail new ops')) : msg.length ≤ maxMsg := by
  by_contra hmsg
  unfold parseStep at h
  split at h
  next => exact nomatch h
  next tag rest =>
    by_cases hmarker : tag = attestationMarker
    · rw [if_pos hmarker] at h
      split at h
      · exact nomatch h
      · split_ifs at h
        exact nomatch Except.ok.inj h
    rw [if_neg hmarker] at h
    by_cases hfork : tag = forkMarker
    · rw [if_pos hfork] at h
      exact nomatch h
    · rw [if_neg hfork, if_pos (not_le.mp hmsg)] at h
      exact nomatch h

/-- An operation is read alike whatever follows it. -/
theorem walkStep_of_parseStep {rest msg tail new : Bytes} {ops ops' : Nat}
    (h : parseStep rest msg ops = .ok (.again tail new ops')) (path : List VerifyClaim.Step) :
    ∃ bs path', rest = bs ++ tail ∧ ∀ x, VerifyClaim.walkStep (linearWalk (bs ++ x) msg path ops) =
      .ok (.again (linearWalk x new path' ops')) := by
  obtain ⟨a, -, -, hnext⟩ | ⟨tail', new', path', hwalk, hnext⟩ := parseStep_cases h path
  · exact nomatch hnext
  obtain ⟨rfl, rfl, rfl⟩ := Next.again.inj hnext
  obtain ⟨_, -, -, hagain⟩ | ⟨n, bs, rest', -, -, hagain⟩ | ⟨o, bs, rest', hrest,
      henc, hnew, hops, hagain⟩ :=
    VerifyClaim.walkStep_cases hwalk
  · exact nomatch congrArg VerifyClaim.Walk.afterFork (VerifyClaim.Walk.Next.again.inj hagain)
  · exact nomatch hagain
  · obtain ⟨rfl, rfl, rfl, -⟩ := VerifyClaim.Walk.mk.inj (VerifyClaim.Walk.Next.again.inj hagain)
    refine ⟨bs, path ++ [o.step msg], hrest, fun x => ?_⟩
    exact VerifyClaim.walkStep_op rfl henc (parseStep_msg_le h) hnew hops

/-- The bytes before the attestation lead, whatever follows them, to the place of the
attestation. -/
theorem walk_of_operations (fuel : Nat) :
    ∀ {rest msg : Bytes} {ops : Nat} {attestation : Attestation} {marker commitment : Bytes},
      parseLoop fuel rest msg ops = .ok (attestation, marker, commitment) →
    ∀ path, ∃ pre path' ops', rest = pre ++ marker ∧
      (∀ n out, VerifyClaim.walk n (linearWalk marker commitment path' ops') = .ok (out, []) →
        ∃ a : VerifyClaim.Attestation, out = [a] ∧ a.path = path') ∧
      ∀ n tail out, VerifyClaim.walk n (linearWalk (pre ++ tail) msg path ops) = .ok (out, []) →
        ∃ m, VerifyClaim.walk m (linearWalk tail commitment path' ops') = .ok (out, []) := by
  induction fuel with
  | zero =>
      intro rest msg ops attestation marker commitment h
      cases h
  | succ fuel ih =>
      intro rest msg ops attestation marker commitment h path
      rw [parseLoop] at h
      cases hstep : parseStep rest msg ops with
      | error e =>
          rw [hstep] at h
          cases h
      | ok next =>
          rw [hstep] at h
          cases next with
          | done att rest' msg' =>
              obtain ⟨a, hwalk, -, hnext⟩ | ⟨_, _, _, -, hnext⟩ := parseStep_cases hstep path
              · obtain ⟨-, rfl, rfl⟩ : _ = attestation ∧ _ = marker ∧ _ = commitment := by
                  simpa only [Except.ok.injEq, Prod.mk.injEq] using h
                obtain ⟨-, rfl, rfl⟩ := Next.done.inj hnext
                refine ⟨[], path, ops, rfl, fun n out hn => ?_, fun n tail out hn => ⟨n, hn⟩⟩
                cases n with
                | zero => cases hn
                | succ n =>
                    rw [VerifyClaim.walk, hwalk] at hn
                    obtain ⟨rfl, -⟩ := Prod.mk.inj (Except.ok.inj hn)
                    obtain ⟨_, -, -, hdone⟩ | ⟨n, bs, tail, -, -, hdone⟩ | ⟨o,
                        bs, tail, -, -, -, -, hdone⟩ :=
                      VerifyClaim.walkStep_cases hwalk
                    · cases hdone
                    · obtain ⟨ha, -⟩ := VerifyClaim.Walk.Next.done.inj hdone
                      obtain rfl := List.singleton_inj.mp ha
                      exact ⟨_, rfl, VerifyClaim.Notary.attestation_path n _ _⟩
                    · cases hdone
              · cases hnext
          | again tail new ops₁ =>
              obtain ⟨bs, path₁, hrest, hwalk⟩ := walkStep_of_parseStep hstep path
              obtain ⟨pre, path', ops', htail, hdone, hgo⟩ := ih h path₁
              refine ⟨bs ++ pre, path', ops', by rw [hrest, htail, List.append_assoc],
                hdone, fun n tail' out hn => ?_⟩
              cases n with
              | zero => cases hn
              | succ n =>
                  rw [VerifyClaim.walk, List.append_assoc, hwalk] at hn
                  exact hgo n tail' out hn

/-- A walk that ends with one attestation only carries its path on. -/
theorem path_prefix_of_walk (fuel : Nat) :
    ∀ {rest msg : Bytes} {path : List VerifyClaim.Step} {ops : Nat} {a : VerifyClaim.Attestation},
      VerifyClaim.walk fuel (linearWalk rest msg path ops) = .ok ([a], []) → path <+: a.path := by
  induction fuel with
  | zero =>
      intro rest msg path ops a h
      cases h
  | succ fuel ih =>
      intro rest msg path ops a h
      rw [VerifyClaim.walk] at h
      cases hstep : VerifyClaim.walkStep (linearWalk rest msg path ops) with
      | error e =>
          rw [hstep] at h
          cases h
      | ok next =>
          rw [hstep] at h
          obtain ⟨tail, -, -, rfl⟩ | ⟨n, bs, tail, -, -, rfl⟩ | ⟨o, bs, tail, -, -, -, -, rfl⟩ :=
            VerifyClaim.walkStep_cases hstep
          · have := length_of_walk fuel h
            simp only [List.length_cons, List.length_nil] at this
            omega
          · obtain ⟨ha, -⟩ := Prod.mk.inj (Except.ok.inj h)
            obtain rfl := List.singleton_inj.mp ha
            rw [VerifyClaim.Notary.attestation_path]
            exact List.prefix_refl path
          · exact (List.prefix_append path _).trans (ih h)

/-- The path of the linear proof `new` carries the path of `old` on: it leads first to the
message that `old` is about, and from there to its own. -/
def Extends (old new : Bytes) : Prop :=
  ∃ (digest : Bytes) (a a' : VerifyClaim.Attestation) (rest : List VerifyClaim.Step),
    VerifyClaim.parseProof old = .ok ⟨digest, [a]⟩ ∧
      VerifyClaim.parseProof new = .ok ⟨digest, [a']⟩ ∧
    a'.path = a.path ++ rest ∧ VerifyClaim.Replays digest a.path a.msg ∧
      VerifyClaim.Replays a.msg rest a'.msg

theorem replays_of_parseProof {data digest : Bytes} {a : VerifyClaim.Attestation}
    (h : VerifyClaim.parseProof data = .ok ⟨digest, [a]⟩) :
    VerifyClaim.Replays digest a.path a.msg := by
  obtain ⟨v, body, t, -, -, -, -, hatt, -⟩ := VerifyClaim.parseProof_ok_iff.mp h
  exact t.attestations_replay (.nil digest) a (hatt ▸ List.mem_singleton_self a)

/-- A proof cut at its attestation and gone on with otherwise carries the path on. -/
theorem extends_of_cut {ots response : Bytes} {old new : Proof} (hold : parseOts ots = .ok old)
    (hnew : parseOts (ots.take old.opsEnd ++ response) = .ok new) :
    Extends ots (ots.take old.opsEnd ++ response) := by
  obtain ⟨a, hparse, -, -⟩ := parseProof_of_parseOts hold
  obtain ⟨a', hparse', -, -⟩ := parseProof_of_parseOts hnew
  unfold parseOts at hold
  split at hold
  · exact nomatch hold
  next digest body hheader =>
    split at hold
    · exact nomatch hold
    next attestation marker commitment hloop =>
      obtain rfl := Except.ok.inj hold
      obtain ⟨head, rfl, -, hhead⟩ := parseHeader_split hheader
      obtain ⟨pre, path, ops, rfl, hdone, hgo⟩ := walk_of_operations _ hloop []
      have hcut : (head ++ (pre ++ marker)).take
          ((head ++ (pre ++ marker)).length - marker.length) = head ++ pre := by
        rw [← List.append_assoc]
        exact List.take_left' (by simp only [List.length_append]; omega)
      dsimp only at hparse' ⊢
      rw [hcut, List.append_assoc] at hparse' ⊢
      -- both proofs are read by one walk up to the cut
      have hread : ∀ {tail : Bytes} {b : VerifyClaim.Attestation} {d : Bytes},
          VerifyClaim.parseProof (head ++ (pre ++ tail)) = .ok ⟨d, [b]⟩ →
          d = digest ∧ ∃ m, VerifyClaim.walk m (linearWalk tail commitment path ops) =
              .ok ([b], []) := by
        intro tail b d h
        obtain ⟨digest', body', hheader', htime⟩ := (parseProof_eq _).mp h
        rw [hhead] at hheader'
        obtain ⟨rfl, rfl⟩ := Prod.mk.inj (Except.ok.inj hheader')
        unfold VerifyClaim.parseTimestamp at htime
        split at htime
        · exact nomatch htime
        next out rest hwalk =>
          split_ifs at htime with hrest
          obtain rfl := not_not.mp hrest
          obtain ⟨rfl, rfl⟩ := VerifyClaim.Parsed.mk.inj (Except.ok.inj htime)
          exact ⟨rfl, hgo _ _ _ hwalk⟩
      obtain ⟨-, m, hwalk⟩ := hread hparse
      obtain ⟨hdigest, m', hwalk'⟩ := hread hparse'
      obtain ⟨b, hb, rfl⟩ := hdone _ _ hwalk
      obtain rfl := List.singleton_inj.mp hb
      obtain ⟨rest, hrest⟩ := path_prefix_of_walk m' hwalk'
      rw [hdigest] at hparse'
      obtain ⟨mid, hleft, hright⟩ :=
        (hrest.symm ▸ replays_of_parseProof hparse' : VerifyClaim.Replays digest _ _).split
      have hmid := (replays_of_parseProof hparse).unique hleft
      exact ⟨digest, a, a', rest, hparse, hparse', hrest.symm, replays_of_parseProof hparse,
        hmid ▸ hright⟩

/-- An upgrade that is not refused carries a pending proof on to a Bitcoin attestation of the same
digest. -/
theorem spliceUpgrade_ok {ots response upgraded : Bytes}
    (h : spliceUpgrade ots response = .ok upgraded) :
    ∃ old new uri height, parseOts ots = .ok old ∧
      old.attestation = .pending uri ∧ parseOts upgraded = .ok new ∧
      new.attestation = .bitcoin height ∧ new.digest = old.digest ∧ Extends ots upgraded := by
  unfold spliceUpgrade at h
  split at h
  · exact nomatch h
  next old hold =>
    split at h
    next uri huri =>
      dsimp only at h
      split at h
      · exact nomatch h
      next new hnew =>
        split at h
        next height hheight =>
          split_ifs at h with hdigest
          obtain rfl := Except.ok.inj h
          exact ⟨old, new, uri, height, hold, huri, hnew, hheight, not_not.mp hdigest,
            extends_of_cut hold hnew⟩
        · exact nomatch h
    · exact nomatch h

theorem buildOts_ok {digest response ots : Bytes} (h : buildOts digest response = .ok ots) :
    ∃ proof, parseOts ots = .ok proof ∧ proof.digest = digest := by
  unfold buildOts at h
  dsimp only at h
  split at h
  · exact nomatch h
  next proof hparse =>
    split_ifs at h with hdigest
    obtain rfl := Except.ok.inj h
    exact ⟨proof, hparse, not_not.mp hdigest⟩

end OtsServer.Selfstamp
