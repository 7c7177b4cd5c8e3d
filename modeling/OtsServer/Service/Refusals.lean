import Mathlib.Algebra.Order.Floor.Ring
import Mathlib.Algebra.Order.Archimedean.Basic
import OtsServer.Service.Json
import OtsServer.Service.Pass

/-!
# Refused anchors

The versions of an anchor that one sending loop builds, each after the node refused the one before
it for too low a fee. All are made from one transaction, so that what they pay depends on the
feerate alone; the loop ends once it takes the whole change output.
-/

namespace OtsServer.Service

variable {env : Env} {prev : Tx} {tip : Bytes} {feerate next : ℚ} {w : World}

/-! ## Versions -/

theorem truncate_mono {p q : ℚ} (h : p ≤ q) : truncate p ≤ truncate q := by
  unfold truncate
  split_ifs with hp hq hq
  · exact Int.ceil_mono h
  · exact (Int.ceil_nonpos.mpr hp.le).trans (Int.floor_nonneg.mpr (not_lt.mp hq))
  · exact absurd (h.trans_lt hq) hp
  · exact Int.floor_mono h

/-- `delta_fee`: what a version at a feerate takes from the change output. -/
def deltaFee (lib : Lib) (old : Tx) (feerate : ℚ) : Int :=
  truncate ((((lib.serialize old).length * 3 + lib.totalSize old + 3 : Nat) : ℚ) / 4 * feerate)

theorem deltaFee_mono (lib : Lib) (old : Tx) {p q : ℚ} (h : p ≤ q) :
    deltaFee lib old p ≤ deltaFee lib old q := by
  apply truncate_mono
  exact mul_le_mul_of_nonneg_left h (by positivity)

/-- A growing feerate comes to take any amount. -/
theorem exists_deltaFee_ge (lib : Lib) (old : Tx) (hnext : 0 < next) (amount : Int) :
    ∃ k : Nat, amount ≤ deltaFee lib old (next * (5 / 4) ^ k) := by
  obtain ⟨k, hk⟩ :=
    pow_unbounded_of_one_lt ((amount : ℚ) / (3 / 4 * next)) (show (1 : ℚ) < 5 / 4 by norm_num)
  refine ⟨k, ?_⟩
  have hsize : (3 : ℚ) / 4 ≤
      (((lib.serialize old).length * 3 + lib.totalSize old + 3 : Nat) : ℚ) / 4 := by
    push_cast
    have hlength : (0 : ℚ) ≤ (lib.serialize old).length := Nat.cast_nonneg _
    have htotal : (0 : ℚ) ≤ lib.totalSize old := Nat.cast_nonneg _
    linarith
  have hrate : 0 < next * (5 / 4 : ℚ) ^ k := by positivity
  have hlarge : (amount : ℚ) ≤ (((lib.serialize old).length * 3 + lib.totalSize old + 3 : Nat) :
        ℚ) / 4 * (next * (5 / 4) ^ k) := by
    calc (amount : ℚ) ≤ (5 / 4) ^ k * (3 / 4 * next) := ((div_lt_iff₀ (by positivity)).mp hk).le
      _ = 3 / 4 * (next * (5 / 4) ^ k) := by ring
      _ ≤ _ := mul_le_mul_of_nonneg_right hsize hrate.le
  rw [deltaFee, truncate, if_neg (not_lt.mpr (by positivity))]
  exact Int.le_floor.mpr hlarge

/-- What a transaction pays, by the values of the outputs it spends. -/
def Tx.fee (value : OutPoint → Int) (tx : Tx) : Int :=
  (tx.vin.map fun i => value i.prevout).sum - (tx.vout.map (·.nValue)).sum

/-- What is left of a change output: nothing, once it would be dust. -/
def leftOver (change delta : Int) : Int := if change - delta > dust then change - delta else 0

theorem leftOver_mono {change a b : Int} (h : a ≤ b) : leftOver change b ≤ leftOver change a := by
  unfold leftOver dust
  split_ifs <;> omega

/-- `__update_timestamp_tx`, for a transaction with a change output. -/
theorem updateTimestampTx_eq {lib : Lib} {change : TxOut}
    {rest : List TxOut} (hvout : prev.vout = change :: rest)
    {height : Int} {tx : Tx} (h : updateTimestampTx lib prev tip height feerate = .ok tx) :
    tx.vin = prev.vin ∧
      (tx.vout.map (·.nValue)).sum = leftOver change.nValue (deltaFee lib prev feerate) ∧
      (tx.vout.length ≠ 1 ↔ dust < change.nValue - deltaFee lib prev feerate) := by
  rw [updateTimestampTx, hvout] at h
  obtain rfl := Except.ok.inj h
  refine ⟨rfl, ?_, ?_⟩
  · change ((ite (change.nValue - deltaFee lib prev feerate > dust) _ _ : List TxOut).map _).sum = _
    unfold leftOver
    split_ifs <;> simp [deltaFee]
  · change (ite (change.nValue - deltaFee lib prev feerate > dust) _ _ : List TxOut).length ≠ 1 ↔ _
    split_ifs with hdust
    · exact ⟨fun _ => hdust, fun _ => by simp⟩
    · exact ⟨fun h => absurd rfl h, fun h => absurd h hdust⟩

/-- A version pays by its feerate alone. -/
theorem fee_updateTimestampTx {lib : Lib} {change : TxOut} {rest : List TxOut}
    (hvout : prev.vout = change :: rest) {height : Int} {tx : Tx}
    (h : updateTimestampTx lib prev tip height feerate = .ok tx) (value : OutPoint → Int) :
    tx.fee value = (prev.vin.map fun i => value i.prevout).sum - leftOver change.nValue
      (deltaFee lib prev feerate) := by
  obtain ⟨hvin, hvout, -⟩ := updateTimestampTx_eq hvout h
  rw [Tx.fee, hvin, hvout]

/-! ## Rounds -/

/-- A node that takes a version does not let the loop go on; one that refuses it does, when its fee
can rise. -/
theorem inl_of_sending {unsigned signed : Tx} {fee : Int} {attempt : OutPoint × Int × Option Bytes}
    {rate : ℚ} {u : World}
    (h : Prog.handle (do
        ask fun n => env.sendrawtransaction n signed
        pure (.inr (some (signed, fee))))
      (fun
        | .rpcError (-26) => some (refused unsigned attempt next)
        | _ => none) w = (.ok (.inl rate), u)) :
    unsigned.vout.length ≠ 1 ∧ rate = next * (5 / 4) := by
  have hwp : Prog.wp (Prog.handle (do
        ask fun n => env.sendrawtransaction n signed
        pure (.inr (some (signed, fee))))
      (fun
        | .rpcError (-26) => some (refused unsigned attempt next)
        | _ => none))
      (fun r _ => ∀ rate, r = Sum.inl rate → unsigned.vout.length ≠ 1 ∧ rate = next * (5 / 4))
          (fun _ _ => True) w := by
    rw [Prog.wp_handle, Prog.wp_bind]
    unfold Prog.wp
    dsimp only [ask]
    cases env.sendrawtransaction w.tick signed with
    | ok _ => exact fun rate hrate => nomatch hrate
    | error e =>
        dsimp only
        split
        next n hn =>
          split at hn
          · obtain rfl := Option.some.inj hn
            unfold refused
            split_ifs with hlone
            · exact fun rate hrate => nomatch hrate
            · exact fun rate hrate => ⟨hlone, (Sum.inl.inj hrate).symm⟩
          · exact nomatch hn
        next => trivial
  rw [Prog.wp, h] at hwp
  exact hwp rate rfl

/-- A round after which the loop goes on: the version it built leaves a change output, and the
feerate grows. -/
theorem trySend_inl {rate : ℚ} {u : World}
    (h : trySend env prev tip feerate next w = (.ok (.inl rate), u)) :
    ∃ height tx, env.getblockcount w.tick = .ok height ∧
      updateTimestampTx env.lib prev tip height feerate = .ok tx ∧
      tx.vout.length ≠ 1 ∧ rate = next * (5 / 4) := by
  obtain ⟨height, w₁, hheight, h⟩ := Prog.exists_of_bind_ok h
  obtain ⟨tx, w₂, htx, h⟩ := Prog.exists_of_bind_ok h
  refine ⟨height, tx, (Prod.mk.inj hheight).1, ?_, ?_⟩
  · cases hupdate : updateTimestampTx env.lib prev tip height feerate with
    | error e =>
        rw [hupdate] at htx
        exact nomatch (Prod.mk.inj htx).1
    | ok built =>
        rw [hupdate] at htx
        exact congrArg Except.ok (Except.ok.inj (Prod.mk.inj htx).1)
  obtain ⟨fee, w₃, hfee, h⟩ := Prog.exists_of_bind_ok h
  cases fee with
  | none => exact nomatch (Prod.mk.inj h).1
  | some fee =>
      obtain ⟨s, w₄, hs, h⟩ := Prog.exists_of_bind_ok h
      dsimp only at h
      split_ifs at h with hmax
      · exact nomatch (Prod.mk.inj h).1
      cases hvin : tx.vin.head? with
      | none =>
          rw [hvin] at h
          exact nomatch (Prod.mk.inj h).1
      | some txin =>
          rw [hvin] at h
          dsimp only at h
          split_ifs at h with hsame
          · exact nomatch (Prod.mk.inj h).1
          obtain ⟨⟨complete, signed⟩, w₅, hsign, h⟩ := Prog.exists_of_bind_ok h
          dsimp only at h
          split_ifs at h with hcomplete
          · exact inl_of_sending h
          · exact nomatch (Prod.mk.inj h).1

/-- The versions of at most `rounds` rounds, from one at `feerate` on; `next` is what a refusal of
that one raises. -/
def built (env : Env) (prev : Tx) (tip : Bytes) : Nat → ℚ → ℚ → World → List Tx
  | 0, _, _, _ => []
  | rounds + 1, feerate, next, w =>
      match env.getblockcount w.tick with
      | .error _ => []
      | .ok height =>
          match updateTimestampTx env.lib prev tip height feerate with
          | .error _ => []
          | .ok tx =>
              tx :: match trySend env prev tip feerate next w with
                | (.ok (.inl rate), u) => built env prev tip rounds rate rate u
                | _ => []

theorem built_succ {rounds : Nat} {height : Int}
    {tx : Tx} (hheight : env.getblockcount w.tick = .ok height)
    (htx : updateTimestampTx env.lib prev tip height feerate = .ok tx) :
    built env prev tip (rounds + 1) feerate next w =
      tx :: match trySend env prev tip feerate next w with
        | (.ok (.inl rate), u) => built env prev tip rounds rate rate u
        | _ => [] := by
  rw [built, hheight]
  dsimp only
  rw [htx]

/-- The first version of some rounds is built at the feerate they start from; others follow, from
the raised feerate on, only when it leaves a change output. -/
theorem built_cons {rounds : Nat} {tx : Tx} {txs : List Tx}
    (h : built env prev tip rounds feerate next w = tx :: txs) :
    (∃ height, updateTimestampTx env.lib prev tip height feerate = .ok tx) ∧
      (txs = [] ∨ tx.vout.length ≠ 1 ∧
        ∃ rounds u, built env prev tip rounds (next * (5 / 4)) (next * (5 / 4)) u = txs) := by
  cases rounds with
  | zero => exact nomatch h
  | succ rounds =>
      rw [built] at h
      cases hheight : env.getblockcount w.tick with
      | error e =>
          rw [hheight] at h
          exact nomatch h
      | ok height =>
          rw [hheight] at h
          dsimp only at h
          cases htx : updateTimestampTx env.lib prev tip height feerate with
          | error e =>
              rw [htx] at h
              exact nomatch h
          | ok first =>
              rw [htx] at h
              obtain ⟨rfl, hrest⟩ := List.cons.inj h
              refine ⟨⟨height, htx⟩, ?_⟩
              split at hrest
              next rate u hround =>
                obtain ⟨height', first', hheight', htx', hchange, rfl⟩ := trySend_inl hround
                obtain rfl : height' = height := Except.ok.inj (hheight'.symm.trans hheight)
                obtain rfl : first' = first := Except.ok.inj (htx'.symm.trans htx)
                exact .inr ⟨hchange, rounds, u, hrest⟩
              next => exact .inl hrest.symm

/-- Where the first version's share of the change is not above that of the feerate a refusal raises,
or it leaves no change, no version pays less than the one before it. -/
theorem fee_le_of_built {change : TxOut} {rest : List TxOut}
    (hvout : prev.vout = change :: rest) (hnext : 0 < next)
    (hrise : deltaFee env.lib prev feerate ≤ deltaFee env.lib prev (next * (5 / 4)) ∨
      change.nValue - deltaFee env.lib prev feerate ≤ dust) (value : OutPoint → Int)
    (rounds : Nat) :
    (built env prev tip rounds feerate next w).IsChain fun a b => a.fee value ≤ b.fee value := by
  generalize htxs : built env prev tip rounds feerate next w = txs
  induction txs generalizing rounds feerate next w with
  | nil => exact .nil
  | cons tx txs ih =>
      cases txs with
      | nil => exact .singleton _
      | cons tx' txs =>
          obtain ⟨⟨height, htx⟩, hnone | ⟨hchange, rounds', u, hrest⟩⟩ := built_cons htxs
          · exact nomatch hnone
          have hraised : 0 < next * (5 / 4) := by positivity
          have hgrows : next * (5 / 4) ≤ next * (5 / 4) * (5 / 4) := by linarith
          have htail := ih hraised (.inl (deltaFee_mono env.lib prev hgrows)) rounds' hrest
          refine .cons_cons ?_ htail
          have hkept := (updateTimestampTx_eq hvout htx).2.2.mp hchange
          have hdelta := hrise.resolve_right (not_le.mpr hkept)
          obtain ⟨⟨height', htx'⟩, -⟩ := built_cons hrest
          rw [fee_updateTimestampTx hvout htx, fee_updateTimestampTx hvout htx']
          exact sub_le_sub_left (leftOver_mono hdelta) _

/-! ## Surroundings that refuse -/

/-- The values that the node gives for a transaction's inputs, one call after the other. -/
def inputValue (values : Nat → OutPoint → Int) : Nat → List TxIn → Int
  | _, [] => 0
  | n, i :: rest => values n i.prevout + inputValue values (n + 1) rest

theorem inputValue_const (value : OutPoint → Int) (n : Nat) (vin : List TxIn) :
    inputValue (fun _ => value) n vin = (vin.map fun i => value i.prevout).sum := by
  induction vin generalizing n with
  | nil => rfl
  | cons i rest ih => rw [inputValue, ih, List.map_cons, List.sum_cons]

/-- `_get_tx_fee`, where the node knows every input. -/
theorem getTxFee_eq {values : Nat → OutPoint → Int} (h : ∀ n p, env.gettxout n p = .ok (values n p))
    (tx : Tx) (w : World) :
    getTxFee env tx w =
      (.ok (some (inputValue values w.tick tx.vin - (tx.vout.map (·.nValue)).sum)),
        { w with tick := w.tick + tx.vin.length }) := by
  have hloop (round : List TxIn × Int → M (List TxIn × Int ⊕ Int)) (hend : ∀ total,
        round ([], total) = pure (.inr total)) (hround : ∀ i vin total, round (i :: vin, total) = do
        let value ← ask fun n => env.gettxout n i.prevout
        pure (.inl (vin, total + value))) (vin : List TxIn) : ∀ (total : Int) (w : World),
      Prog.loop round (fun r => pure r.2) (vin.length + 1) (vin, total) w =
        (.ok (total + inputValue values w.tick vin), { w with tick := w.tick + vin.length }) := by
    induction vin with
    | nil =>
        intro total w
        refine (Prog.loop_of_inr (by rw [hend]; rfl)).trans ?_
        exact Prod.ext (congrArg Except.ok (add_zero total).symm) rfl
    | cons i vin ih =>
        intro total w
        have hask : ask (fun n => env.gettxout n i.prevout) w =
            (.ok (values w.tick i.prevout), { w with tick := w.tick + 1 }) := by
          rw [ask, h]
        have hvalue : round (i :: vin, total) w =
            (.ok (.inl (vin, total + values w.tick i.prevout)), { w with tick := w.tick + 1 }) := by
          rw [hround]
          exact Prog.bind_of_ok hask
        refine (Prog.loop_of_inl hvalue).trans
          ((ih _ _).trans (Prod.ext (congrArg Except.ok ?_) ?_))
        · change total + values w.tick i.prevout + _ = total + (values w.tick i.prevout + _)
          ring
        · simp only [List.length_cons, add_assoc, add_comm 1]
  rw [getTxFee]
  refine Prog.handle_of_ok ((Prog.bind_of_ok (hloop _ ?_ ?_ tx.vin 0 w)).trans ?_)
  · exact fun _ => rfl
  · exact fun _ _ _ => rfl
  · rw [zero_add]
    rfl

/-- A node and a wallet that answer: the transactions' inputs are known, they are signed, and a
transaction is taken or refused for too low a fee. -/
structure Env.Answers (env : Env) (values : Nat → OutPoint → Int) : Prop where
  height : ∀ n, ∃ height, env.getblockcount n = .ok height
  value : ∀ n p, env.gettxout n p = .ok (values n p)
  signs : ∀ n tx, ∃ signed, env.signrawtransactionwithwallet n tx = .ok (true, signed)
  sends : ∀ n tx, env.sendrawtransaction n tx = .ok () ∨
    env.sendrawtransaction n tx = .error (.rpcError (-26))

/-- The attempt that a refused version is remembered by. -/
def attemptOf (s : Stamper) (txin : TxIn) (fee : Int) : OutPoint × Int × Option Bytes :=
  (txin.prevout, fee, bestBlockHash s)

/-- How the loop ends with a version that pays `fee`, from a process `s` to one `t`: it was sent,
its fee is above the cap, or it is remembered as refused, now that it leaves no change or from an
earlier pass. -/
def EndsWith (env : Env) (txin : TxIn) (tx : Tx) (fee : Int) (s t : Stamper) :
    Option (Tx × Int) → Prop
  | some (signed, paid) => paid = fee ∧ ∃ n, env.sendrawtransaction n signed = .ok ()
  | none => s.config.maxFee < fee ∨
      t.refusedAnchor = some (attemptOf s txin fee) ∧
        (tx.vout.length = 1 ∨ s.refusedAnchor = some (attemptOf s txin fee))

/-- How a round ends: the loop goes on from a version that leaves change, or ends with it. -/
def RoundEnds (env : Env) (txin : TxIn) (tx : Tx) (fee : Int) (next : ℚ) (s t : Stamper) :
    ℚ ⊕ Option (Tx × Int) → Prop
  | .inl rate => tx.vout.length ≠ 1 ∧ rate = next * (5 / 4) ∧ t = s
  | .inr sent => EndsWith env txin tx fee s t sent

/-- A round, where the surroundings answer. -/
theorem trySend_ends {values : Nat → OutPoint → Int} (h : env.Answers values) {txin : TxIn}
    {vin : List TxIn} {change : TxOut} {rest : List TxOut} (hvin : prev.vin = txin :: vin)
    (hvout : prev.vout = change :: rest) (tip : Bytes) (feerate next : ℚ) (w : World) :
    ∃ height tx r u, env.getblockcount w.tick = .ok height ∧
      updateTimestampTx env.lib prev tip height feerate = .ok tx ∧
      trySend env prev tip feerate next w = (.ok r, u) ∧
      RoundEnds env txin tx (inputValue values (w.tick + 1) tx.vin - (tx.vout.map (·.nValue)).sum)
        next w.stamper u.stamper r := by
  obtain ⟨height, hheight⟩ := h.height w.tick
  obtain ⟨tx, htx⟩ : ∃ tx, updateTimestampTx env.lib prev tip height feerate = .ok tx := by
    rw [updateTimestampTx, hvout]
    exact ⟨_, rfl⟩
  have hhead : tx.vin.head? = some txin := by
    rw [(updateTimestampTx_eq hvout htx).1, hvin, List.head?_cons]
  generalize hfee : inputValue values (w.tick + 1) tx.vin - (tx.vout.map (·.nValue)).sum = fee
  have hwp : Prog.wp (trySend env prev tip feerate next)
      (fun r u => RoundEnds env txin tx fee next w.stamper u.stamper r) (fun _ _ => False) w := by
    rw [trySend, Prog.wp_bind]
    refine Prog.wp_of_ok (a := height) (t := { w with tick := w.tick + 1 })
      (by rw [ask, hheight]) ?_
    rw [Prog.wp_bind, htx]
    refine Prog.wp_of_ok (a := tx) (t := { w with tick := w.tick + 1 }) rfl ?_
    rw [Prog.wp_bind]
    refine Prog.wp_of_ok (getTxFee_eq h.value tx _) ?_
    simp only [hfee, Prog.wp_bind, Prog.wp_gets, Prog.wp_ite, hhead]
    refine ⟨fun hmax => .inl hmax, fun hmax =>
      ⟨fun hsame => .inr ⟨hsame, .inr hsame⟩, fun hsame => ?_⟩⟩
    obtain ⟨signed, hsigned⟩ := h.signs (w.tick + 1 + tx.vin.length) tx
    refine Prog.wp_of_ok (a := (true, signed))
      (t := { w with tick := w.tick + 1 + tx.vin.length + 1 }) (by rw [ask, hsigned]) ?_
    refine (Prog.wp_ite ..).mpr ⟨fun hnot => absurd rfl hnot, fun _ => ?_⟩
    rw [Prog.wp_handle, Prog.wp_bind]
    obtain hsend | hsend := h.sends (w.tick + 1 + tx.vin.length + 1) signed
    · exact Prog.wp_of_ok (a := ()) (by rw [ask, hsend]) ⟨rfl, _, hsend⟩
    · refine Prog.wp_of_error (e := .rpcError (-26))
        (t := { w with tick := w.tick + 1 + tx.vin.length + 1 + 1 }) (by rw [ask, hsend]) ?_
      change Prog.wp (refused _ _ _) _ _ _
      unfold refused
      split_ifs with hlone
      · exact .inr ⟨rfl, .inl hlone⟩
      · exact ⟨hlone, rfl, rfl⟩
  unfold Prog.wp at hwp
  rcases hrun : trySend env prev tip feerate next w with ⟨e | r, u⟩
  · rw [hrun] at hwp
    exact hwp.elim
  · rw [hrun] at hwp
    subst hfee
    exact ⟨height, tx, r, u, hheight, htx, rfl, hwp⟩

/-! ## Fees -/

/-- A node that knows every output, at no value, and refuses every transaction; a wallet that
signs. -/
def Env.refusing (lib : Lib) : Env :=
  { Env.quiet lib with
    gettxout := fun _ _ => .ok 0
    signrawtransactionwithwallet := fun _ tx => .ok (true, tx)
    sendrawtransaction := fun _ _ => .error (.rpcError (-26)) }

theorem refusing_answers (lib : Lib) : (Env.refusing lib).Answers fun _ _ => 0 where
  height _ := ⟨0, rfl⟩
  value _ _ := rfl
  signs _ tx := ⟨tx, rfl⟩
  sends _ _ := .inr rfl

/-- A process with an empty directory at a relay feerate. -/
def World.atRelay (relay : ℚ) : World := .empty { Config.standard false with relayFeerate := relay }

/-- A version with a change output is refused by that node, and the feerate raised. -/
theorem trySend_refusing {lib : Lib} {txin : TxIn} {vin : List TxIn} {change : TxOut}
    {rest : List TxOut} (hvin : prev.vin = txin :: vin) (hvout : prev.vout = change :: rest)
    (hkept : dust < change.nValue - deltaFee lib prev feerate) (relay : ℚ) :
    ∃ u, trySend (.refusing lib) prev tip feerate next (.atRelay relay) =
      (.ok (.inl (next * (5 / 4))), u) := by
  obtain ⟨height, tx, r, u, -, htx, hrun, hends⟩ :=
    trySend_ends (refusing_answers lib) hvin hvout tip feerate next (.atRelay relay)
  change updateTimestampTx lib prev tip height feerate = .ok tx at htx
  obtain ⟨-, hsum, hchange⟩ := updateTimestampTx_eq hvout htx
  have hleft : leftOver change.nValue (deltaFee lib prev feerate) > 0 := by
    rw [leftOver, if_pos hkept]
    exact lt_trans (by decide) hkept
  rw [hsum, inputValue_const] at hends
  obtain rate | _ | sent := r
  · obtain ⟨-, rfl, -⟩ := hends
    exact ⟨u, hrun⟩
  · obtain hmax | ⟨-, hlone | hsame⟩ := hends
    · have hzero : (tx.vin.map fun _ => (0 : Int)).sum = 0 := by simp
      rw [hzero] at hmax
      change (100000 : Int) < _ at hmax
      omega
    · exact absurd hlone (hchange.mpr hkept)
    · exact nomatch hsame
  · obtain ⟨-, n, hsent⟩ := hends
    exact nomatch hsent

/-- Whatever the surroundings answer, no version of a loop pays less than the one refused before
it. -/
def FeesNeverFall (lib : Lib) (prev : Tx) (tip : Bytes) (feerate relay : ℚ) : Prop :=
  ∀ env w, env.lib = lib → w.stamper.config.relayFeerate = relay → ∀ value rounds,
    (built env prev tip rounds feerate relay w).IsChain fun a b => a.fee value ≤ b.fee value

/-- Where the first version takes more than one at a quarter above the relay's feerate would, and
leaves change, the second pays less. -/
theorem fee_falls {lib : Lib} {txin : TxIn} {vin : List TxIn} {change : TxOut} {rest : List TxOut}
    {relay : ℚ} (hvin : prev.vin = txin :: vin) (hvout : prev.vout = change :: rest)
    (hfalls : deltaFee lib prev (relay * (5 / 4)) < deltaFee lib prev feerate)
    (hkept : dust < change.nValue - deltaFee lib prev feerate) :
    ¬FeesNeverFall lib prev tip feerate relay := by
  intro h
  obtain ⟨u, hround⟩ := @trySend_refusing prev tip feerate relay lib _ _ _ _ hvin hvout hkept relay
  obtain ⟨first, hfirst⟩ : ∃ tx, updateTimestampTx lib prev tip 0 feerate = .ok tx := by
    rw [updateTimestampTx, hvout]
    exact ⟨_, rfl⟩
  obtain ⟨second, hsecond⟩ : ∃ tx, updateTimestampTx lib prev tip 0 (relay * (5 / 4)) = .ok tx := by
    rw [updateTimestampTx, hvout]
    exact ⟨_, rfl⟩
  obtain ⟨txs, hbuilt⟩ : ∃ txs, built (.refusing lib) prev tip 2 feerate relay (.atRelay relay) =
      first :: second :: txs := by
    have hheight (u : World) : (Env.refusing lib).getblockcount u.tick = .ok 0 := rfl
    have hstart :=
      @built_succ _ prev tip feerate relay _ 1 0 first (hheight (.atRelay relay)) hfirst
    have hrest := @built_succ _ prev tip (relay * (5 / 4)) (relay * (5 / 4)) u 0 0 second
      (hheight u) hsecond
    rw [hround] at hstart
    exact ⟨_, hstart.trans (congrArg _ hrest)⟩
  have hchain := h (.refusing lib) (.atRelay relay) rfl rfl (fun _ => 0) 2
  rw [hbuilt] at hchain
  have hle := (List.isChain_cons_cons.mp hchain).1
  rw [fee_updateTimestampTx hvout hfirst, fee_updateTimestampTx hvout hsecond,
    leftOver, leftOver, if_pos hkept, if_pos (by omega)] at hle
  omega

/-- No version pays less than the one refused before it exactly when the first does not take more
than one at a quarter above the relay's feerate would, or leaves no change. -/
theorem fees_never_fall_iff (lib : Lib) (tip : Bytes) (feerate : ℚ) {relay : ℚ}
    {txin : TxIn} {vin : List TxIn} {change : TxOut} {rest : List TxOut} (hrelay : 0 < relay)
    (hvin : prev.vin = txin :: vin) (hvout : prev.vout = change :: rest) :
    FeesNeverFall lib prev tip feerate relay ↔
      deltaFee lib prev feerate ≤ deltaFee lib prev (relay * (5 / 4)) ∨
        change.nValue - deltaFee lib prev feerate ≤ dust := by
  constructor
  · intro h
    by_contra hnot
    obtain ⟨hfalls, hkept⟩ := not_or.mp hnot
    exact fee_falls hvin hvout (not_le.mp hfalls) (not_le.mp hkept) h
  · rintro hrise env w rfl rfl value rounds
    exact fee_le_of_built hvout hrelay hrise value rounds

namespace Sample

/-- An anchor that spends one output, with a change output of a million. -/
def anchor : Tx :=
  { vin := [⟨⟨List.replicate 32 1, 0⟩, [], 0xfffffffe⟩]
    vout := [⟨1000000, .raw (List.replicate 22 0)⟩, ⟨0, .opReturn (List.replicate 32 0)⟩]
    nLockTime := 0
    witness := [] }

def lib : Lib := .ofHashes [] []

end Sample

/-- A replacement starts from the relay's feerate. -/
theorem replacement_never_pays_less : FeesNeverFall Sample.lib Sample.anchor [] 1 1 :=
  (fees_never_fall_iff Sample.lib [] 1 (by decide) rfl rfl).mpr (.inl (by decide +kernel))

/-- An estimate of twenty times the relay's feerate: once refused, the anchor is sent again for
less. -/
theorem retry_pays_less :
    ¬∀ (lib : Lib) (prev : Tx) (tip : Bytes) (feerate relay : ℚ), 0 < relay →
      prev.vin ≠ [] → prev.vout ≠ [] → FeesNeverFall lib prev tip feerate relay := by
  intro h
  have hfees := h Sample.lib Sample.anchor [] 20 1 (by decide) (by decide) (by decide)
  exact fee_falls rfl rfl (by decide +kernel) (by decide +kernel) hfees

/-! ## The end of the loop -/

/-- A round after the first, which is built at the feerate that its refusal raises. -/
def retry (env : Env) (prev : Tx) (tip : Bytes) (feerate : ℚ) : M (ℚ ⊕ Option (Tx × Int)) :=
  trySend env prev tip feerate feerate

/-- The sending loop given some rounds after the first, and what happens when they are used up. -/
def sending (env : Env) (prev : Tx) (tip : Bytes) (rounds : Nat)
    (exhausted : ℚ → M (Option (Tx × Int))) (feerate : ℚ) : M (Option (Tx × Int)) :=
  do
  let relay ← Prog.gets (·.stamper.config.relayFeerate)
  let first ← trySend env prev tip feerate relay
  match first with
  | .inr sent => pure sent
  | .inl feerate => Prog.loop (retry env prev tip) exhausted rounds feerate

theorem sendLoop_eq_sending (env : Env) (prev : Tx) (tip : Bytes) (feerate : ℚ) (w : World) :
    sendLoop env prev tip feerate w =
      sending env prev tip (env.patience w.tick) (fun _ => Prog.raise .stop) feerate w := rfl

section First

variable {rounds : Nat} {exhausted : ℚ → M (Option (Tx × Int))} {u : World}

theorem sending_of_error {e : Exc}
    (h : trySend env prev tip feerate w.stamper.config.relayFeerate w = (.error e, u)) :
    sending env prev tip rounds exhausted feerate w = (.error e, u) := by
  change (trySend env prev tip feerate w.stamper.config.relayFeerate >>= _) w = _
  exact Prog.bind_of_error h

theorem sending_of_inr {sent : Option (Tx × Int)}
    (h : trySend env prev tip feerate w.stamper.config.relayFeerate w = (.ok (.inr sent), u)) :
    sending env prev tip rounds exhausted feerate w = (.ok sent, u) := by
  change (trySend env prev tip feerate w.stamper.config.relayFeerate >>= _) w = _
  exact Prog.bind_of_ok h

theorem sending_of_inl {rate : ℚ}
    (h : trySend env prev tip feerate w.stamper.config.relayFeerate w = (.ok (.inl rate), u)) :
    sending env prev tip rounds exhausted feerate w =
      Prog.loop (retry env prev tip) exhausted rounds rate u := by
  change (trySend env prev tip feerate w.stamper.config.relayFeerate >>= _) w = _
  exact Prog.bind_of_ok h

end First

section Ends

variable {txin : TxIn} {vin : List TxIn} {change : TxOut} {rest : List TxOut}

/-- A round at a feerate that takes the whole change does not let the loop go on. -/
theorem not_trySend_inl (hvout : prev.vout = change :: rest)
    (htaken : change.nValue - deltaFee env.lib prev feerate ≤ dust) {rate : ℚ} {u : World} :
    trySend env prev tip feerate next w ≠ (.ok (.inl rate), u) := by
  intro h
  obtain ⟨height, tx, -, htx, hchange, -⟩ := trySend_inl h
  exact absurd ((updateTimestampTx_eq hvout htx).2.2.mp hchange) (not_lt.mpr htaken)

/-- The rounds that follow, given as many as the feerate needs to take the whole change, do not use
them up. -/
theorem loop_ends (hvout : prev.vout = change :: rest) (k : Nat) :
    ∀ (rate : ℚ) (w : World), change.nValue - deltaFee env.lib prev (rate * (5 / 4) ^ k) ≤ dust →
      ∀ (rounds : Nat) (exhausted exhausted' : ℚ → M (Option (Tx × Int))), k < rounds →
        Prog.loop (retry env prev tip) exhausted rounds rate w =
          Prog.loop (retry env prev tip) exhausted' (k + 1) rate w := by
  induction k with
  | zero =>
      intro rate w htaken rounds exhausted exhausted' hrounds
      obtain ⟨rounds, rfl⟩ := Nat.exists_eq_succ_of_ne_zero hrounds.ne'
      rw [pow_zero, mul_one] at htaken
      rcases hround : retry env prev tip rate w with ⟨e | rate' | sent, u⟩
      · rw [Prog.loop_of_error hround, Prog.loop_of_error hround]
      · exact absurd hround (not_trySend_inl hvout htaken)
      · rw [Prog.loop_of_inr hround, Prog.loop_of_inr hround]
  | succ k ih =>
      intro rate w htaken rounds exhausted exhausted' hrounds
      obtain ⟨rounds, rfl⟩ := Nat.exists_eq_succ_of_ne_zero (Nat.ne_zero_of_lt hrounds)
      rcases hround : retry env prev tip rate w with ⟨e | rate' | sent, u⟩
      · rw [Prog.loop_of_error hround, Prog.loop_of_error hround]
      · obtain ⟨-, -, -, -, -, rfl⟩ := trySend_inl hround
        have htaken' :
            change.nValue - deltaFee env.lib prev (rate * (5 / 4) * (5 / 4) ^ k) ≤ dust := by
          rwa [mul_assoc, ← pow_succ']
        rw [Prog.loop_of_inl hround, Prog.loop_of_inl hround]
        exact ih _ u htaken' rounds exhausted exhausted' (Nat.lt_of_succ_lt_succ hrounds)
      · rw [Prog.loop_of_inr hround, Prog.loop_of_inr hround]

/-- How a loop that started from a process `s` ends for the last version of `txs`. -/
def LoopEnds (env : Env) (values : Nat → OutPoint → Int) (txin : TxIn) (txs : List Tx)
    (s t : Stamper) (sent : Option (Tx × Int)) : Prop :=
  ∃ tx n, txs.getLast? = some tx ∧
    EndsWith env txin tx (inputValue values n tx.vin - (tx.vout.map (·.nValue)).sum) s t sent

/-- A round and those after it: it ends the loop, or the loop ends as those after it do. -/
theorem LoopEnds.round {values : Nat → OutPoint → Int} (h : env.Answers values)
    (hvin : prev.vin = txin :: vin) (hvout : prev.vout = change :: rest) (tip : Bytes)
    (feerate next : ℚ) (w : World) (rounds : Nat) :
    (∃ sent u, trySend env prev tip feerate next w = (.ok (.inr sent), u) ∧ LoopEnds env values txin
        (built env prev tip (rounds + 1) feerate next w) w.stamper u.stamper sent) ∨
    ∃ u, trySend env prev tip feerate next w = (.ok (.inl (next * (5 / 4))), u) ∧
      u.stamper = w.stamper ∧ dust < change.nValue - deltaFee env.lib prev feerate ∧
      ∀ t sent, LoopEnds env values txin
        (built env prev tip rounds (next * (5 / 4)) (next * (5 / 4)) u) w.stamper t sent → LoopEnds
          env values txin (built env prev tip (rounds + 1) feerate next w) w.stamper t sent := by
  obtain ⟨height, tx, r, u, hheight, htx, hround, hends⟩ :=
    trySend_ends h hvin hvout tip feerate next w
  have hbuilt := @built_succ _ _ _ _ next _ rounds _ _ hheight htx
  rw [hround] at hbuilt
  cases r with
  | inr sent =>
      left
      exact ⟨sent, u, hround, tx, _, by rw [hbuilt]; rfl, hends⟩
  | inl rate =>
      right
      obtain ⟨hchange, rfl, hsame⟩ := hends
      refine ⟨u, hround, hsame, (updateTimestampTx_eq hvout htx).2.2.mp hchange, ?_⟩
      rintro t sent ⟨last, n, hlast, hend⟩
      refine ⟨last, n, ?_, hend⟩
      rw [hbuilt]
      dsimp only
      rw [List.getLast?_cons, hlast]
      rfl

/-- Where the surroundings answer, the rounds that follow end. -/
theorem loop_answers {values : Nat → OutPoint → Int} (h : env.Answers values)
    (hvin : prev.vin = txin :: vin) (hvout : prev.vout = change :: rest) (k : Nat) :
    ∀ (rate : ℚ) (w : World), change.nValue - deltaFee env.lib prev (rate * (5 / 4) ^ k) ≤ dust →
      ∃ sent u, Prog.loop (retry env prev tip) (fun _ => Prog.raise .stop) (k + 1) rate w =
        (.ok sent, u) ∧ LoopEnds env values txin (built env prev tip (k + 1) rate rate w)
          w.stamper u.stamper sent := by
  induction k with
  | zero =>
      intro rate w htaken
      rw [pow_zero, mul_one] at htaken
      obtain ⟨sent, u, hround, hends⟩ | ⟨u, -, -, hkept,
        -⟩ := LoopEnds.round h hvin hvout tip rate rate w 0
      · exact ⟨sent, u, Prog.loop_of_inr hround, hends⟩
      · exact absurd hkept (not_lt.mpr htaken)
  | succ k ih =>
      intro rate w htaken
      obtain ⟨sent, u, hround, hends⟩ | ⟨u, hround, hsame, -,
        hrest⟩ := LoopEnds.round h hvin hvout tip rate rate w (k + 1)
      · exact ⟨sent, u, Prog.loop_of_inr hround, hends⟩
      · have htaken' :
            change.nValue - deltaFee env.lib prev (rate * (5 / 4) * (5 / 4) ^ k) ≤ dust := by
          rwa [mul_assoc, ← pow_succ']
        obtain ⟨sent, t, hloop, hends⟩ := ih _ u htaken'
        have hround' : retry env prev tip rate w = (.ok (.inl (rate * (5 / 4))), u) := hround
        rw [hsame] at hends
        exact ⟨sent, t, (Prog.loop_of_inl hround').trans hloop, hrest _ _ hends⟩

/-- The sending loop ends: some number of rounds suffices for every course of answers and
exceptions, and where the surroundings answer, its last version was sent, is above the cap or is
remembered as refused. -/
theorem send_loop_ends (lib : Lib) (tip : Bytes) (feerate : ℚ) {relay : ℚ} (hrelay : 0 < relay)
    (hvin : prev.vin = txin :: vin) (hvout : prev.vout = change :: rest) :
    ∃ bound, ∀ env w, env.lib = lib → w.stamper.config.relayFeerate = relay →
      (∀ rounds exhausted exhausted', bound ≤ rounds →
        sending env prev tip rounds exhausted feerate w =
          sending env prev tip bound exhausted' feerate w) ∧
      ∀ values, env.Answers values →
        ∃ sent u, sending env prev tip bound (fun _ => Prog.raise .stop) feerate w = (.ok sent, u) ∧
          LoopEnds env values txin (built env prev tip (bound + 1) feerate relay w)
            w.stamper u.stamper sent := by
  have hrate : 0 < relay * (5 / 4) := by positivity
  obtain ⟨k, hk⟩ := exists_deltaFee_ge lib prev hrate (change.nValue - dust)
  refine ⟨k + 1, ?_⟩
  rintro env w rfl rfl
  have htaken : change.nValue - deltaFee env.lib prev
      (w.stamper.config.relayFeerate * (5 / 4) * (5 / 4) ^ k) ≤ dust := by
    omega
  constructor
  · intro rounds exhausted exhausted' hrounds
    rcases hround : trySend env prev tip feerate w.stamper.config.relayFeerate w
      with ⟨e | rate | sent, u⟩
    · rw [sending_of_error hround, sending_of_error hround]
    · obtain ⟨-, -, -, -, -, rfl⟩ := trySend_inl hround
      rw [sending_of_inl hround, sending_of_inl hround]
      exact loop_ends hvout k _ u htaken rounds exhausted exhausted' hrounds
    · rw [sending_of_inr hround, sending_of_inr hround]
  · intro values h
    obtain ⟨sent, u, hround, hends⟩ | ⟨u, hround, hsame, -, hrest⟩ :=
      LoopEnds.round h hvin hvout tip feerate w.stamper.config.relayFeerate w (k + 1)
    · exact ⟨sent, u, sending_of_inr hround, hends⟩
    · obtain ⟨sent, t, hloop, hends⟩ :=
        @loop_answers env prev tip txin vin change rest values h hvin hvout k _ u htaken
      rw [hsame] at hends
      exact ⟨sent, t, (sending_of_inl hround).trans hloop, hrest _ _ hends⟩

end Ends

/-- A node that refuses every version of an anchor. -/
theorem refused_anchor_ends :
    ∃ bound sent u, sending (.refusing Sample.lib) Sample.anchor [] bound
      (fun _ => Prog.raise .stop) 20 (.atRelay 1) = (.ok sent, u) ∧
      LoopEnds (.refusing Sample.lib) (fun _ _ => 0) ⟨⟨List.replicate 32 1, 0⟩, [], 0xfffffffe⟩
        (built (.refusing Sample.lib) Sample.anchor [] (bound + 1) 20 1 (.atRelay 1))
          (World.atRelay 1).stamper u.stamper sent := by
  obtain ⟨bound, h⟩ := send_loop_ends Sample.lib [] 20 (show (0 : ℚ) < 1 by decide)
    (show Sample.anchor.vin = _ :: _ from rfl) rfl
  obtain ⟨sent, u, hrun⟩ :=
    (h (.refusing Sample.lib) (.atRelay 1) rfl rfl).2 _ (refusing_answers Sample.lib)
  exact ⟨bound, sent, u, hrun⟩

end OtsServer.Service
