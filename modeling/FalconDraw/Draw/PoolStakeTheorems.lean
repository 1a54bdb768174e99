/-
FalconDraw.Draw.PoolStakeTheorems — what an accepted stake guarantees.

The balance test is the intended inequality over the integers exactly when the
declared stake plus the other outputs stays below 2^63
(`stake_backed_iff_sum_fits`).
-/
import FalconDraw.Draw.PoolStake

namespace FalconDraw.Draw

open Lib Wire Chain List

/-! ## The stake a transaction declares -/

def declaredStake (msgTx : MsgTx) : Option PoolStakingData :=
  (findPoolStakingOpReturn msgTx).map poolStakingFields

def otherOutputs (msgTx : MsgTx) : List TxOut :=
  msgTx.txOut.filter fun out => !isPoolStakingOpReturn out.pkScript

/-- The amounts of the coins a view holds for the inputs, if it holds all. -/
def spentAmounts (view : UtxoViewpoint) (txIn : List TxIn) : Option (List Int64) :=
  txIn.mapM fun t => (view.lookupEntry t.previousOutPoint).map UtxoEntry.amount

def stakeOutlay (msgTx : MsgTx) (d : PoolStakingData) : Int :=
  d.amount.toInt + sumInt ((otherOutputs msgTx).map TxOut.value)

/-- The spent coins cover the declared stake and all other outputs. -/
def FullyBacked (view : UtxoViewpoint) (msgTx : MsgTx) : Prop :=
  ∃ d amounts, declaredStake msgTx = some d ∧ spentAmounts view msgTx.txIn = some amounts ∧
    stakeOutlay msgTx d ≤ sumInt amounts

/-- Every coin of the view has an amount between zero and `MaxSatoshi`. -/
def AmountsInRange (view : UtxoViewpoint) : Prop :=
  ∀ op e, view.lookupEntry op = some e → 0 ≤ e.amount.toInt ∧ e.amount.toInt ≤ maxSatoshi.toInt

/-! ## Inversion of the loops -/

theorem stakeInputValue_eq_ok {view : UtxoViewpoint} {b : Int64} :
    ∀ {txIn : List TxIn} {total : Int64}, stakeInputValue view total txIn = .ok b ↔
      ∃ amounts, spentAmounts view txIn = some amounts ∧ amounts.foldl (· + ·) total = b
  | [], total => by simp [stakeInputValue, spentAmounts]
  | t :: ts, total => by
      cases he : view.lookupEntry t.previousOutPoint with
      | none => simp [stakeInputValue, spentAmounts, he]
      | some e =>
        simp only [stakeInputValue, he, @stakeInputValue_eq_ok _ _ ts, spentAmounts]
        simp [he, Option.bind_eq_some_iff]

theorem spentAmounts_mem {view : UtxoViewpoint} {a : Int64} (hrange : AmountsInRange view) :
    ∀ {txIn : List TxIn} {amounts : List Int64}, spentAmounts view txIn = some amounts →
      a ∈ amounts → 0 ≤ a.toInt
  | [], amounts, h, ha => by
      obtain rfl : [] = amounts := by simpa [spentAmounts] using h
      simp at ha
  | t :: ts, amounts, h, ha => by
      simp only [spentAmounts, mapM_cons, Option.bind_eq_bind, Option.bind_eq_some_iff,
        Option.map_eq_some_iff, Option.pure_def, Option.some.injEq] at h
      obtain ⟨_, ⟨e, he, rfl⟩, rest, hrest, rfl⟩ := h
      rcases mem_cons.mp ha with rfl | ha
      · exact (hrange _ e he).1
      · exact spentAmounts_mem hrange hrest ha

/-- With an FDRP output already found, the scan accepts only if there is no
other one. -/
theorem scanStakeOutputs_found {f r} :
    ∀ {outs : List TxOut} {i : Nat}, scanStakeOutputs i (some f) outs = .ok r →
      r = some f ∧ ∀ out ∈ outs, isPoolStakingOpReturn out.pkScript = false
  | [], i, h => by simp_all [scanStakeOutputs]
  | out :: outs, i, h => by
      simp only [scanStakeOutputs] at h
      split at h
      case isTrue => simp at h
      case isFalse hout =>
        obtain ⟨hr, hrest⟩ := scanStakeOutputs_found h
        refine ⟨hr, ?_⟩
        intro o ho
        rcases mem_cons.mp ho with rfl | ho
        · simpa using hout
        · exact hrest o ho

theorem scanStakeOutputs_some {idx : Nat} {d : PoolStakingData} :
    ∀ {outs : List TxOut} {i : Nat}, scanStakeOutputs i none outs = .ok (some (idx, d)) →
      ∃ pre out post, outs = pre ++ out :: post ∧ idx = i + pre.length ∧
        isPoolStakingOpReturn out.pkScript = true ∧ out.value = 0 ∧
        d = poolStakingFields out.pkScript ∧
        (∀ o ∈ pre, isPoolStakingOpReturn o.pkScript = false) ∧
        ∀ o ∈ post, isPoolStakingOpReturn o.pkScript = false
  | [], i, h => by simp [scanStakeOutputs] at h
  | out :: outs, i, h => by
      simp only [scanStakeOutputs] at h
      split at h
      case isTrue hout =>
        simp only [bind_eq_ok, exists_unit, rejectIf_eq_ok] at h
        obtain ⟨_, hval, hrest⟩ := h
        obtain ⟨hr, hpost⟩ := scanStakeOutputs_found hrest
        obtain ⟨rfl, rfl⟩ : idx = i ∧ d = poolStakingFields out.pkScript := by simpa using hr
        exact ⟨[], out, outs, rfl, rfl, hout, by simpa using hval, rfl, by simp, hpost⟩
      case isFalse hout =>
        obtain ⟨pre, o, post, rfl, hidx, ho, hval, hd, hpre, hpost⟩ := scanStakeOutputs_some h
        refine ⟨out :: pre, o, post, rfl, ?_, ho, hval, hd, ?_, hpost⟩
        · simp only [length_cons]
          omega
        · grind

/-- So the scan and `FindPoolStakingOpReturn` read the same output, and the
outputs summed as change are the others. -/
theorem scanStakeOutputs_spec {msgTx : MsgTx} {idx : Nat} {d : PoolStakingData}
    (h : scanStakeOutputs 0 none msgTx.txOut = .ok (some (idx, d))) :
    declaredStake msgTx = some d ∧ msgTx.txOut.eraseIdx idx = otherOutputs msgTx := by
  obtain ⟨pre, out, post, houts, hidx, hout, _, hd, hpre, hpost⟩ := scanStakeOutputs_some h
  have hskip : pre.find? (fun o => isPoolStakingOpReturn o.pkScript) = none := by
    simpa using hpre
  have hkeep : ∀ {l : List TxOut}, (∀ o ∈ l, isPoolStakingOpReturn o.pkScript = false) →
      l.filter (fun o => !isPoolStakingOpReturn o.pkScript) = l := by
    simp
  constructor
  · simp [declaredStake, findPoolStakingOpReturn, houts, find?_append, hskip, hout, hd]
  · rw [otherOutputs, houts, filter_append, filter_cons, hkeep hpre, hkeep hpost]
    simp [hidx, hout, eraseIdx_append_of_length_le]

/-! ## The whole check -/

theorem validatePoolStakeTx_declares {tx : Tx} {height : Nat} {view : Option UtxoViewpoint}
    (h : validatePoolStakeTx tx height view = .ok ()) :
    (∀ t ∈ tx.msgTx.txIn, checkStakeInput t = .ok ()) ∧
      ∃ d, declaredStake tx.msgTx = some d ∧ checkStakeData d = .ok () := by
  simp only [validatePoolStakeTx, bind_eq_ok, exists_unit, forM_eq_ok] at h
  obtain ⟨_, hins, r, hscan, h⟩ := h
  cases r with
  | none => simp at h
  | some r =>
    obtain ⟨idx, d⟩ := r
    simp only [bind_eq_ok, exists_unit] at h
    exact ⟨hins, d, (scanStakeOutputs_spec hscan).1, h.1⟩

theorem validatePoolStakeTx_some_ok {tx : Tx} {height : Nat} {view : UtxoViewpoint} :
    validatePoolStakeTx tx height (some view) = .ok () ↔
      validatePoolStakeTx tx height none = .ok () ∧ ∃ d amounts, declaredStake tx.msgTx = some d ∧
          spentAmounts view tx.msgTx.txIn = some amounts ∧
          d.amount + sum64 ((otherOutputs tx.msgTx).map TxOut.value) ≤ sum64 amounts := by
  simp only [validatePoolStakeTx, bind_eq_ok, exists_unit]
  constructor
  · rintro ⟨hver, hins, r, hscan, h⟩
    cases r with
    | none => simp at h
    | some r =>
      obtain ⟨idx, d⟩ := r
      simp only [bind_eq_ok, exists_unit] at h
      obtain ⟨hdata, hbal⟩ := h
      obtain ⟨hdecl, hothers⟩ := scanStakeOutputs_spec hscan
      simp only [checkStakeBalance, bind_eq_ok, rejectIf_eq_ok, Int64.not_lt] at hbal
      obtain ⟨total, htotal, hle⟩ := hbal
      obtain ⟨amounts, hamounts, rfl⟩ := stakeInputValue_eq_ok.mp htotal
      refine ⟨⟨hver, hins, _, hscan, by simp [hdata]⟩, d, amounts, hdecl, hamounts, ?_⟩
      rw [← hothers]
      exact hle
  · rintro ⟨⟨hver, hins, r, hscan, h⟩, d, amounts, hdecl, hamounts, hle⟩
    cases r with
    | none => simp at h
    | some r =>
      obtain ⟨idx, d'⟩ := r
      simp only [bind_eq_ok, exists_unit, and_true] at h
      obtain ⟨hdecl', hothers⟩ := scanStakeOutputs_spec hscan
      obtain rfl : d = d' := by simpa [hdecl] using hdecl'
      refine ⟨hver, hins, _, hscan, ?_⟩
      simp only [checkStakeBalance, bind_eq_ok, exists_unit, rejectIf_eq_ok, Int64.not_lt]
      refine ⟨h, _, stakeInputValue_eq_ok.mpr ⟨amounts, hamounts, rfl⟩, ?_⟩
      rw [stakeChangeValue, hothers]
      exact hle

/-! ## Backing -/

/-- The other outputs of a sane transaction sum, in machine arithmetic too, to
a value between zero and `MaxSatoshi`. -/
theorem otherOutputs_sum {tx : Tx} (h : SaneTx tx) :
    0 ≤ sumInt ((otherOutputs tx.msgTx).map TxOut.value) ∧
      sumInt ((otherOutputs tx.msgTx).map TxOut.value) ≤ maxSatoshi.toInt := by
  have hnonneg : ∀ v ∈ tx.msgTx.txOut.map TxOut.value, 0 ≤ v.toInt := by
    intro v hv
    obtain ⟨out, hout, rfl⟩ := mem_map.mp hv
    exact h.value_nonneg out hout
  have hsub : List.Sublist ((otherOutputs tx.msgTx).map TxOut.value)
      (tx.msgTx.txOut.map TxOut.value) := (filter_sublist).map _
  exact ⟨sumInt_nonneg fun v hv => hnonneg v (hsub.subset hv),
    (sumInt_le_of_sublist hsub hnonneg).trans h.total_le⟩

theorem outlay64_toInt {tx : Tx} (h : SaneTx tx) (d : PoolStakingData) :
    (d.amount + sum64 ((otherOutputs tx.msgTx).map TxOut.value)).toInt =
      (stakeOutlay tx.msgTx d).bmod (2 ^ 64) := by
  obtain ⟨hlo, hhi⟩ := otherOutputs_sum h
  have hbound := maxSatoshi_toInt
  rw [Int64.toInt_add, toInt_sum64_of_fits (by omega) (by omega), stakeOutlay]

def zeroCoinView : UtxoViewpoint :=
  { entries := fun _ => some (some { amount := 0, pkScript := [], blockHeight := 0 })
    bestHash := 0 }

theorem zeroCoinView_inRange : AmountsInRange zeroCoinView := by
  intro op e he
  obtain rfl : _ = e := Option.some.inj he
  decide

theorem spentAmounts_zeroCoinView (txIn : List TxIn) :
    spentAmounts zeroCoinView txIn = some (List.replicate txIn.length 0) := by
  induction txIn with
  | nil => rfl
  | cons t ts ih =>
    simp only [spentAmounts, mapM_cons] at ih ⊢
    rw [ih]
    rfl

theorem sumInt_replicate_zero (n : Nat) : sumInt (List.replicate n 0) = 0 := by
  simp [sumInt]

/-- A sane transaction is fully backed under every view that accepts it as a
stake, exactly when the stake it declares plus its other outputs does not reach
2^63 (or its format is already refused). -/
theorem stake_backed_iff_sum_fits (tx : Tx) (hsane : checkTransactionSanity tx = .ok ()) :
    (∀ height view, AmountsInRange view → validatePoolStakeTx tx height (some view) = .ok () →
        FullyBacked view tx.msgTx) ↔
      ∀ height d, validatePoolStakeTx tx height none = .ok () →
        declaredStake tx.msgTx = some d → stakeOutlay tx.msgTx d < 2 ^ 63 := by
  have hs := saneTx_of_check hsane
  constructor
  · -- a stake whose outlay wraps is accepted with coins of value zero
    intro hbacked height d hformat hdecl
    by_contra hbig
    have hwrap := outlay64_toInt hs d
    have hneg : (stakeOutlay tx.msgTx d).bmod (2 ^ 64) < 0 := by
      have hlt := d.amount.toInt_lt
      obtain ⟨_, hhi⟩ := otherOutputs_sum hs
      have hbound := maxSatoshi_toInt
      exact bmod_neg_of_wraps (by omega) (by unfold stakeOutlay; omega)
    have haccept : validatePoolStakeTx tx height (some zeroCoinView) = .ok () := by
      refine validatePoolStakeTx_some_ok.mpr ⟨hformat, d, _, hdecl, spentAmounts_zeroCoinView _, ?_⟩
      rw [Int64.le_iff_toInt_le, hwrap, toInt_sum64, sumInt_replicate_zero]
      exact hneg.le
    obtain ⟨d', amounts, hdecl', hamounts, hle⟩ :=
      hbacked height zeroCoinView zeroCoinView_inRange haccept
    obtain rfl : d = d' := by simpa [hdecl] using hdecl'
    obtain rfl : _ = amounts := by
      simpa [spentAmounts_zeroCoinView] using hamounts
    rw [sumInt_replicate_zero] at hle
    omega
  · intro hfits height view hrange haccept
    obtain ⟨hformat, d, amounts, hdecl, hamounts, hle⟩ := validatePoolStakeTx_some_ok.mp haccept
    have hlt := hfits height d hformat hdecl
    refine ⟨d, amounts, hdecl, hamounts, ?_⟩
    have hlow : 0 ≤ sumInt amounts :=
      sumInt_nonneg fun a ha => spentAmounts_mem hrange hamounts ha
    rw [Int64.le_iff_toInt_le, outlay64_toInt hs d, toInt_sum64] at hle
    have hge := d.amount.le_toInt
    obtain ⟨hlo, _⟩ := otherOutputs_sum hs
    have hexact : (stakeOutlay tx.msgTx d).bmod (2 ^ 64) = stakeOutlay tx.msgTx d :=
      Int.bmod_eq_of_le (by unfold stakeOutlay; omega) (by omega)
    have hdown := bmod_le_of_nonneg hlow
    omega

/-- A stake of `amount` atoms for draw 36, spending outpoint `1:0` and leaving
`change` atoms. -/
def stakeWithChange (amount change : Int64) : Tx :=
  { hash := 2
    msgTx :=
      { version := txVersionPoolStake
        txIn := [{ previousOutPoint := ⟨1, 0⟩
                   witness := [List.replicate 64 0, List.replicate 33 0] }]
        txOut := [⟨0, makePoolStakingScript ⟨1, amount, 36⟩⟩, ⟨change, [0x51]⟩] } }

theorem three_coin_stake_backed :
    checkTransactionSanity (stakeWithChange 300000000 100000000) = .ok () ∧
      ∀ height view, AmountsInRange view →
        validatePoolStakeTx (stakeWithChange 300000000 100000000) height (some view) = .ok () →
        FullyBacked view (stakeWithChange 300000000 100000000).msgTx := by
  refine ⟨by decide +kernel, (stake_backed_iff_sum_fits _ (by decide +kernel)).mpr ?_⟩
  intro height d _ hdecl
  obtain rfl : (⟨1, 300000000, 36⟩ : PoolStakingData) = d :=
    Option.some.inj ((by decide +kernel : some _ = declaredStake _).trans hdecl)
  decide +kernel

/-- A view that holds the single coin `1:0`, worth one FDRW. -/
def oneCoinView : UtxoViewpoint :=
  (UtxoViewpoint.new 0).setEntry ⟨1, 0⟩
    (some { amount := satoshiPerBitcoin, pkScript := [0x51], blockHeight := 1 })

/-- With one FDRW going in and one FDRW coming back as change, a stake of
92233720368 FDRW is accepted. -/
theorem unbacked_stake_accepted :
    checkTransactionSanity (stakeWithChange 9223372036800000000 100000000) = .ok () ∧
      AmountsInRange oneCoinView ∧
      validatePoolStakeTx (stakeWithChange 9223372036800000000 100000000) 1
        (some oneCoinView) = .ok () ∧
      ¬ FullyBacked oneCoinView (stakeWithChange 9223372036800000000 100000000).msgTx := by
  refine ⟨by decide +kernel, ?_, by decide +kernel, ?_⟩
  · intro op e he
    rw [oneCoinView, UtxoViewpoint.lookupEntry_setEntry] at he
    split at he
    · obtain rfl := Option.some.inj he
      decide
    · cases he
  · rintro ⟨d, amounts, hdecl, hamounts, hle⟩
    obtain rfl : (⟨1, 9223372036800000000, 36⟩ : PoolStakingData) = d :=
      Option.some.inj ((by decide +kernel : some _ = declaredStake _).trans hdecl)
    obtain rfl : [satoshiPerBitcoin] = amounts :=
      Option.some.inj ((by decide +kernel : some _ = spentAmounts _ _).trans hamounts)
    revert hle
    decide +kernel

end FalconDraw.Draw
