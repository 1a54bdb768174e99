/-
FalconDraw.Draw.FairDrawTheorems — what the draw owes the stakers.

A wallet is elected at as many positions of the extended tape as it has tokens,
all other positions roll the pool over, and the seeds are spread over the
positions as evenly as they can be (`runDrawBy_fair`).
-/
import Mathlib.Data.Int.CardIntervalMod
import Mathlib.Data.Set.Card
import FalconDraw.Draw.TapeTheorems

namespace FalconDraw.Draw

open Lib Wire List

/-! ## What a wallet has in a draw -/

def tokensOf (w : WalletHash) (stakes : List StakeEntry) : Int :=
  tokenTotal (stakes.filter fun s => s.walletHash = w)

def valueOf (w : WalletHash) (stakes : List StakeEntry) : Int :=
  sumInt ((stakes.filter fun s => s.walletHash = w).map StakeEntry.totalValue)

section

variable {stakes stakes' : List StakeEntry}

theorem sumInt_map (f : StakeEntry → Int64) (stakes : List StakeEntry) :
    sumInt (stakes.map f) = (stakes.map fun s => (f s).toInt).sum := by
  rw [sumInt, map_map]
  rfl

theorem sumInt_congr_wallets (f : StakeEntry → Int64)
    (h : ∀ w, sumInt ((stakes.filter fun s => s.walletHash = w).map f) =
      sumInt ((stakes'.filter fun s => s.walletHash = w).map f)) :
    sumInt (stakes.map f) = sumInt (stakes'.map f) := by
  simp only [sumInt_map] at h ⊢
  exact sum_map_congr_fibres StakeEntry.walletHash _ h

theorem sum64_congr {xs ys : List Int64} (h : sumInt xs = sumInt ys) : sum64 xs = sum64 ys := by
  rw [← Int64.toInt_inj, toInt_sum64, toInt_sum64, h]

theorem ownedLength_stakeTape (hpos : ∀ s ∈ stakes, 0 ≤ s.tokenCount.toInt) (w : WalletHash) :
    (ownedLength w (stakeTape stakes) : Int) = tokensOf w stakes := by
  have hfilter : (stakeTape stakes).filter (fun s => s.1 = w) =
      stakeTape (stakes.filter fun s => s.walletHash = w) := by
    rw [stakeTape, filter_map]
    rfl
  rw [ownedLength, hfilter, tokensOf]
  exact tapeLength_stakeTape fun s hs => hpos s (mem_of_mem_filter hs)

theorem tokensOf_realStakes (w : WalletHash) : tokensOf w (realStakes stakes) =
      if w = jackpotPoolWalletHash then 0 else tokensOf w stakes := by
  rw [tokensOf, realStakes, filter_filter]
  split
  case isTrue hw =>
    subst hw
    rw [filter_eq_nil_iff.mpr]
    · rfl
    · intro s _
      by_cases hs : s.walletHash = jackpotPoolWalletHash <;> simp [hs]
  case isFalse hw => grind [tokensOf]

theorem realStakes_subset {s : StakeEntry} (h : s ∈ realStakes stakes) : s ∈ stakes :=
  mem_of_mem_filter h

/-! ## The tape in wallet order -/

theorem toNat_walletHash_injective : Function.Injective (BitVec.toNat : WalletHash → Nat) :=
  fun _ _ => BitVec.eq_of_toNat_eq

variable (order : WalletSort)

theorem stakeTape_sorted (real : List StakeEntry) :
    (stakeTape (order.sort real)).Pairwise fun s t => s.1.toNat ≤ t.1.toNat := by
  rw [stakeTape, pairwise_map]
  exact (order.sorted real).imp fun h => h

theorem ownedLength_sorted (real : List StakeEntry) (w : WalletHash) :
    ownedLength w (stakeTape (order.sort real)) = ownedLength w (stakeTape real) :=
  ownedLength_perm ((order.perm real).map _) w

end

section

variable {stakes stakes' : List StakeEntry}

theorem tokenTotal_realStakes_le (hpos : ∀ s ∈ stakes, 0 < s.tokenCount.toInt) :
    tokenTotal (realStakes stakes) ≤ tokenTotal stakes := by
  refine sumInt_le_of_sublist (filter_sublist.map _) ?_
  intro y hy
  obtain ⟨s, hs, rfl⟩ := mem_map.mp hy
  exact (hpos s hs).le

theorem realStakes_eq_nil_iff (hpos : ∀ s ∈ stakes, 0 < s.tokenCount.toInt) :
    realStakes stakes = [] ↔ tokenTotal (realStakes stakes) = 0 := by
  constructor
  · intro h
    rw [h]
    rfl
  · intro h
    by_contra hne
    have := tokenTotal_pos hne fun s hs => hpos s (realStakes_subset hs)
    omega

/-- **The draw only looks at what each wallet staked.** Two lists of stakes in
which every wallet has the same tokens and the same value give the same result,
whatever the two sorts do with the stakes of one wallet. -/
theorem runDrawBy_congr (order order' : WalletSort) (seed : Hash)
    (hpos : ∀ s ∈ stakes, 0 < s.tokenCount.toInt) (hpos' : ∀ s ∈ stakes', 0 < s.tokenCount.toInt)
    (hfits : tokenTotal stakes < 2 ^ 63) (htokens : ∀ w, tokensOf w stakes = tokensOf w stakes')
    (hvalue : ∀ w, valueOf w stakes = valueOf w stakes') :
    runDrawBy order stakes seed = runDrawBy order' stakes' seed := by
  have hreal : ∀ w, tokensOf w (realStakes stakes) = tokensOf w (realStakes stakes') := by
    intro w
    rw [tokensOf_realStakes, tokensOf_realStakes, htokens]
  have htotal : tokenTotal (realStakes stakes) = tokenTotal (realStakes stakes') :=
    sumInt_congr_wallets StakeEntry.tokenCount hreal
  have hposReal : ∀ s ∈ realStakes stakes, 0 < s.tokenCount.toInt := fun s hs =>
    hpos s (realStakes_subset hs)
  have hposReal' : ∀ s ∈ realStakes stakes', 0 < s.tokenCount.toInt := fun s hs =>
    hpos' s (realStakes_subset hs)
  have hle := tokenTotal_realStakes_le hpos
  -- the numbers `RunDraw` computes on the way
  have hpool : sum64 (stakes.map StakeEntry.totalValue) =
      sum64 (stakes'.map StakeEntry.totalValue) :=
    sum64_congr (sumInt_congr_wallets StakeEntry.totalValue hvalue)
  have hcount : sum64 ((realStakes stakes).map StakeEntry.tokenCount) =
      sum64 ((realStakes stakes').map StakeEntry.tokenCount) := sum64_congr htotal
  have hposition : winningPos (realStakes stakes) seed = winningPos (realStakes stakes') seed := by
    rw [winningPos, hcount, winningPos]
  have hnil : realStakes stakes = [] ↔ realStakes stakes' = [] := by
    rw [realStakes_eq_nil_iff hpos, realStakes_eq_nil_iff hpos', htotal]
  have howner : ∀ p, ownerAt (stakeTape (order.sort (realStakes stakes))) p =
      ownerAt (stakeTape (order'.sort (realStakes stakes'))) p := by
    refine ownerAt_congr toNat_walletHash_injective (stakeTape_sorted order _)
      (stakeTape_sorted order' _) ?_
    intro w
    have h := ownedLength_stakeTape (fun s hs => (hposReal s hs).le) w
    have h' := ownedLength_stakeTape (fun s hs => (hposReal' s hs).le) w
    have := hreal w
    rw [ownedLength_sorted, ownedLength_sorted]
    omega
  rw [runDrawBy_eq order seed hposReal (by omega), runDrawBy_eq order' seed hposReal' (by omega)]
  simp only [hpool, hcount, hposition, hnil, howner]

def scatteredStakes : List StakeEntry := [⟨1, 3, 300⟩, ⟨2, 4, 400⟩, ⟨1, 2, 200⟩]

def mergedStakes : List StakeEntry := [⟨2, 4, 400⟩, ⟨1, 5, 500⟩]

theorem scattered_draw_as_merged :
    runDrawBy stableSort scatteredStakes 4 = runDrawBy stableSort mergedStakes 4 := by
  have htokens : ∀ w, tokensOf w scatteredStakes = tokensOf w mergedStakes := by
    intro w
    by_cases h1 : 1#160 = w
    · subst h1
      decide
    · grind [tokensOf, scatteredStakes, mergedStakes]
  have hvalue : ∀ w, valueOf w scatteredStakes = valueOf w mergedStakes := by
    intro w
    by_cases h1 : 1#160 = w
    · subst h1
      decide
    · grind [valueOf, scatteredStakes, mergedStakes]
  exact runDrawBy_congr stableSort stableSort 4 (by decide) (by decide) (by decide) htokens hvalue

/-! ## Positions and seeds -/

def extendedLength (stakes : List StakeEntry) : Int := winMultiplier.toInt * tokenTotal stakes

theorem extendedLength_eq (stakes : List StakeEntry) :
    extendedLength stakes = 10 * tokenTotal stakes := rfl

/-- The seeds that put the winning position at `p`. -/
def seedsAt (stakes : List StakeEntry) (p : Nat) : Set Hash :=
  { seed | (winningPos stakes seed).toInt = p }

/-- The positions at which `RunDraw` elects a wallet. -/
def electing (order : WalletSort) (stakes : List StakeEntry) (w : WalletHash) : Set Nat :=
  { p | (p : Int) < extendedLength stakes ∧
    ∃ seed ∈ seedsAt stakes p, (runDrawBy order stakes seed).winner = some w }

/-- The positions at which `RunDraw` rolls the pool over. -/
def rollingOver (order : WalletSort) (stakes : List StakeEntry) : Set Nat :=
  { p | (p : Int) < extendedLength stakes ∧
    ∃ seed ∈ seedsAt stakes p, (runDrawBy order stakes seed).jackpotWon = false }

def DrawResult.paid (r : DrawResult) : Int := sumInt (r.winners.map WinnerEntry.prize)

/-- What makes a draw fair. -/
structure FairDraw (order : WalletSort) (stakes : List StakeEntry) : Prop where
  /-- the seed only matters through the position, -/
  by_position : ∀ seed seed', winningPos stakes seed = winningPos stakes seed' →
    runDrawBy order stakes seed = runDrawBy order stakes seed'
  /-- which is on the extended tape, -/
  on_tape : ∀ seed, ∃ p : Nat, seed ∈ seedsAt stakes p ∧ (p : Int) < extendedLength stakes
  /-- a wallet has as many positions as tokens, -/
  elects : ∀ w, ((electing order stakes w).ncard : Int) = tokensOf w stakes
  /-- the rest rolls over, -/
  rolls_over : ((rollingOver order stakes).ncard : Int) =
    (winMultiplier.toInt - 1) * tokenTotal stakes
  /-- the search finds the owner of every real position, -/
  finds : ∀ pos : Int64, 0 ≤ pos.toInt → pos.toInt < tokenTotal stakes →
    ∃ e, findWinner (cumulativeFrom 0 (order.sort (realStakes stakes))) pos = some e
  /-- nothing of the pool is lost, -/
  pays : ∀ seed, (runDrawBy order stakes seed).paid + (runDrawBy order stakes seed).rollover.toInt =
    sumInt (stakes.map StakeEntry.totalValue)
  /-- and no position has two seeds more than another. -/
  even : ∀ p q : Nat, (p : Int) < extendedLength stakes → (q : Int) < extendedLength stakes →
    (seedsAt stakes p).ncard ≤ (seedsAt stakes q).ncard + 1

theorem ncard_toNat_mod {n r v : Nat} (hr : 0 < r) (hv : v < r) :
    ({ x : BitVec n | x.toNat % r = v }).ncard = 2 ^ n / r + if v < 2 ^ n % r then 1 else 0 := by
  have himage : BitVec.toNat '' { x : BitVec n | x.toNat % r = v } =
      ↑((Finset.range (2 ^ n)).filter (· ≡ v [MOD r])) := by
    ext m
    simp only [Set.mem_image, Set.mem_ofPred_eq, Finset.coe_filter, Finset.mem_range, Nat.ModEq,
      Nat.mod_eq_of_lt hv]
    constructor
    · rintro ⟨x, hx, rfl⟩
      exact ⟨x.isLt, hx⟩
    · rintro ⟨hlt, hm⟩
      refine ⟨BitVec.ofNat n m, ?_, ?_⟩ <;> rw [BitVec.toNat_ofNat, Nat.mod_eq_of_lt hlt]
      exact hm
  have hinj : Function.Injective (BitVec.toNat : BitVec n → Nat) := fun _ _ => BitVec.eq_of_toNat_eq
  rw [← Set.ncard_image_of_injective _ hinj, himage, Set.ncard_coe_finset,
    ← Nat.count_eq_card_filter_range, Nat.count_modEq_card _ hr, Nat.mod_eq_of_lt hv]

theorem extendedLength_pos (hne : stakes ≠ []) (hpos : ∀ s ∈ stakes, 0 < s.tokenCount.toInt) :
    0 < extendedLength stakes := by
  have := tokenTotal_pos hne hpos
  rw [extendedLength_eq]
  omega

section

variable (hne : stakes ≠ []) (hpos : ∀ s ∈ stakes, 0 < s.tokenCount.toInt)
  (hfits : extendedLength stakes < 2 ^ 63)

include hne hpos hfits

theorem toInt_extended : (sum64 (stakes.map StakeEntry.tokenCount) * winMultiplier).toInt =
      extendedLength stakes := by
  have htotal := tokenTotal_pos hne hpos
  rw [extendedLength_eq] at hfits
  have hsum := toInt_sum64_tokens htotal.le (by omega)
  rw [Int64.toInt_mul, hsum, mul_comm, ← extendedLength]
  rw [← extendedLength_eq] at hfits
  have := extendedLength_pos hne hpos
  exact Int.bmod_eq_of_le (by omega) (by omega)

theorem toInt_winningPos (seed : Hash) : (winningPos stakes seed).toInt =
      ((seed.toNat % (extendedLength stakes).toNat : Nat) : Int) := by
  have hlength := extendedLength_pos hne hpos
  have hmod : (seed.toNat : Int) % extendedLength stakes =
      ((seed.toNat % (extendedLength stakes).toNat : Nat) : Int) := by
    rw [Int.natCast_emod, Int.toNat_of_nonneg (by omega)]
  have hlt : seed.toNat % (extendedLength stakes).toNat <
      (extendedLength stakes).toNat := Nat.mod_lt _ (by omega)
  rw [winningPos, selectWinnerPos, toInt_extended hne hpos hfits, hmod,
    Int64.toInt_ofInt_of_le (by omega) (by omega)]

theorem seedsAt_eq (p : Nat) : seedsAt stakes p =
      { seed | seed.toNat % (extendedLength stakes).toNat = p } := by
  ext seed
  simp only [seedsAt, Set.mem_ofPred_eq, toInt_winningPos hne hpos hfits]
  omega

theorem exists_seed {p : Nat} (hp : (p : Int) < extendedLength stakes) :
    ∃ seed, seed ∈ seedsAt stakes p := by
  rw [seedsAt_eq hne hpos hfits]
  refine ⟨BitVec.ofNat 256 p, ?_⟩
  have hsmall : p < 2 ^ 256 := lt_trans (b := 2 ^ 63) (by omega) (by norm_num)
  show (BitVec.ofNat 256 p).toNat % _ = p
  rw [BitVec.toNat_ofNat, Nat.mod_eq_of_lt hsmall, Nat.mod_eq_of_lt (by omega)]

variable (order : WalletSort) (hreal : ∀ s ∈ stakes, s.walletHash ≠ jackpotPoolWalletHash)
  (hpool : 0 < sum64 (stakes.map StakeEntry.totalValue))

include hreal hpool

theorem runDrawBy_at {p : Nat} {seed : Hash} (hseed : seed ∈ seedsAt stakes p) :
    runDrawBy order stakes seed = drawOutcome (sum64 (stakes.map StakeEntry.totalValue))
        (sum64 (stakes.map StakeEntry.tokenCount)) (winningPos stakes seed)
        (ownerAt (stakeTape (order.sort stakes)) p) := by
  have hself := realStakes_eq_self hreal
  have hlt : tokenTotal stakes < 2 ^ 63 := by
    grind [extendedLength_eq]
  rw [runDrawBy_eq order seed (by rwa [hself]) (by rwa [hself]), hself,
    if_neg (Int64.not_le.mpr hpool), if_neg hne, show (winningPos stakes seed).toInt = p from hseed,
    Int.toNat_natCast]

theorem mem_electing {p : Nat} {w : WalletHash} : p ∈ electing order stakes w ↔
      (p : Int) < extendedLength stakes ∧ ownerAt (stakeTape (order.sort stakes)) p = some w := by
  constructor
  · rintro ⟨hp, seed, hseed, hwinner⟩
    rw [runDrawBy_at hne hpos hfits order hreal hpool hseed] at hwinner
    cases howner : ownerAt (stakeTape (order.sort stakes)) p with
    | none => simp [howner, drawOutcome, DrawResult.winner] at hwinner
    | some w' =>
      simp only [howner, drawOutcome, DrawResult.winner, head?_cons, Option.map_some] at hwinner
      exact ⟨hp, hwinner⟩
  · rintro ⟨hp, howner⟩
    obtain ⟨seed, hseed⟩ := exists_seed hne hpos hfits hp
    refine ⟨hp, seed, hseed, ?_⟩
    rw [runDrawBy_at hne hpos hfits order hreal hpool hseed, howner]
    rfl

theorem mem_rollingOver {p : Nat} : p ∈ rollingOver order stakes ↔
      (p : Int) < extendedLength stakes ∧ ownerAt (stakeTape (order.sort stakes)) p = none := by
  constructor
  · rintro ⟨hp, seed, hseed, hlost⟩
    rw [runDrawBy_at hne hpos hfits order hreal hpool hseed] at hlost
    cases howner : ownerAt (stakeTape (order.sort stakes)) p with
    | none => exact ⟨hp, rfl⟩
    | some w' => simp [howner, drawOutcome] at hlost
  · rintro ⟨hp, howner⟩
    obtain ⟨seed, hseed⟩ := exists_seed hne hpos hfits hp
    refine ⟨hp, seed, hseed, ?_⟩
    rw [runDrawBy_at hne hpos hfits order hreal hpool hseed, howner]
    rfl

omit hne hfits hreal hpool in
theorem tapeLength_sorted :
    (tapeLength (stakeTape (order.sort stakes)) : Int) = tokenTotal stakes := by
  rw [← tokenTotal_perm (order.perm stakes)]
  exact tapeLength_stakeTape fun s hs => (hpos s ((order.perm stakes).mem_iff.mp hs)).le

theorem ncard_electing (w : WalletHash) :
    ((electing order stakes w).ncard : Int) = tokensOf w stakes := by
  let tape := stakeTape (order.sort stakes)
  have hset : electing order stakes w = ↑(Finset.Ico (lengthBelow BitVec.toNat w tape)
      (lengthBelow BitVec.toNat w tape + ownedLength w tape)) := by
    ext p
    rw [mem_electing hne hpos hfits order hreal hpool, Finset.coe_Ico, Set.mem_Ico,
      ← ownerAt_sorted toNat_walletHash_injective (stakeTape_sorted order stakes)]
    refine ⟨And.right, fun howner => ⟨?_, howner⟩⟩
    have hp : p < tapeLength tape := ownerAt_ne_none.mp (howner ▸ Option.some_ne_none w)
    have hlength : (tapeLength tape : Int) = tokenTotal stakes := tapeLength_sorted hpos order
    rw [extendedLength_eq]
    omega
  rw [hset, Set.ncard_coe_finset, Nat.card_Ico, Nat.add_sub_cancel_left, ownedLength_sorted]
  exact ownedLength_stakeTape (fun s hs => (hpos s hs).le) w

theorem ncard_rollingOver :
    ((rollingOver order stakes).ncard : Int) = (winMultiplier.toInt - 1) * tokenTotal stakes := by
  have hlength := tapeLength_sorted hpos order
  have hset : rollingOver order stakes =
      ↑(Finset.Ico (tokenTotal stakes).toNat (extendedLength stakes).toNat) := by
    grind [mem_rollingOver, ownerAt_eq_none]
  have htotal := tokenTotal_pos hne hpos
  rw [hset, Set.ncard_coe_finset, Nat.card_Ico, extendedLength_eq,
    show winMultiplier.toInt = 10 from rfl]
  omega

end

/-- **The draw is fair.** Whatever the sort does with the stakes of one wallet,
the positions are shared out by tokens and the seeds evenly over the positions. -/
theorem runDrawBy_fair (order : WalletSort) (hne : stakes ≠ [])
    (hreal : ∀ s ∈ stakes, s.walletHash ≠ jackpotPoolWalletHash)
    (hpos : ∀ s ∈ stakes, 0 < s.tokenCount.toInt) (hvalue : ∀ s ∈ stakes, 0 < s.totalValue.toInt)
    (hsum : sumInt (stakes.map StakeEntry.totalValue) < 2 ^ 63)
    (hfits : winMultiplier.toInt * tokenTotal stakes < 2 ^ 63) : FairDraw order stakes := by
  have hvalues := sumInt_map_pos StakeEntry.totalValue hne hvalue
  have hpool64 : (sum64 (stakes.map StakeEntry.totalValue)).toInt =
      sumInt (stakes.map StakeEntry.totalValue) := toInt_sum64_of_fits (by omega) hsum
  have hpool : 0 < sum64 (stakes.map StakeEntry.totalValue) := by
    rw [Int64.lt_iff_toInt_lt, hpool64]
    exact hvalues
  have hlength := extendedLength_pos hne hpos
  have hon : ∀ seed, ∃ p : Nat, seed ∈ seedsAt stakes p ∧ (p : Int) < extendedLength stakes := by
    intro seed
    refine ⟨_, toInt_winningPos hne hpos hfits seed, ?_⟩
    have := Nat.mod_lt seed.toNat (show 0 < (extendedLength stakes).toNat by omega)
    omega
  refine
    { by_position := ?_
      on_tape := hon
      elects := ncard_electing hne hpos hfits order hreal hpool
      rolls_over := ncard_rollingOver hne hpos hfits order hreal hpool
      finds := ?_
      pays := ?_
      even := ?_ }
  · intro seed seed' hsame
    obtain ⟨p, hseed, _⟩ := hon seed
    have hseed' : seed' ∈ seedsAt stakes p := by
      rwa [seedsAt, Set.mem_ofPred_eq, ← hsame]
    rw [runDrawBy_at hne hpos hfits order hreal hpool hseed,
      runDrawBy_at hne hpos hfits order hreal hpool hseed', hsame]
  · intro pos hlo hhi
    have hperm := order.perm stakes
    rw [realStakes_eq_self hreal]
    rw [← tokenTotal_perm hperm] at hhi
    have hlt : tokenTotal (order.sort stakes) < 2 ^ 63 := by
      grind [extendedLength, extendedLength_eq, tokenTotal_perm]
    obtain ⟨e, he, _⟩ := findWinner_owner (fun s hs => (hpos s (hperm.mem_iff.mp hs)).le) hlt hlo hhi
    exact ⟨e, he⟩
  · intro seed
    obtain ⟨p, hseed, _⟩ := hon seed
    rw [runDrawBy_at hne hpos hfits order hreal hpool hseed]
    cases ownerAt (stakeTape (order.sort stakes)) p with
    | none => simp [drawOutcome, DrawResult.paid, hpool64]
    | some w => simp [drawOutcome, DrawResult.paid, hpool64]
  · intro p q hp hq
    rw [seedsAt_eq hne hpos hfits, seedsAt_eq hne hpos hfits,
      ncard_toNat_mod (by omega) (by omega), ncard_toNat_mod (by omega) (by omega)]
    split <;> split <;> omega

theorem scattered_draw_fair : FairDraw stableSort scatteredStakes ∧ tokensOf 1 scatteredStakes = 5 ∧
      tokensOf 2 scatteredStakes = 4 :=
  ⟨runDrawBy_fair stableSort (by decide) (by decide) (by decide) (by decide) (by decide) (by decide),
    by decide, by decide⟩

end

end FalconDraw.Draw
