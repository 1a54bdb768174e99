/-
FalconDraw.Rpc.DrawTicketsTheorems — the tickets of a draw against its winner.

The query gathers the stakes of a wallet where its first stake appears, in the
order of transaction ids, and consensus sorts by wallet.
-/
import FalconDraw.Draw.TapeTheorems
import FalconDraw.Chain.PendingVdfTheorems
import FalconDraw.Rpc.DrawTickets

namespace FalconDraw.Rpc

open Lib Wire Draw Chain List

/-! ## The request -/

theorem hexValue_digitChar {n : Nat} (h : n < 16) : hexValue (Nat.digitChar n) = some n := by
  have hall : ∀ n < 16, hexValue (Nat.digitChar n) = some n := by decide
  exact hall n h

theorem decodeHex_hexDigits : ∀ bytes : Bytes, decodeHex (bytes.flatMap hexDigits) = some bytes
  | [] => rfl
  | b :: bytes => by
      have hb : b.toNat < 256 := b.toNat_lt
      have hsum : 16 * (b.toNat / 16) + b.toNat % 16 = b.toNat := Nat.div_add_mod _ _
      simp only [flatMap_cons, hexDigits, cons_append, nil_append, decodeHex]
      rw [hexValue_digitChar (by omega), hexValue_digitChar (by omega), decodeHex_hexDigits bytes]
      show some (UInt8.ofNat (16 * (b.toNat / 16) + b.toNat % 16) :: bytes) = some (b :: bytes)
      rw [hsum, UInt8.ofNat_toNat]

def ticketRequest (w : WalletHash) (D : Nat) : GetDrawTicketsCmd :=
  ⟨encodeHex (WalletHash.toBytes w), D⟩

theorem decodeWalletHash_request (w : WalletHash) :
    decodeWalletHash (encodeHex (WalletHash.toBytes w)) = some w := by
  rw [decodeWalletHash, encodeHex, String.toList_ofList, decodeHex_hexDigits]
  simp

/-! ## The stakers -/

def ticketTape (stakers : List DrawStakeInfo) : List (WalletHash × Nat) :=
  stakers.map fun d => (d.walletHash, d.tokens.toInt.toNat)

theorem ticketTape_cons (d : DrawStakeInfo) (stakers : List DrawStakeInfo) :
    ticketTape (d :: stakers) = (d.walletHash, d.tokens.toInt.toNat) :: ticketTape stakers := rfl

theorem ticketTape_addStake {e : StakeEntry} (he : 0 ≤ e.tokenCount.toInt) :
    ∀ {stakers : List DrawStakeInfo}, (∀ d ∈ stakers, 0 ≤ d.tokens.toInt) →
      (tapeLength (ticketTape stakers) : Int) + e.tokenCount.toInt < 2 ^ 63 →
      ticketTape (addStake e stakers) =
          addSegment e.walletHash e.tokenCount.toInt.toNat (ticketTape stakers) ∧
        ∀ d ∈ addStake e stakers, 0 ≤ d.tokens.toInt
  | [], _, _ => by
      refine ⟨rfl, ?_⟩
      intro d hd
      obtain rfl := mem_singleton.mp hd
      exact he
  | d :: stakers, hpos, hfits => by
      have hd := hpos d mem_cons_self
      rw [ticketTape_cons, tapeLength_cons] at hfits
      rw [addStake, ticketTape_cons, addSegment]
      split
      · have hadd : (d.tokens + e.tokenCount).toInt = d.tokens.toInt + e.tokenCount.toInt :=
          toInt_add_of_fits (by omega) (by omega)
        refine ⟨?_, ?_⟩
        · grind [ticketTape_cons]
        · grind
      · obtain ⟨htape, hpos'⟩ := ticketTape_addStake he
          (fun d' hd' => hpos d' (mem_cons_of_mem _ hd'))
          (show (tapeLength (ticketTape stakers) : Int) + e.tokenCount.toInt < 2 ^ 63 by omega)
        refine ⟨?_, ?_⟩
        · rw [ticketTape_cons, htape]
        · grind

theorem ticketTape_stakers {stakes : List StakeEntry}
    (hpos : ∀ s ∈ stakes, 0 ≤ s.tokenCount.toInt) (hfits : tokenTotal stakes < 2 ^ 63) :
    ticketTape (stakes.foldl (fun ds e => addStake e ds) []) = gather (stakeTape stakes) ∧
      ∀ d ∈ stakes.foldl (fun ds e => addStake e ds) [], 0 ≤ d.tokens.toInt := by
  induction stakes using reverseRecOn with
  | nil => exact ⟨rfl, fun d hd => nomatch hd⟩
  | append_singleton stakes s ih =>
    have hs := hpos s (mem_append_right _ (mem_singleton_self _))
    have hold : ∀ t ∈ stakes, 0 ≤ t.tokenCount.toInt :=
      fun t ht => hpos t (mem_append_left _ ht)
    have htotal : tokenTotal (stakes ++ [s]) = tokenTotal stakes + s.tokenCount.toInt := by
      simp [tokenTotal]
    rw [htotal] at hfits
    obtain ⟨htape, hnonneg⟩ := ih hold (by omega)
    have hlen : (tapeLength (ticketTape (stakes.foldl (fun ds e => addStake e ds) [])) : Int) =
        tokenTotal stakes := by
      rw [htape, tapeLength_gather, tapeLength_stakeTape hold]
    have hstep := ticketTape_addStake hs hnonneg (by omega)
    have hsplit : stakeTape (stakes ++ [s]) =
        stakeTape stakes ++ [(s.walletHash, s.tokenCount.toInt.toNat)] := by
      rw [stakeTape, map_append]
      rfl
    rw [foldl_append, foldl_cons, foldl_nil, hstep.1, htape, hsplit,
      gather_append_singleton]
    exact ⟨rfl, hstep.2⟩

/-! ## The range of a wallet -/

theorem ticketStep_foldl_snd (w : WalletHash) : ∀ (stakers : List DrawStakeInfo)
    (acc : Int64 × Int64), (stakers.foldl (ticketStep w) acc).2 =
      (stakers.map DrawStakeInfo.tokens).foldl (· + ·) acc.2
  | [], _ => rfl
  | _ :: stakers, _ => ticketStep_foldl_snd w stakers _

theorem ticketStep_foldl_fst {w : WalletHash} : ∀ {stakers : List DrawStakeInfo}
    {acc : Int64 × Int64}, (∀ d ∈ stakers, d.walletHash ≠ w) →
    (stakers.foldl (ticketStep w) acc).1 = acc.1
  | [], _, _ => rfl
  | d :: stakers, acc, h => by
      rw [foldl_cons, ticketStep_foldl_fst fun d hd => h d (mem_cons_of_mem _ hd),
        ticketStep, if_neg (h d mem_cons_self)]

theorem ticketRange_eq {w : WalletHash} {before behind : List DrawStakeInfo} {d : DrawStakeInfo}
    (hd : d.walletHash = w) (hbehind : ∀ d' ∈ behind, d'.walletHash ≠ w) :
    ticketRange w (before ++ d :: behind) = (sum64 (before.map DrawStakeInfo.tokens),
        sum64 ((before ++ d :: behind).map DrawStakeInfo.tokens)) := by
  refine Prod.ext ?_ (ticketStep_foldl_snd w _ (0, 0))
  rw [ticketRange, foldl_append, foldl_cons, ticketStep_foldl_fst hbehind, ticketStep,
    if_pos hd]
  exact ticketStep_foldl_snd w before (0, 0)

/-! ## The reply -/

/-- A draw on the best chain with a recorded result, whose rows are those of
validated stakes. -/
structure SettledDraw (idx : StakeIndex) (tip : BlockNode) (D : Nat) (record : VDFRecord)
    (hash : Hash) : Prop where
  draw   : isDrawBlock D = true
  record : idx.vdfResults.get D = some record
  block  : blockHashByHeight tip D = some hash
  height : tip.height < 2 ^ 31
  whole  : StakesWhole idx

section

variable {idx : StakeIndex} {tip : BlockNode} {D : Nat} {record : VDFRecord} {hash : Hash}
  {w : WalletHash}

theorem SettledDraw.stakes_pos (h : SettledDraw idx tip D record hash) :
    ∀ e ∈ idx.fetchPoolStakeEntries D, 0 < e.tokenCount.toInt := by
  intro e he
  obtain ⟨r, hr, rfl⟩ := mem_map.mp he
  have hmin := (h.whole D r hr).2
  have hunit : satoshiPerBitcoin.toInt = 100000000 := by decide
  show 0 < (r.2.amount / satoshiPerBitcoin).toInt
  rw [Int64.toInt_div_of_ne_right _ _ (by decide), hunit]
  generalize r.2.amount.toInt = amount at hmin
  rw [Int.tdiv_eq_ediv_of_nonneg (by omega)]
  omega

theorem SettledDraw.stakes_real (h : SettledDraw idx tip D record hash) :
    ∀ e ∈ idx.fetchPoolStakeEntries D, e.walletHash ≠ jackpotPoolWalletHash := by
  intro e he
  obtain ⟨r, hr, rfl⟩ := mem_map.mp he
  show r.2.walletHash ≠ jackpotPoolWalletHash
  exact (h.whole D r hr).1

theorem SettledDraw.toInt32_eq (h : SettledDraw idx tip D record hash) : toInt32 D = D := by
  have hle : D ≤ tip.height := by
    by_contra hlt
    have hblock := h.block
    rw [blockHashByHeight, BlockNode.ancestor, if_pos (by omega)] at hblock
    cases hblock
  exact toInt32_of_lt (Nat.lt_of_le_of_lt hle h.height)

theorem SettledDraw.fetchDrawAllStakers_eq (h : SettledDraw idx tip D record hash) :
    fetchDrawAllStakers idx D =
      (idx.fetchPoolStakeEntries D).foldl (fun ds e => addStake e ds) [] := by
  rw [fetchDrawAllStakers, filter_eq_self.mpr]
  intro e he
  simpa using h.stakes_real e he

theorem SettledDraw.handle_eq (h : SettledDraw idx tip D record hash)
    (htokens : fetchWalletTokensForDraw idx w D ≠ 0) :
    handleGetDrawTickets idx tip (ticketRequest w D) =
      .ok (drawTickets (fetchDrawAllStakers idx D) (ticketRequest w D) w hash record.output
        (fetchWalletTokensForDraw idx w D)) := by
  have hD := isDrawBlock_iff.mp h.draw
  have hcheck : ¬ ((ticketRequest w D).drawHeight = 0 ∨
      toInt32 (ticketRequest w D).drawHeight % drawInterval ≠ 0) := by
    show ¬ (D = 0 ∨ toInt32 D % drawInterval ≠ 0)
    rw [h.toInt32_eq]
    unfold drawInterval at *
    omega
  have hwallet : decodeWalletHash (ticketRequest w D).walletHash = some w :=
    decodeWalletHash_request w
  have hrecord : idx.vdfResults.get (ticketRequest w D).drawHeight = some record := h.record
  have hblock : blockHashByHeight tip (toInt32 (ticketRequest w D).drawHeight) = some hash := by
    show blockHashByHeight tip (toInt32 D) = some hash
    rw [h.toInt32_eq]
    exact h.block
  rw [handleGetDrawTickets, if_neg hcheck, hwallet]
  simp only [hrecord, hblock]
  exact if_neg htokens

theorem toInt_fetchWalletTokens {stakes : List StakeEntry}
    (hstakes : idx.fetchPoolStakeEntries D = stakes) (hpos : ∀ e ∈ stakes, 0 ≤ e.tokenCount.toInt)
    (hfits : tokenTotal stakes < 2 ^ 63) :
    (fetchWalletTokensForDraw idx w D).toInt = ownedLength w (stakeTape stakes) := by
  have hsub := filter_sublist (l := stakes) (p := fun e => decide (e.walletHash = w))
  have hpos' : ∀ e ∈ stakes.filter (fun e => e.walletHash = w), 0 ≤ e.tokenCount.toInt :=
    fun e he => hpos e (hsub.subset he)
  have htotal : tokenTotal (stakes.filter fun e => e.walletHash = w) ≤ tokenTotal stakes := by
    refine sumInt_le_of_sublist (hsub.map _) ?_
    intro y hy
    obtain ⟨e, he, rfl⟩ := mem_map.mp hy
    exact hpos e he
  have hlen := tapeLength_stakeTape hpos'
  have hsame : (stakeTape stakes).filter (fun s => s.1 = w) =
      stakeTape (stakes.filter fun e => e.walletHash = w) := by
    rw [stakeTape, filter_map]
    rfl
  rw [ownedLength, hsame, hlen, fetchWalletTokensForDraw, hstakes]
  exact toInt_sum64_tokens (by omega) (by omega)

theorem sum64_tokens {stakers : List DrawStakeInfo} (hpos : ∀ d ∈ stakers, 0 ≤ d.tokens.toInt)
    (hfits : tapeLength (ticketTape stakers) < 2 ^ 63) :
    (sum64 (stakers.map DrawStakeInfo.tokens)).toInt = tapeLength (ticketTape stakers) := by
  have hsum : sumInt (stakers.map DrawStakeInfo.tokens) = tapeLength (ticketTape stakers) := by
    clear hfits
    induction stakers with
    | nil => rfl
    | cons d stakers ih => grind [sumInt_cons, ticketTape_cons, tapeLength_cons]
  rw [toInt_sum64_of_fits (by omega) (by omega), hsum]

theorem drawTickets_won {stakers : List DrawStakeInfo} {cmd : GetDrawTicketsCmd} {output : Nat}
    {tokens start total : Int64} (hrange : ticketRange w stakers = (start, total))
    (htotal : 0 < total) :
    (drawTickets stakers cmd w hash output tokens).won = true ↔
      selectWinnerPos (drawSeed hash output) (total * winMultiplier) < total ∧
        start ≤ selectWinnerPos (drawSeed hash output) (total * winMultiplier) ∧
        selectWinnerPos (drawSeed hash output) (total * winMultiplier) < start + tokens := by
  simp only [drawTickets, hrange, if_pos htotal, Bool.and_eq_true, decide_eq_true_eq, and_assoc]

/-- A staker stands in the list of stakers where its segment is on the gathered tape. -/
theorem stakers_split {stakes : List StakeEntry} (hpos : ∀ s ∈ stakes, 0 < s.tokenCount.toInt)
    (hfits : tokenTotal stakes < 2 ^ 63) (hw : w ∈ stakes.map StakeEntry.walletHash) :
    ∃ front n back, gather (stakeTape stakes) = ticketTape front ++ (w, n) :: ticketTape back ∧
      ticketRange w (stakes.foldl (fun ds e => addStake e ds) []) =
        (sum64 (front.map DrawStakeInfo.tokens), sum64 (stakes.map StakeEntry.tokenCount)) ∧
      (sum64 (front.map DrawStakeInfo.tokens)).toInt = tapeLength (ticketTape front) ∧
      (n = ownedLength w (stakeTape stakes) ∧ 0 < n) ∧
      (tapeLength (ticketTape front) + n : Int) ≤ tokenTotal stakes := by
  have hnonneg : ∀ e ∈ stakes, 0 ≤ e.tokenCount.toInt := fun e he => (hpos e he).le
  obtain ⟨htape, hstakers⟩ := ticketTape_stakers hnonneg hfits
  generalize stakes.foldl (fun ds e => addStake e ds) [] = stakers at htape hstakers ⊢
  have hnodup := nodup_owners_gather (stakeTape stakes)
  have hlen : (tapeLength (gather (stakeTape stakes)) : Int) = tokenTotal stakes := by
    rw [tapeLength_gather, tapeLength_stakeTape hnonneg]
  have htotal : sum64 (stakers.map DrawStakeInfo.tokens) =
      sum64 (stakes.map StakeEntry.tokenCount) := by
    apply Int64.toInt_inj.mp
    rw [sum64_tokens hstakers (by rw [htape]; omega), htape, hlen,
      toInt_sum64_tokens (by omega) hfits]
  obtain ⟨d, hd, rfl⟩ : ∃ d ∈ stakers, d.walletHash = w := by
    have hmem : w ∈ (gather (stakeTape stakes)).map Prod.fst := by
      rw [mem_owners_gather, stakeTape, map_map]
      exact hw
    rw [← htape, ticketTape, map_map] at hmem
    exact mem_map.mp hmem
  obtain ⟨front, back, rfl⟩ := append_of_mem hd
  rw [← htape, ticketTape, map_append, map_cons] at hnodup hlen ⊢
  have hback : ∀ d' ∈ back, d'.walletHash ≠ d.walletHash := by
    intro d' hd' heq
    simp only [map_append, map_cons, nodup_append, nodup_cons] at hnodup
    exact hnodup.2.1.1 (mem_map.mpr ⟨_, mem_map.mpr ⟨d', hd', rfl⟩, heq⟩)
  have howned : d.tokens.toInt.toNat = ownedLength d.walletHash (stakeTape stakes) := by
    rw [← ownedLength_gather, ← htape, ticketTape, map_append, map_cons]
    exact (ownedLength_of_split hnodup).symm
  have hdpos : 0 < d.tokens.toInt.toNat := by
    obtain ⟨e, he, hew⟩ := mem_map.mp hw
    have hseg : (e.walletHash, e.tokenCount.toInt.toNat) ∈ stakeTape stakes :=
      mem_map.mpr ⟨e, he, rfl⟩
    have hle := le_ownedLength hseg
    have := hpos e he
    rw [hew] at hle
    omega
  rw [tapeLength_append, tapeLength_cons] at hlen
  refine ⟨front, _, back, rfl, ?_, ?_, ⟨howned, hdpos⟩, ?_⟩
  · rw [ticketRange_eq rfl hback, htotal]
  · refine sum64_tokens (fun d' hd' => hstakers d' (mem_append_left _ hd')) ?_
    unfold ticketTape
    omega
  · unfold ticketTape
    omega

/-- The reply to a staker: its range is its segment of the gathered tape, and it
has won if it owns the winning position there. -/
theorem SettledDraw.reply (h : SettledDraw idx tip D record hash) {stakes : List StakeEntry}
    (hstakes : idx.fetchPoolStakeEntries D = stakes) (hfits : tokenTotal stakes < 2 ^ 63)
    (hw : w ∈ stakes.map StakeEntry.walletHash) :
    ∃ (r : GetDrawTicketsResult) (before : List (WalletHash × Nat)) (n : Nat)
      (behind : List (WalletHash × Nat)), handleGetDrawTickets idx tip (ticketRequest w D) = .ok r ∧
      gather (stakeTape stakes) = before ++ (w, n) :: behind ∧
      r.rangeStart.toInt = tapeLength before ∧ r.rangeEnd.toInt = tapeLength before + n ∧
      (r.won = true ↔ ownerAt (gather (stakeTape stakes))
        (winningPos stakes (drawSeed hash record.output)).toInt.toNat = some w) := by
  have hpos := h.stakes_pos
  have hall := h.fetchDrawAllStakers_eq
  rw [hstakes] at hpos hall
  obtain ⟨front, n, back, hgather, hrange, hstart, ⟨hn, hn0⟩, hle⟩ := stakers_split hpos hfits hw
  rw [← hall] at hrange
  have htokens : (fetchWalletTokensForDraw idx w D).toInt = n := by
    rw [toInt_fetchWalletTokens hstakes (fun e he => (hpos e he).le) hfits, hn]
  have hne : fetchWalletTokensForDraw idx w D ≠ 0 := by
    intro h0
    rw [h0, Int64.toInt_zero] at htokens
    omega
  have hend : (sum64 (front.map DrawStakeInfo.tokens) + fetchWalletTokensForDraw idx w D).toInt =
      tapeLength (ticketTape front) + n := by
    rw [toInt_add_of_fits, hstart, htokens] <;> omega
  refine ⟨_, ticketTape front, n, ticketTape back, h.handle_eq hne, hgather, ?_, ?_, ?_⟩
  · rw [drawTickets, hrange]
    exact hstart
  · rw [drawTickets, hrange]
    exact hend
  · have htotal := @toInt_sum64_tokens stakes (by omega) hfits
    have htotal_pos : 0 < sum64 (stakes.map StakeEntry.tokenCount) := by
      rw [Int64.lt_iff_toInt_lt, htotal, Int64.toInt_zero]
      omega
    have hposition : 0 ≤ (winningPos stakes (drawSeed hash record.output)).toInt :=
      selectWinnerPos_nonneg _ (extended_ne_zero (by omega) hfits)
    rw [ownerAt_iff_of_split (nodup_owners_gather _) hgather, drawTickets_won hrange htotal_pos,
      ← winningPos, Int64.lt_iff_toInt_lt, Int64.lt_iff_toInt_lt, Int64.le_iff_toInt_le, htotal,
      hstart, hend]
    omega

/-- The position is in the reported range. -/
def GetDrawTicketsResult.InRange (r : GetDrawTicketsResult) (x : Int) : Prop :=
  r.rangeStart.toInt ≤ x ∧ x < r.rangeEnd.toInt

/-- The published tickets of a draw agree with `RunDraw`: every staker is told
that it won exactly when it is the winner, and the ranges are disjoint and cover
the positions of all tokens. -/
structure TicketsAgree (idx : StakeIndex) (tip : BlockNode) (D : Nat) (seed : Hash) : Prop where
  won : ∀ w ∈ (idx.fetchPoolStakeEntries D).map StakeEntry.walletHash,
    ∃ r, handleGetDrawTickets idx tip (ticketRequest w D) = .ok r ∧
      (r.won = true ↔ (runDraw (idx.fetchPoolStakeEntries D) seed).winner = some w)
  disjoint : ∀ w ∈ (idx.fetchPoolStakeEntries D).map StakeEntry.walletHash,
    ∀ w' ∈ (idx.fetchPoolStakeEntries D).map StakeEntry.walletHash, w ≠ w' → ∀ r r',
      handleGetDrawTickets idx tip (ticketRequest w D) = .ok r →
      handleGetDrawTickets idx tip (ticketRequest w' D) = .ok r' →
      ∀ x, ¬ (r.InRange x ∧ r'.InRange x)
  cover : ∀ x : Int, (∃ w ∈ (idx.fetchPoolStakeEntries D).map StakeEntry.walletHash, ∃ r,
      handleGetDrawTickets idx tip (ticketRequest w D) = .ok r ∧ r.InRange x) ↔
    0 ≤ x ∧ x < tokenTotal (idx.fetchPoolStakeEntries D)

theorem SettledDraw.inRange_iff (h : SettledDraw idx tip D record hash) {stakes : List StakeEntry}
    (hstakes : idx.fetchPoolStakeEntries D = stakes) (hfits : tokenTotal stakes < 2 ^ 63)
    (hw : w ∈ stakes.map StakeEntry.walletHash) {r : GetDrawTicketsResult}
    (hr : handleGetDrawTickets idx tip (ticketRequest w D) = .ok r) (x : Int) :
    r.InRange x ↔ 0 ≤ x ∧ ownerAt (gather (stakeTape stakes)) x.toNat = some w := by
  obtain ⟨r', before, n, behind, hr', htape, hstart, hend, _⟩ := h.reply hstakes hfits hw
  cases hr.symm.trans hr'
  rw [ownerAt_iff_of_split (nodup_owners_gather _) htape, GetDrawTicketsResult.InRange, hstart,
    hend]
  omega

theorem owner_staked {stakes : List StakeEntry} {p : Nat}
    (h : ownerAt (gather (stakeTape stakes)) p = some w) :
    w ∈ stakes.map StakeEntry.walletHash := by
  obtain ⟨before, n, behind, htape, _⟩ := ownerAt_eq_some.mp h
  have hmem : w ∈ (gather (stakeTape stakes)).map Prod.fst := by
    rw [htape]
    simp
  rw [mem_owners_gather, stakeTape, map_map] at hmem
  exact hmem

theorem exists_owner {stakes : List StakeEntry} (hpos : ∀ e ∈ stakes, 0 ≤ e.tokenCount.toInt)
    {p : Nat} : p < tokenTotal stakes ↔ ∃ w, ownerAt (gather (stakeTape stakes)) p = some w := by
  rw [← tapeLength_stakeTape hpos, ← tapeLength_gather, Int.ofNat_lt, ← ownerAt_ne_none,
    Option.ne_none_iff_exists']

/-- The tickets of a settled draw agree with its outcome exactly when the tokens
can be counted in an `int64` and whoever owns the winning position on the tape
of first appearances owns it on the tape in wallet order, with a pool to win. -/
theorem tickets_agree_iff (idx : StakeIndex) (tip : BlockNode) (D : Nat) (record : VDFRecord)
    (hash : Hash) (h : SettledDraw idx tip D record hash) :
    TicketsAgree idx tip D (drawSeed hash record.output) ↔
      tokenTotal (idx.fetchPoolStakeEntries D) < 2 ^ 63 ∧
        ∀ w, ownerAt (gather (stakeTape (idx.fetchPoolStakeEntries D)))
            (winningPos (idx.fetchPoolStakeEntries D)
              (drawSeed hash record.output)).toInt.toNat = some w →
          0 < sum64 ((idx.fetchPoolStakeEntries D).map StakeEntry.totalValue) ∧
            ownerAt (stakeTape ((idx.fetchPoolStakeEntries D).insertionSort
                fun a b => a.walletHash ≤ b.walletHash))
              (winningPos (idx.fetchPoolStakeEntries D)
                (drawSeed hash record.output)).toInt.toNat = some w := by
  have hpos := h.stakes_pos
  have hnonneg : ∀ e ∈ idx.fetchPoolStakeEntries D, 0 ≤ e.tokenCount.toInt :=
    fun e he => (hpos e he).le
  constructor
  · intro hagree
    have hfits : tokenTotal (idx.fetchPoolStakeEntries D) < 2 ^ 63 := by
      -- the largest position is below the end of no range
      by_contra hbig
      obtain ⟨w, _, r, _, hin⟩ := (hagree.cover (2 ^ 63 - 1)).mpr ⟨by decide, by omega⟩
      have := Int64.toInt_lt r.rangeEnd
      have := hin.2
      omega
    refine ⟨hfits, ?_⟩
    intro w howner
    obtain ⟨r, _, _, _, hr, _, _, _, hwon⟩ := h.reply rfl hfits (owner_staked howner)
    obtain ⟨r', hr', hwinner⟩ := hagree.won w (owner_staked howner)
    cases hr.symm.trans hr'
    exact (runDraw_winner h.stakes_real hpos hfits).mp (hwinner.mp (hwon.mpr howner))
  · rintro ⟨hfits, hsame⟩
    refine ⟨?_, ?_, ?_⟩
    · intro w hw
      obtain ⟨r, _, _, _, hr, _, _, _, hwon⟩ := h.reply rfl hfits hw
      refine ⟨r, hr, ?_⟩
      rw [hwon, runDraw_winner h.stakes_real hpos hfits]
      constructor
      · exact hsame w
      · rintro ⟨_, howner⟩
        -- the position is on the tape, so somebody owns it in both orders
        have hperm := perm_insertionSort
          (fun a b : StakeEntry => a.walletHash ≤ b.walletHash) (idx.fetchPoolStakeEntries D)
        have hsorted := tapeLength_stakeTape fun s hs => hnonneg s (hperm.mem_iff.mp hs)
        have htotal := ((hperm.map StakeEntry.tokenCount).map Int64.toInt).sum_eq
        have hlt := ownerAt_ne_none.mp (Option.ne_none_iff_exists'.mpr ⟨w, howner⟩)
        obtain ⟨w', howner'⟩ := (exists_owner hnonneg).mp ((Int.ofNat_lt.mpr hlt).trans_eq
          (hsorted.trans htotal))
        cases howner.symm.trans (hsame w' howner').2
        exact howner'
    · intro w hw w' hw' hne r r' hr hr' x hboth
      have hx := ((h.inRange_iff rfl hfits hw hr x).mp hboth.1).2
      have hx' := ((h.inRange_iff rfl hfits hw' hr' x).mp hboth.2).2
      exact hne (Option.some_inj.mp (hx.symm.trans hx'))
    · intro x
      constructor
      · rintro ⟨w, hw, r, hr, hin⟩
        obtain ⟨h0, howner⟩ := (h.inRange_iff rfl hfits hw hr x).mp hin
        have hlt := (exists_owner hnonneg).mpr ⟨w, howner⟩
        omega
      · rintro ⟨h0, hlt⟩
        obtain ⟨w, howner⟩ := (exists_owner hnonneg).mp (show (x.toNat : Int) < _ by omega)
        have hw := owner_staked howner
        obtain ⟨r, _, _, _, hr, _⟩ := h.reply rfl hfits hw
        exact ⟨w, hw, r, hr, (h.inRange_iff rfl hfits hw hr x).mpr ⟨h0, howner⟩⟩

end

/-! ## Two wallets -/

def stakeFor (wallet : WalletHash) (coin : Nat) (amount : Int64) (drawHeight : Nat) : Tx :=
  let tx := stakeFrom coin amount drawHeight
  { tx with msgTx := { tx.msgTx with
      txOut := ⟨0, makePoolStakingScript ⟨wallet, amount, drawHeight⟩⟩ :: tx.msgTx.txOut.tail } }

/-- Two wallets stake 17 FDRW each for draw 108, the first one with the smaller
transaction id. Wallet 1 wins. -/
def twoWalletRun (first second : WalletHash) : List Block :=
  fundedBlocks ++ lateBlock 102 [idleCoinbase, stakeFor first 0 1700000000 108,
      stakeFor second 1 1700000000 108] :: idleBlocks 103 6 ++
    [settlingBlock 109 108 1 ⟨3400000000, true, 1⟩]

set_option maxRecDepth 4000 in
/-- With the wallets in order of their ids the tickets agree. -/
theorem ordered_wallets_agree : ∃ s record hash,
      runBlocks youngMainNet (genesisState (lateInfo 0)) (twoWalletRun 1 2) = .ok s ∧
      SettledDraw s.idx s.tip 108 record hash ∧
      TicketsAgree s.idx s.tip 108 (drawSeed hash record.output) := by
  obtain ⟨s, hrun, hrecord, hhash, hheight, htotal, howner, hpool, howner'⟩ : ∃ s,
      runBlocks youngMainNet (genesisState (lateInfo 0)) (twoWalletRun 1 2) = .ok s ∧
      s.idx.vdfResults.get 108 = some ⟨109, some 1109, 10, 1⟩ ∧
      blockHashByHeight s.tip 108 = some 1 ∧ s.tip.height = 109 ∧
      tokenTotal (s.idx.fetchPoolStakeEntries 108) = 34 ∧
      ownerAt (gather (stakeTape (s.idx.fetchPoolStakeEntries 108)))
        (winningPos (s.idx.fetchPoolStakeEntries 108) (drawSeed 1 1)).toInt.toNat = some 1 ∧
      0 < sum64 ((s.idx.fetchPoolStakeEntries 108).map StakeEntry.totalValue) ∧
      ownerAt (stakeTape ((s.idx.fetchPoolStakeEntries 108).insertionSort
          fun a b => a.walletHash ≤ b.walletHash))
        (winningPos (s.idx.fetchPoolStakeEntries 108) (drawSeed 1 1)).toInt.toNat = some 1 := by
    decide +kernel
  have hdraw : SettledDraw s.idx s.tip 108 ⟨109, some 1109, 10, 1⟩ 1 :=
    ⟨by decide, hrecord, hhash, by omega, Reachable.stakesWhole ⟨_, hrun⟩⟩
  refine ⟨s, _, _, hrun, hdraw, (tickets_agree_iff _ _ _ _ _ hdraw).mpr ⟨by omega, ?_⟩⟩
  intro w hw
  cases howner.symm.trans hw
  exact ⟨hpool, howner'⟩

set_option maxRecDepth 4000 in
/-- With the wallets in the other order wallet 1 wins and wallet 2 is told that
it has. -/
theorem wrong_wallet_won : ∃ s record hash r₁ r₂,
      runBlocks youngMainNet (genesisState (lateInfo 0)) (twoWalletRun 2 1) = .ok s ∧
      SettledDraw s.idx s.tip 108 record hash ∧
      (runDraw (s.idx.fetchPoolStakeEntries 108) (drawSeed hash record.output)).winner = some 1 ∧
      handleGetDrawTickets s.idx s.tip (ticketRequest 1 108) = .ok r₁ ∧ r₁.won = false ∧
      handleGetDrawTickets s.idx s.tip (ticketRequest 2 108) = .ok r₂ ∧ r₂.won = true := by
  obtain ⟨s, hrun, hrecord, hhash, hheight, hwinner, ⟨r₁, h₁⟩, ⟨r₂, h₂⟩⟩ : ∃ s,
      runBlocks youngMainNet (genesisState (lateInfo 0)) (twoWalletRun 2 1) = .ok s ∧
      s.idx.vdfResults.get 108 = some ⟨109, some 1109, 10, 1⟩ ∧
      blockHashByHeight s.tip 108 = some 1 ∧ s.tip.height = 109 ∧
      (runDraw (s.idx.fetchPoolStakeEntries 108) (drawSeed 1 1)).winner = some 1 ∧
      (∃ r, handleGetDrawTickets s.idx s.tip (ticketRequest 1 108) = .ok r ∧ r.won = false) ∧
      ∃ r, handleGetDrawTickets s.idx s.tip (ticketRequest 2 108) = .ok r ∧ r.won = true := by
    decide +kernel
  have hdraw : SettledDraw s.idx s.tip 108 ⟨109, some 1109, 10, 1⟩ 1 :=
    ⟨by decide, hrecord, hhash, by omega, Reachable.stakesWhole ⟨_, hrun⟩⟩
  exact ⟨s, _, _, r₁, r₂, hrun, hdraw, hwinner, h₁.1, h₁.2, h₂⟩

end FalconDraw.Rpc
