/-
FalconDraw.Chain.CompressTheorems — outputs survive their compressed form.

Amounts are written without their trailing zeros, scripts without their opcodes,
and everything as variable-length quantities.
-/
import FalconDraw.Chain.UtxoCache

namespace FalconDraw.Chain

open Lib Wire Draw

/-! ## Numbers -/

theorem compressTxOutAmount_inj {a b : Nat} (ha : a < 2 ^ 64) (hb : b < 2 ^ 64)
    (hfita : amountCode a < 2 ^ 64) (hfitb : amountCode b < 2 ^ 64)
    (h : compressTxOutAmount a = compressTxOutAmount b) : a = b := by
  rw [← decompress_compressTxOutAmount_of_fits ha hfita, h,
    decompress_compressTxOutAmount_of_fits hb hfitb]

/-- Amounts whose code does not wrap are found again and have codes of their own. A
number is read back from its groups, and groups that do not overflow are the ones of
their number. -/
theorem amounts_and_groups_canonical : (∀ a ≤ 2 ^ 63 - 1, amountCode a < 2 ^ 64 →
      decompressTxOutAmount (compressTxOutAmount a) = a) ∧
    (∀ a ≤ 2 ^ 63 - 1, ∀ b ≤ 2 ^ 63 - 1, amountCode a < 2 ^ 64 → amountCode b < 2 ^ 64 →
      a ≠ b → compressTxOutAmount a ≠ compressTxOutAmount b) ∧
    (∀ n < 2 ^ 64, ∀ rest : Bytes, deserializeVLQ (putVLQ n ++ rest) = (n, serializeSizeVLQ n)) ∧
    ∀ bytes : Bytes, vlqTerminated bytes = true → vlqValue bytes < 2 ^ 64 →
      bytes = putVLQ (deserializeVLQ bytes).1 := by
  refine ⟨?_, ?_, ?_, ?_⟩
  · intro a ha hfit
    exact decompress_compressTxOutAmount_of_fits (by omega) hfit
  · intro a ha b hb hfita hfitb hne heq
    exact hne (compressTxOutAmount_inj (by omega) (by omega) hfita hfitb heq)
  · intro n hn rest
    exact deserializeVLQ_putVLQ hn rest
  · intro bytes hterm hfit
    rw [deserializeVLQ, deserializeVLQFrom_eq 0 0 hterm hfit]
    exact (putVLQ_vlqValue hterm hfit).symm

/-- Seven and a half thousand million coins, and the longest encoding of a word. -/
theorem large_amount_and_longest_groups :
    decompressTxOutAmount (compressTxOutAmount 750000000000000001) = 750000000000000001 ∧
      ([0x80, 0xfe, 0xfe, 0xfe, 0xfe, 0xfe, 0xfe, 0xfe, 0xfe, 0x7f] : Bytes) =
        putVLQ (2 ^ 64 - 1) := by
  refine ⟨amounts_and_groups_canonical.1 _ (by decide) (by decide), ?_⟩
  exact amounts_and_groups_canonical.2.2.2 _ (by decide) (by decide)

/-! ## Outputs -/

theorem toUInt64_lt_of_le_max {amount : Int64} (h0 : 0 ≤ amount) (hmax : amount ≤ maxSatoshi) :
    amount.toUInt64.toNat < 2 ^ 60 := by
  have hnonneg : 0 ≤ amount.toInt := Int64.le_iff_toInt_le.mp h0
  have hcast := toNat_toUInt64_of_nonneg hnonneg
  have hle : amount.toInt ≤ maxSatoshi.toInt := Int64.le_iff_toInt_le.mp hmax
  have hval : maxSatoshi.toInt = 2100000000000000 := by decide
  omega

/-- A curve on which the valid keys are those with equal coordinates. -/
def parseDiagonal (key : Bytes) : Option Bytes :=
  if key.length = 65 ∧ byteAt key 0 = 0x04 ∧ slice key 1 33 = key.drop 33 then some key
  else if key.length = 33 ∧ byteAt key 0 = 0x02 ||| (byteAt key 32 &&& 0x01) then
    some (0x04 :: (key.drop 1 ++ key.drop 1))
  else none

theorem parseDiagonal_compressed (x y : Bytes) (hx : x.length = 32) (hy : y.length = 32)
    (hvalid : (parseDiagonal (0x04 :: (x ++ y))).isSome = true) :
    parseDiagonal ((0x02 ||| (byteAt y 31 &&& 0x01)) :: x) = some (0x04 :: (x ++ y)) := by
  have hlen : (0x04 :: (x ++ y) : Bytes).length = 65 := by
    rw [List.length_cons, List.length_append, hx, hy]
  have hslice : slice (0x04 :: (x ++ y)) 1 33 = x := slice_append_left hx
  have hdrop : (0x04 :: (x ++ y) : Bytes).drop 33 = y := by
    show (x ++ y).drop 32 = y
    rw [← hx, List.drop_left]
  have hsame : x = y := by
    grind [parseDiagonal]
  subst hsame
  have hshort : ((0x02 ||| (byteAt x 31 &&& 0x01)) :: x).length = 33 := by
    rw [List.length_cons, hx]
  unfold parseDiagonal
  rw [if_neg (fun h => absurd (hshort.symm.trans h.1) (by decide)), if_pos ⟨hshort, rfl⟩]
  rfl

def diagonalKeys : PubKeyLib := ⟨parseDiagonal, parseDiagonal_compressed⟩

def pubKeyEntry : UtxoEntry :=
  { amount := 5000000000
    pkScript := 0x41 :: 0x04 :: (List.replicate 64 0x07 ++ [0xac])
    blockHeight := 123456
    isCoinBase := true
    isModified := true }

end FalconDraw.Chain
