/-
FalconDraw.Chain.Compress — the compressed form of an output in the database
(blockchain/compress.go).

Amounts lose their trailing zeros, standard scripts lose their opcodes, and both
are written as variable-length quantities.
-/
import FalconDraw.Lib.Vlq

namespace FalconDraw.Chain

open Lib List

/-! ## Amounts -/

/-- The loop of `compressTxOutAmount` with `k` rounds left: the amount and the
zeros taken off. -/
def stripZeros : Nat → Nat → Nat × Nat
  | 0, amount => (amount, 0)
  | k + 1, amount =>
      if amount % 10 = 0 then
        let r := stripZeros k (amount / 10)
        (r.1, r.2 + 1)
      else (amount, 0)

def compressTxOutAmount (amount : Nat) : Nat :=
  if amount = 0 then 0
  else
    let (amount, exponent) := stripZeros 9 amount
    if exponent < 9 then
      let lastDigit := amount % 10
      (1 + 10 * (9 * (amount / 10) + lastDigit - 1) + exponent) % 2 ^ 64
    else (10 + 10 * (amount - 1)) % 2 ^ 64

def decompressTxOutAmount (amount : Nat) : Nat :=
  if amount = 0 then 0
  else
    let amount := amount - 1
    let exponent := amount % 10
    let amount := amount / 10
    let n := if exponent < 9 then amount / 9 * 10 + (amount % 9 + 1) else amount + 1
    n * 10 ^ exponent % 2 ^ 64

theorem stripZeros_spec : ∀ (k amount : Nat),
    (stripZeros k amount).1 * 10 ^ (stripZeros k amount).2 = amount ∧ (stripZeros k amount).2 ≤ k ∧
      ((stripZeros k amount).2 < k → (stripZeros k amount).1 % 10 ≠ 0)
  | 0, amount => by simp [stripZeros]
  | k + 1, amount => by
      rw [stripZeros]
      split
      case isTrue hzero =>
        obtain ⟨hval, hle, hdigit⟩ := stripZeros_spec k (amount / 10)
        refine ⟨?_, by dsimp only; omega, fun h => hdigit (by dsimp only at h; omega)⟩
        rw [Nat.pow_succ, ← Nat.mul_assoc, hval]
        omega
      case isFalse hdigit => exact ⟨by simp, Nat.zero_le _, fun _ => hdigit⟩

/-- What `compressTxOutAmount` returns where its arithmetic does not wrap. -/
def amountCode (amount : Nat) : Nat :=
  if amount = 0 then 0
  else
    let (amount, exponent) := stripZeros 9 amount
    if exponent < 9 then 1 + 10 * (9 * (amount / 10) + amount % 10 - 1) + exponent
    else 10 + 10 * (amount - 1)

theorem compressTxOutAmount_eq (amount : Nat) :
    compressTxOutAmount amount = amountCode amount % 2 ^ 64 := by
  grind [compressTxOutAmount, amountCode]

theorem decompressTxOutAmount_digit {n e : Nat} (hdigit : n % 10 ≠ 0) (he : e < 9) :
    decompressTxOutAmount (1 + 10 * (9 * (n / 10) + n % 10 - 1) + e) = n * 10 ^ e % 2 ^ 64 := by
  obtain ⟨m, hm⟩ : ∃ m, m = 9 * (n / 10) + n % 10 - 1 := ⟨_, rfl⟩
  have hcode : 1 + 10 * m + e - 1 = 10 * m + e := by omega
  have hlow : (10 * m + e) % 10 = e := by omega
  have hhigh : (10 * m + e) / 10 = m := by omega
  have hback : m / 9 * 10 + (m % 9 + 1) = n := by omega
  rw [← hm, decompressTxOutAmount, if_neg (by omega)]
  simp only [hcode, hlow, hhigh, if_pos he, hback]

theorem decompressTxOutAmount_zeros {n : Nat} (hpos : 0 < n) :
    decompressTxOutAmount (10 + 10 * (n - 1)) = n * 10 ^ 9 % 2 ^ 64 := by
  have hlow : (10 + 10 * (n - 1) - 1) % 10 = 9 := by omega
  have hhigh : (10 + 10 * (n - 1) - 1) / 10 + 1 = n := by omega
  rw [decompressTxOutAmount, if_neg (by omega)]
  simp only [hlow, hhigh, Nat.lt_irrefl, if_false]

theorem stripZeros_pos {k amount : Nat} (hne : amount ≠ 0) : 0 < (stripZeros k amount).1 := by
  obtain ⟨hval, -⟩ := stripZeros_spec k amount
  rcases Nat.eq_zero_or_pos (stripZeros k amount).1 with hzero | hpos
  · rw [hzero, Nat.zero_mul] at hval
    exact absurd hval.symm hne
  · exact hpos

theorem decompress_amountCode (amount : Nat) :
    decompressTxOutAmount (amountCode amount) = amount % 2 ^ 64 := by
  unfold amountCode
  split
  case isTrue hzero => rw [hzero]; rfl
  case isFalse hne =>
    obtain ⟨hval, hle, hdigit⟩ := stripZeros_spec 9 amount
    have hpos := @stripZeros_pos 9 amount hne
    dsimp only
    split
    case isTrue he => rw [decompressTxOutAmount_digit (hdigit he) he, hval]
    case isFalse he => grind [decompressTxOutAmount_zeros]

theorem decompress_compressTxOutAmount_of_fits {amount : Nat} (h : amount < 2 ^ 64)
    (hfit : amountCode amount < 2 ^ 64) :
    decompressTxOutAmount (compressTxOutAmount amount) = amount := by
  rw [compressTxOutAmount_eq, Nat.mod_eq_of_lt hfit, decompress_amountCode, Nat.mod_eq_of_lt h]

theorem amountCode_lt {amount : Nat} (h : amount < 2 ^ 60) : amountCode amount < 2 ^ 64 := by
  unfold amountCode
  split
  case isTrue => decide
  case isFalse hne =>
    obtain ⟨hval, hle, -⟩ := stripZeros_spec 9 amount
    have hsmall : (stripZeros 9 amount).1 ≤ amount := by
      conv_rhs => rw [← hval]
      exact Nat.le_mul_of_pos_right _ (Nat.pow_pos (by decide))
    dsimp only
    split <;> omega

theorem decompress_compressTxOutAmount {amount : Nat} (h : amount < 2 ^ 60) :
    decompressTxOutAmount (compressTxOutAmount amount) = amount :=
  decompress_compressTxOutAmount_of_fits (by omega) (amountCode_lt h)

/-! ## Scripts -/

/-- The part of the curve library the compression uses: `ParsePubKey` followed
by `SerializeUncompressed`. A valid uncompressed key is found again from its x
coordinate and the parity of y. -/
structure PubKeyLib where
  parsePubKey : Bytes → Option Bytes
  parse_compressed : ∀ x y : Bytes, x.length = 32 → y.length = 32 →
    (parsePubKey (0x04 :: (x ++ y))).isSome = true →
    parsePubKey ((0x02 ||| (byteAt y 31 &&& 0x01)) :: x) = some (0x04 :: (x ++ y))

def isPubKeyHash (script : Bytes) : Option Bytes :=
  if script.length = 25 ∧ byteAt script 0 = 0x76 ∧ byteAt script 1 = 0xa9 ∧
      byteAt script 2 = 0x14 ∧ byteAt script 23 = 0x88 ∧ byteAt script 24 = 0xac then
    some (slice script 3 23)
  else none

def isScriptHash (script : Bytes) : Option Bytes :=
  if script.length = 23 ∧ byteAt script 0 = 0xa9 ∧ byteAt script 1 = 0x14 ∧
      byteAt script 22 = 0x87 then
    some (slice script 2 22)
  else none

/-- `isPubKey`: a key that parses, compressed or uncompressed. -/
def isPubKey (keys : PubKeyLib) (script : Bytes) : Option Bytes :=
  if script.length = 35 ∧ byteAt script 0 = 0x21 ∧ byteAt script 34 = 0xac ∧
      (byteAt script 1 = 0x02 ∨ byteAt script 1 = 0x03) ∧
      (keys.parsePubKey (slice script 1 34)).isSome = true then
    some (slice script 1 34)
  else if script.length = 67 ∧ byteAt script 0 = 0x41 ∧ byteAt script 66 = 0xac ∧
      byteAt script 1 = 0x04 ∧ (keys.parsePubKey (slice script 1 66)).isSome = true then
    some (slice script 1 66)
  else none

def numSpecialScripts : Nat := 6

def compressedScriptSize (keys : PubKeyLib) (pkScript : Bytes) : Nat :=
  if (isPubKeyHash pkScript).isSome then 21
  else if (isScriptHash pkScript).isSome then 21
  else if (isPubKey keys pkScript).isSome then 33
  else serializeSizeVLQ (pkScript.length + numSpecialScripts) + pkScript.length

def decodeCompressedScriptSize (serialized : Bytes) : Nat :=
  let (scriptSize, bytesRead) := deserializeVLQ serialized
  if bytesRead = 0 then 0
  else if scriptSize ≤ 1 then 21
  else if scriptSize ≤ 5 then 33
  else scriptSize - numSpecialScripts + bytesRead

def putCompressedScript (keys : PubKeyLib) (pkScript : Bytes) : Bytes :=
  match isPubKeyHash pkScript, isScriptHash pkScript, isPubKey keys pkScript with
  | some hash, _, _ => 0x00 :: hash
  | none, some hash, _ => 0x01 :: hash
  | none, none, some key =>
      if byteAt key 0 = 0x04 then (0x04 ||| (byteAt key 64 &&& 0x01)) :: slice key 1 33
      else byteAt key 0 :: slice key 1 33
  | none, none, none => putVLQ (pkScript.length + numSpecialScripts) ++ pkScript

/-- `decompressScript`; the empty script where the source returns nil. -/
def decompressScript (keys : PubKeyLib) (compressed : Bytes) : Bytes :=
  if compressed = [] then []
  else
    let (size, bytesRead) := deserializeVLQ compressed
    if size = 0 then
      [0x76, 0xa9, 0x14] ++ slice compressed bytesRead (bytesRead + 20) ++ [0x88, 0xac]
    else if size = 1 then
      [0xa9, 0x14] ++ slice compressed bytesRead (bytesRead + 20) ++ [0x87]
    else if size ≤ 3 then
      [0x21, UInt8.ofNat size] ++ slice compressed bytesRead (bytesRead + 32) ++ [0xac]
    else if size ≤ 5 then
      match keys.parsePubKey (UInt8.ofNat (size - 2) :: slice compressed 1 33) with
      | none => []
      | some key => 0x41 :: (key ++ [0xac])
    else slice compressed bytesRead (bytesRead + (size - numSpecialScripts))

/-! ### What the recognisers accept -/

theorem isPubKeyHash_some {script hash : Bytes} (h : isPubKeyHash script = some hash) :
    script = [0x76, 0xa9, 0x14] ++ hash ++ [0x88, 0xac] ∧ hash.length = 20 := by
  unfold isPubKeyHash at h
  split at h
  case isFalse => cases h
  case isTrue ht =>
    obtain ⟨hlen, h0, h1, h2, h23, h24⟩ := ht
    obtain rfl := Option.some.inj h
    refine ⟨?_, slice_length (by omega)⟩
    have hparts : script.drop 0 = byteAt script 0 :: byteAt script 1 :: byteAt script 2 ::
        (slice script 3 23 ++ byteAt script 23 :: byteAt script 24 :: script.drop 25) := by
      grind [drop_eq_byteAt_cons, drop_eq_slice_append]
    rw [drop_zero, h0, h1, h2, h23, h24, drop_eq_nil_of_le (by omega)] at hparts
    simpa using hparts

theorem isScriptHash_some {script hash : Bytes} (h : isScriptHash script = some hash) :
    script = [0xa9, 0x14] ++ hash ++ [0x87] ∧ hash.length = 20 := by
  unfold isScriptHash at h
  split at h
  case isFalse => cases h
  case isTrue ht =>
    obtain ⟨hlen, h0, h1, h22⟩ := ht
    obtain rfl := Option.some.inj h
    refine ⟨?_, slice_length (by omega)⟩
    have hparts : script.drop 0 = byteAt script 0 :: byteAt script 1 ::
        (slice script 2 22 ++ byteAt script 22 :: script.drop 23) := by
      grind [drop_eq_byteAt_cons, drop_eq_slice_append]
    rw [drop_zero, h0, h1, h22, drop_eq_nil_of_le (by omega)] at hparts
    simpa using hparts

theorem isPubKey_some {keys : PubKeyLib} {script key : Bytes}
    (h : isPubKey keys script = some key) :
    (∃ b x, (b = 0x02 ∨ b = 0x03) ∧ x.length = 32 ∧ key = b :: x ∧
      script = 0x21 :: (key ++ [0xac])) ∨
    (∃ x y, x.length = 32 ∧ y.length = 32 ∧ key = 0x04 :: (x ++ y) ∧
      script = 0x41 :: (key ++ [0xac]) ∧ (keys.parsePubKey key).isSome = true) := by
  have hcut : ∀ n, script.length = n + 3 → script = byteAt script 0 ::
      (slice script 1 (n + 2) ++ [byteAt script (n + 2)]) := by
    intro n hn
    have hparts : script.drop 0 = byteAt script 0 ::
        (slice script 1 (n + 2) ++ byteAt script (n + 2) :: script.drop (n + 3)) := by
      rw [drop_eq_byteAt_cons (by omega), drop_eq_slice_append (by omega : 0 + 1 ≤ n + 2),
        drop_eq_byteAt_cons (by omega : n + 2 < script.length)]
    rwa [drop_zero, drop_eq_nil_of_le (by omega)] at hparts
  have hhead : ∀ n, script.length = n + 3 → slice script 1 (n + 2) =
      byteAt script 1 :: slice script 2 (n + 2) := by
    grind [slice, drop_eq_byteAt_cons]
  unfold isPubKey at h
  split at h
  case isTrue ht => grind
  case isFalse =>
    split at h
    case isFalse => cases h
    case isTrue ht =>
      obtain ⟨hlen, h0, h66, h1, hparse⟩ := ht
      obtain rfl := Option.some.inj h
      refine .inr ⟨slice script 2 34, slice script 34 66, slice_length (by omega),
        slice_length (by omega), ?_, ?_, hparse⟩
      · rw [hhead 64 hlen, h1]
        have hsplit : slice script 2 66 = slice script 2 34 ++ slice script 34 66 := by
          show (script.drop 2).take (32 + 32) = (script.drop 2).take 32 ++ (script.drop 34).take 32
          rw [take_add, drop_drop]
        rw [hsplit]
      · rw [← h0, ← h66]
        exact hcut 64 hlen

/-- A recognised script is one byte and a payload that restore it; any other script
stands behind its length. -/
theorem putCompressedScript_cases (keys : PubKeyLib) (script : Bytes) :
    (∃ b x, b.toNat ≤ 5 ∧ putCompressedScript keys script = b :: x ∧
      compressedScriptSize keys script = (if b.toNat ≤ 1 then 21 else 33) ∧
      compressedScriptSize keys script = x.length + 1 ∧ decompressScript keys (b :: x) = script) ∨
    (putCompressedScript keys script = putVLQ (script.length + numSpecialScripts) ++ script ∧
      compressedScriptSize keys script =
        serializeSizeVLQ (script.length + numSpecialScripts) + script.length) := by
  have hbyte : ∀ {b : UInt8} (x : Bytes), b.toNat ≤ 5 → deserializeVLQ (b :: x) = (b.toNat, 1) :=
    fun x hb => deserializeVLQ_byte (by omega) x
  have hall : ∀ (b : UInt8) {x : Bytes} {n : Nat}, x.length = n → slice (b :: x) 1 (1 + n) = x := by
    simp [slice]
  rcases hp : isPubKeyHash script with _ | hash
  · rcases hs : isScriptHash script with _ | hash
    · rcases hk : isPubKey keys script with _ | key
      · exact .inr (by simp [putCompressedScript, compressedScriptSize, hp, hs, hk])
      · have hsize : compressedScriptSize keys script = 33 := by
          simp [compressedScriptSize, hp, hs, hk]
        simp only [putCompressedScript, hp, hs, hk, hsize]
        rcases isPubKey_some hk with ⟨b, x, hb, hx, rfl, rfl⟩ | ⟨x, y, hx, hy, rfl, rfl, hkey⟩
        · have hx' : slice (b :: x) 1 33 = x := hall b hx
          refine .inl ⟨b, x, ?_⟩
          rcases hb with rfl | rfl
          all_goals
            refine ⟨by decide, congrArg (_ :: ·) hx', rfl, by omega, ?_⟩
            simp [decompressScript, hbyte, hx']
        · have hlast : byteAt (0x04 :: (x ++ y)) 64 = byteAt y 31 := by
            show (x ++ y).getD 63 0 = y.getD 31 0
            rw [getD_eq_getElem?_getD, getD_eq_getElem?_getD,
              getElem?_append_right (by omega), hx]
          have hslice : slice (0x04 :: (x ++ y)) 1 33 = x := slice_append_left hx
          -- the low bit of a byte
          have hbit : byteAt y 31 &&& 0x01 = 0x00 ∨ byteAt y 31 &&& 0x01 = 0x01 := by
            rcases Nat.mod_two_eq_zero_or_one (byteAt y 31).toNat with h | h
            · exact .inl (UInt8.toNat_inj.mp (by simpa using h))
            · exact .inr (UInt8.toNat_inj.mp (by simpa using h))
          have hparse := keys.parse_compressed x y hx hy hkey
          rw [if_pos (show byteAt (0x04 :: (x ++ y)) 0 = 0x04 from rfl), hlast, hslice]
          have hx' : ∀ b : UInt8, slice (b :: x) 1 33 = x := fun b => hall b hx
          rcases hbit with hbit | hbit
          · have hkey : keys.parsePubKey (0x02 :: x) = _ := hbit ▸ hparse
            refine .inl ⟨0x04, x, by decide, by rw [hbit]; rfl, rfl, by omega, ?_⟩
            simp [decompressScript, hbyte, hx', hkey]
          · have hkey : keys.parsePubKey (0x03 :: x) = _ := hbit ▸ hparse
            refine .inl ⟨0x05, x, by decide, by rw [hbit]; rfl, rfl, by omega, ?_⟩
            simp [decompressScript, hbyte, hx', hkey]
    · obtain ⟨hscript, hlen⟩ := isScriptHash_some hs
      have hsize : compressedScriptSize keys script = 21 := by
        simp [compressedScriptSize, hp, hs]
      refine .inl ⟨0x01, hash, by decide, ?_, hsize, by omega, ?_⟩
      · simp only [putCompressedScript, hp, hs]
      · simp [decompressScript, hbyte, hall _ hlen, hscript]
  · obtain ⟨hscript, hlen⟩ := isPubKeyHash_some hp
    have hsize : compressedScriptSize keys script = 21 := by
      simp [compressedScriptSize, hp]
    refine .inl ⟨0x00, hash, by decide, ?_, hsize, by omega, ?_⟩
    · simp only [putCompressedScript, hp]
    · simp [decompressScript, hbyte, hall _ hlen, hscript]

theorem putCompressedScript_length (keys : PubKeyLib) (script : Bytes) :
    (putCompressedScript keys script).length = compressedScriptSize keys script := by
  rcases putCompressedScript_cases keys script with ⟨b, x, _, hput, _, hsize, _⟩ | ⟨hput, hsize⟩
  · rw [hput, hsize, length_cons]
  · rw [hput, hsize, length_append, putVLQ_length]

theorem decodeCompressedScriptSize_put (keys : PubKeyLib) {script : Bytes}
    (h : script.length + numSpecialScripts < 2 ^ 64) (rest : Bytes) :
    decodeCompressedScriptSize (putCompressedScript keys script ++ rest) =
      compressedScriptSize keys script := by
  unfold decodeCompressedScriptSize
  rcases putCompressedScript_cases keys script with ⟨b, x, hb, hput, hsize, _⟩ | ⟨hput, hsize⟩
  · rw [hput, hsize, cons_append, deserializeVLQ_byte (by omega)]
    simp [hb]
  · have hpos := serializeSizeVLQ_pos (script.length + numSpecialScripts)
    rw [hput, hsize, append_assoc, deserializeVLQ_putVLQ h]
    unfold numSpecialScripts at *
    simp only
    rw [if_neg (by omega), if_neg (by omega), if_neg (by omega)]
    omega

theorem decompressScript_put (keys : PubKeyLib) {script : Bytes}
    (h : script.length + numSpecialScripts < 2 ^ 64) :
    decompressScript keys (putCompressedScript keys script) = script := by
  rcases putCompressedScript_cases keys script with ⟨b, x, _, hput, _, _, hback⟩ | ⟨hput, _⟩
  · rw [hput, hback]
  · have hpos := serializeSizeVLQ_pos (script.length + numSpecialScripts)
    have hne : putVLQ (script.length + numSpecialScripts) ++ script ≠ [] := by
      intro hnil
      have hlen := congrArg List.length hnil
      rw [length_append, putVLQ_length, length_nil] at hlen
      omega
    have hsix : numSpecialScripts = 6 := rfl
    rw [hput, decompressScript, if_neg hne, deserializeVLQ_putVLQ h]
    simp only
    rw [if_neg (by omega), if_neg (by omega), if_neg (by omega), if_neg (by omega),
      slice_append_right (Nat.le_of_eq (putVLQ_length _)), putVLQ_length, Nat.sub_self,
      Nat.add_sub_cancel_left, Nat.add_sub_cancel]
    exact slice_zero (Nat.le_refl _)

/-! ## Outputs -/

def compressedTxOutSize (keys : PubKeyLib) (amount : Nat) (pkScript : Bytes) : Nat :=
  serializeSizeVLQ (compressTxOutAmount amount) + compressedScriptSize keys pkScript

def putCompressedTxOut (keys : PubKeyLib) (amount : Nat) (pkScript : Bytes) : Bytes :=
  putVLQ (compressTxOutAmount amount) ++ putCompressedScript keys pkScript

/-- `decodeCompressedTxOut`: amount, script and the bytes they took. -/
def decodeCompressedTxOut (keys : PubKeyLib) (serialized : Bytes) :
    Except String (Nat × Bytes × Nat) :=
  let (compressedAmount, bytesRead) := deserializeVLQ serialized
  if serialized.length ≤ bytesRead then
    .error "unexpected end of data after compressed amount"
  else
    let rest := serialized.drop bytesRead
    let scriptSize := decodeCompressedScriptSize rest
    if rest.length < scriptSize then .error "unexpected end of data after script size"
    else .ok (decompressTxOutAmount compressedAmount, decompressScript keys (rest.take scriptSize),
      bytesRead + scriptSize)

theorem putCompressedTxOut_length (keys : PubKeyLib) (amount : Nat) (pkScript : Bytes) :
    (putCompressedTxOut keys amount pkScript).length =
      compressedTxOutSize keys amount pkScript := by
  rw [putCompressedTxOut, length_append, putVLQ_length, putCompressedScript_length,
    compressedTxOutSize]

theorem compressedScriptSize_pos (keys : PubKeyLib) (pkScript : Bytes) :
    0 < compressedScriptSize keys pkScript := by
  have := serializeSizeVLQ_pos (pkScript.length + numSpecialScripts)
  unfold compressedScriptSize
  repeat' split
  all_goals omega

theorem compressedTxOutSize_pos (keys : PubKeyLib) (amount : Nat) (pkScript : Bytes) :
    0 < compressedTxOutSize keys amount pkScript :=
  Nat.add_pos_right _ (compressedScriptSize_pos keys pkScript)

theorem headerCode_spec {height : Nat} (h : height < 2 ^ 31) (flag : Bool) :
    2 * height + (if flag then 1 else 0) < 2 ^ 64 ∧
      (2 * height + if flag then 1 else 0) / 2 % 2 ^ 32 = height ∧
      decide ((2 * height + if flag then 1 else 0) % 2 = 1) = flag := by
  cases flag <;> simp <;> omega

theorem compressTxOutAmount_lt (amount : Nat) : compressTxOutAmount amount < 2 ^ 64 := by
  rw [compressTxOutAmount_eq]
  exact Nat.mod_lt _ (by decide)

theorem decodeCompressedTxOut_put (keys : PubKeyLib) {amount : Nat} {pkScript : Bytes}
    (hamount : amount < 2 ^ 60) (hscript : pkScript.length + numSpecialScripts < 2 ^ 64)
    (rest : Bytes) :
    decodeCompressedTxOut keys (putCompressedTxOut keys amount pkScript ++ rest) =
      .ok (amount, pkScript, compressedTxOutSize keys amount pkScript) := by
  have hread := deserializeVLQ_putVLQ (compressTxOutAmount_lt amount)
    (putCompressedScript keys pkScript ++ rest)
  have hpos := compressedScriptSize_pos keys pkScript
  have hlen := putCompressedScript_length keys pkScript
  have htake : (putCompressedScript keys pkScript ++ rest).take
      (compressedScriptSize keys pkScript) = putCompressedScript keys pkScript := by
    rw [← hlen, take_left]
  rw [decodeCompressedTxOut, putCompressedTxOut, append_assoc, hread]
  simp only [drop_putVLQ, decodeCompressedScriptSize_put keys hscript, htake,
    decompressScript_put keys hscript, decompress_compressTxOutAmount hamount, length_append,
    putVLQ_length, hlen]
  rw [if_neg (by omega), if_neg (by omega), compressedTxOutSize]

end FalconDraw.Chain
