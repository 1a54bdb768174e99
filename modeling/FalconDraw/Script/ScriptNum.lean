/-
FalconDraw.Script.ScriptNum — numbers on the script stack (txscript/scriptnum.go).

A number is its magnitude, little-endian, with the sign in the high bit of the
last byte; a byte is added where that bit is taken.
-/
import FalconDraw.Lib.Bytes
import Mathlib.Data.List.Induction
import Mathlib.Tactic.Ring

namespace FalconDraw.Script

open Lib List

inductive ScriptNumError where
  | numberTooBig (v : Bytes) (scriptNumLen : Int)
  | minimalData (v : Bytes)
  deriving DecidableEq

def checkMinimalDataEncoding (v : Bytes) : Except ScriptNumError Unit :=
  if v.length = 0 then .ok ()
  else if (byteAt v (v.length - 1)).toNat % 128 = 0 ∧
      (v.length = 1 ∨ (byteAt v (v.length - 2)).toNat < 128) then .error (.minimalData v)
  else .ok ()

/-- The loop of `Bytes`. -/
def magnitudeBytes (n : Nat) : Bytes :=
  if n = 0 then [] else UInt8.ofNat n :: magnitudeBytes (n / 256)

/-- The end of `Bytes`: the sign goes into the last byte, or behind it. -/
def putSign (isNegative : Bool) (result : Bytes) : Option Bytes :=
  match result.getLast? with
  | none => none
  | some last =>
      if 128 ≤ last.toNat then some (result ++ [if isNegative then 0x80 else 0])
      else if isNegative then some (result.dropLast ++ [UInt8.ofNat (last.toNat + 128)])
      else some result

/-- `Bytes` of a `scriptNum`, an `int64`. The negative of the least one is itself, the
loop writes nothing, and the index of the last byte is out of range. -/
def scriptNumBytes (n : Int64) : Option Bytes :=
  if n = 0 then some []
  else putSign (n < 0) (magnitudeBytes (if n < 0 then -n else n).toInt.toNat)

/-- The loop of `MakeScriptNum`; its shifts are by a `uint8`. -/
def decodeMagnitude (v : Bytes) : BitVec 64 :=
  v.zipIdx.foldl (fun result p => result ||| BitVec.ofNat 64 p.1.toNat <<< (8 * p.2 % 256)) 0

def makeScriptNum (v : Bytes) (requireMinimal : Bool) (scriptNumLen : Int) :
    Except ScriptNumError Int64 := do
  if (v.length : Int) > scriptNumLen then throw (.numberTooBig v scriptNumLen)
  if requireMinimal then checkMinimalDataEncoding v
  if v.length = 0 then return 0
  let result := decodeMagnitude v
  if 128 ≤ (byteAt v (v.length - 1)).toNat then
    return -Int64.ofBitVec (result &&& ~~~(0x80#64 <<< (8 * (v.length - 1) % 256)))
  return Int64.ofBitVec result

/-! ## Sign and magnitude -/

def encodeSigned (sign : Bool) (m : Nat) : Bytes :=
  if m < 128 then [UInt8.ofNat (m + if sign then 128 else 0)]
  else UInt8.ofNat m :: encodeSigned sign (m / 256)

def negative (v : Bytes) : Bool := 128 ≤ (byteAt v (v.length - 1)).toNat

def magnitude : Bytes → Nat
  | [] => 0
  | [b] => b.toNat % 128
  | a :: rest => a.toNat + 256 * magnitude rest

variable {v : Bytes} {n : Int64} {sign : Bool} {m : Nat}

theorem byte_toNat (hm : m < 128) :
    (UInt8.ofNat (m + if sign then 128 else 0)).toNat = m + if sign then 128 else 0 := by
  simp only [UInt8.toNat_ofNat']
  split <;> omega

theorem encodeSigned_cons {a : UInt8} (h : 128 ≤ a.toNat + 256 * m) :
    encodeSigned sign (a.toNat + 256 * m) = a :: encodeSigned sign m := by
  have ha := a.toNat_lt
  have hbyte : UInt8.ofNat (a.toNat + 256 * m) = a := by
    apply UInt8.toNat_inj.mp
    simp only [UInt8.toNat_ofNat']
    omega
  rw [encodeSigned, if_neg (by omega), hbyte, show (a.toNat + 256 * m) / 256 = m by omega]

theorem negative_cons (a : UInt8) (hv : v ≠ []) : negative (a :: v) = negative v := by
  obtain ⟨b, rest, rfl⟩ := exists_cons_of_ne_nil hv
  simp [negative, byteAt]

theorem magnitude_cons (a : UInt8) (hv : v ≠ []) :
    magnitude (a :: v) = a.toNat + 256 * magnitude v := by
  obtain ⟨b, rest, rfl⟩ := exists_cons_of_ne_nil hv
  rfl

theorem encodeSigned_spec (sign : Bool) (m : Nat) : encodeSigned sign m ≠ [] ∧
    negative (encodeSigned sign m) = sign ∧ magnitude (encodeSigned sign m) = m := by
  induction m using Nat.strong_induction_on with
  | _ m ih =>
    rw [encodeSigned]
    split
    case isTrue hsmall =>
      have hbyte := @byte_toNat sign m hsmall
      cases sign <;> simp [negative, magnitude, byteAt] <;> omega
    case isFalse hbig =>
      obtain ⟨hne, hneg, hmag⟩ := ih (m / 256) (by omega)
      rw [negative_cons _ hne, magnitude_cons _ hne, hneg, hmag]
      simp
      omega

theorem encodes_singleton (b : UInt8) : encodeSigned (negative [b]) (magnitude [b]) = [b] := by
  have hb := b.toNat_lt
  have hbyte : UInt8.ofNat (b.toNat % 128 + if 128 ≤ b.toNat then 128 else 0) = b := by
    apply UInt8.toNat_inj.mp
    simp only [UInt8.toNat_ofNat']
    split <;> omega
  rw [encodeSigned, magnitude, if_pos (Nat.mod_lt _ (by decide))]
  simp [negative, byteAt, hbyte]

theorem encodes_cons {a : UInt8} (hv : v ≠ []) :
    encodeSigned (negative (a :: v)) (magnitude (a :: v)) = a :: v ↔
      128 ≤ a.toNat + 256 * magnitude v ∧ encodeSigned (negative v) (magnitude v) = v := by
  rw [negative_cons a hv, magnitude_cons a hv]
  by_cases hbig : 128 ≤ a.toNat + 256 * magnitude v
  · simp [hbig, encodeSigned_cons hbig]
  · rw [encodeSigned, if_pos (by omega)]
    simp [hbig, Ne.symm hv]

theorem checkMinimalDataEncoding_iff : ∀ {v : Bytes}, v ≠ [] →
    (checkMinimalDataEncoding v = .ok () ↔
      encodeSigned (negative v) (magnitude v) = v ∧ magnitude v ≠ 0)
  | [b], _ => by
      rw [encodes_singleton]
      simp [checkMinimalDataEncoding, byteAt, magnitude]
  | [a, b], _ => by
      have hcheck : checkMinimalDataEncoding [a, b] = .ok () ↔
          128 ≤ a.toNat + 256 * magnitude [b] := by
        simp [checkMinimalDataEncoding, byteAt, magnitude]
        omega
      rw [hcheck, encodes_cons (cons_ne_nil b []), magnitude_cons a (cons_ne_nil b [])]
      simp only [encodes_singleton, and_true]
      omega
  | a :: b :: c :: rest, _ => by
      have hindex : ∀ v i, byteAt (a :: v) (i + 1) = byteAt v i := fun _ _ => rfl
      have hcheck : checkMinimalDataEncoding (a :: b :: c :: rest) = .ok () ↔
          checkMinimalDataEncoding (b :: c :: rest) = .ok () := by
        simp [checkMinimalDataEncoding, hindex]
      have hne : b :: c :: rest ≠ [] := cons_ne_nil _ _
      have hbig := encodes_cons (a := b) (cons_ne_nil c rest)
      rw [hcheck, checkMinimalDataEncoding_iff hne, encodes_cons hne, magnitude_cons a hne,
        hbig, magnitude_cons b (cons_ne_nil c rest)]
      constructor
      · rintro ⟨⟨hlarge, htail⟩, -⟩
        exact ⟨⟨by omega, hlarge, htail⟩, by omega⟩
      · rintro ⟨⟨-, hlarge, htail⟩, -⟩
        exact ⟨⟨hlarge, htail⟩, by omega⟩

theorem encodeSigned_length (sign : Bool) (k : Nat) :
    ∀ m < 2 ^ (8 * k + 7), (encodeSigned sign m).length ≤ k + 1 := by
  induction k with
  | zero =>
    intro m hm
    rw [encodeSigned, if_pos (show m < 128 from hm)]
    rfl
  | succ k ih =>
    intro m hm
    have hdiv : m / 256 < 2 ^ (8 * k + 7) := Nat.div_lt_of_lt_mul (hm.trans_eq (by ring))
    have hlen := ih _ hdiv
    rw [encodeSigned]
    split <;> simp <;> omega

/-! ## The loops -/

theorem putSign_magnitudeBytes (hm : m ≠ 0) :
    putSign sign (magnitudeBytes m) = some (encodeSigned sign m) := by
  have hzero : magnitudeBytes 0 = [] := by rw [magnitudeBytes, if_pos rfl]
  induction m using Nat.strong_induction_on with
  | _ m ih =>
    rw [magnitudeBytes, if_neg hm, encodeSigned]
    rcases Nat.eq_zero_or_pos (m / 256) with hlast | hmore
    · have hbyte : (UInt8.ofNat m).toNat = m := by
        simp
        omega
      have hsign : encodeSigned sign 0 = [if sign then 0x80 else 0] := by
        rw [encodeSigned]
        cases sign <;> rfl
      rw [hlast, hzero, hsign]
      by_cases hsmall : m < 128
      · cases sign <;> simp [putSign, hbyte, hsmall, Nat.not_le.mpr hsmall]
      · simp [putSign, hbyte, hsmall, Nat.not_lt.mp hsmall]
    · obtain ⟨b, rest, hrest⟩ : ∃ b rest, magnitudeBytes (m / 256) = b :: rest := by
        rw [magnitudeBytes, if_neg (by omega)]
        exact ⟨_, _, rfl⟩
      have hput := ih (m / 256) (by omega) (by omega)
      rw [if_neg (by omega)]
      rw [hrest] at hput ⊢
      simp only [putSign, getLast?_cons_cons, dropLast_cons_cons] at hput ⊢
      grind

theorem leNat_cons (b : UInt8) (v : Bytes) : leNat (b :: v) = b.toNat + 256 * leNat v := rfl

theorem decodeFrom_toNat : ∀ (v : Bytes) (acc : BitVec 64) (i : Nat), acc.toNat < 2 ^ (8 * i) →
    i + v.length ≤ 8 →
      ((v.zipIdx i).foldl (fun result p =>
        result ||| BitVec.ofNat 64 p.1.toNat <<< (8 * p.2 % 256)) acc).toNat =
        acc.toNat + 2 ^ (8 * i) * leNat v
  | [], acc, i, _, _ => by simp [leNat]
  | b :: v, acc, i, hacc, hlen => by
      rw [length_cons] at hlen
      have hb := b.toNat_lt
      have hpow : 2 ^ (8 * (i + 1)) = 2 ^ (8 * i) * 256 := Nat.pow_add 2 (8 * i) 8
      have hfit : 2 ^ (8 * (i + 1)) ≤ 2 ^ 64 := Nat.pow_le_pow_right (by decide) (by omega)
      have hmul : 2 ^ (8 * i) * (b.toNat + 1) ≤ 2 ^ (8 * i) * 256 := Nat.mul_le_mul_left _ hb
      rw [Nat.mul_add, Nat.mul_one] at hmul
      have hstep : (acc ||| BitVec.ofNat 64 b.toNat <<< (8 * i % 256)).toNat =
          acc.toNat + 2 ^ (8 * i) * b.toNat := by
        rw [BitVec.toNat_or, BitVec.toNat_shiftLeft, BitVec.toNat_ofNat,
          Nat.mod_eq_of_lt (hb.trans (by decide)), Nat.mod_eq_of_lt (show 8 * i < 256 by omega),
          Nat.shiftLeft_eq, Nat.mul_comm b.toNat, Nat.mod_eq_of_lt (by omega), Nat.or_comm,
          ← Nat.two_pow_add_eq_or_of_lt hacc, Nat.add_comm]
      rw [zipIdx_cons, foldl_cons,
        decodeFrom_toNat v _ (i + 1) (by rw [hstep]; omega) (by omega), hstep, hpow, leNat_cons]
      ring

theorem leNat_eq : ∀ {v : Bytes}, v ≠ [] →
    leNat v = (if negative v then 2 ^ (8 * (v.length - 1) + 7) else 0) + magnitude v ∧
      magnitude v < 2 ^ (8 * (v.length - 1) + 7)
  | [b], _ => by
      have hb := b.toNat_lt
      simp [leNat, negative, magnitude, byteAt]
      split <;> omega
  | a :: b :: rest, _ => by
      have ha := a.toNat_lt
      have hne : b :: rest ≠ [] := cons_ne_nil b rest
      obtain ⟨hval, hlt⟩ := leNat_eq hne
      have hpow : 2 ^ (8 * ((a :: b :: rest).length - 1) + 7) =
          256 * 2 ^ (8 * ((b :: rest).length - 1) + 7) := by
        rw [← Nat.pow_add 2 8]
        simp
        ring
      rw [negative_cons a hne, magnitude_cons a hne, hpow, leNat_cons, hval]
      split <;> omega

theorem clear_sign {j x : Nat} (hx : x < 2 ^ j) :
    BitVec.ofNat 64 (2 ^ j + x) &&& ~~~BitVec.twoPow 64 j = BitVec.ofNat 64 x := by
  have hor : 2 ^ j + x = 2 ^ j ||| x := by simpa using Nat.two_pow_add_eq_or_of_lt hx 1
  apply BitVec.eq_of_getLsbD_eq
  intro i hi
  rw [hor, BitVec.getLsbD_and, BitVec.getLsbD_not, BitVec.getLsbD_ofNat, BitVec.getLsbD_ofNat,
    BitVec.getLsbD_twoPow, Nat.testBit_or, Nat.testBit_two_pow]
  by_cases hbit : j = i
  · subst hbit
    simp [Nat.testBit_lt_two_pow hx, hi]
  · simp [hbit, hi]

theorem makeScriptNum_of_minimal (hv : v ≠ []) (hlen : v.length ≤ 8)
    (hmin : checkMinimalDataEncoding v = .ok ()) :
    makeScriptNum v true 8 = .ok
      (if negative v then -Int64.ofNat (magnitude v) else Int64.ofNat (magnitude v)) := by
  obtain ⟨hval, hlt⟩ := leNat_eq hv
  have hloop : (decodeMagnitude v).toNat = leNat v := by
    simpa [decodeMagnitude] using decodeFrom_toNat v 0 0 (by decide) (by omega)
  have hdec : decodeMagnitude v = BitVec.ofNat 64 (leNat v) := by
    rw [← hloop, BitVec.ofNat_toNat, BitVec.setWidth_eq]
  have hmod : 8 * (v.length - 1) % 256 = 8 * (v.length - 1) := by omega
  have hbit : 0x80#64 <<< (8 * (v.length - 1)) = BitVec.twoPow 64 (8 * (v.length - 1) + 7) := by
    rw [Nat.add_comm, BitVec.twoPow, BitVec.shiftLeft_add]
    rfl
  have hempty : v.length ≠ 0 := by simpa using hv
  simp only [makeScriptNum, hmin, hdec, hmod, hbit, hval, negative] at hval ⊢
  rw [if_neg (by omega), if_pos trivial, if_neg hempty]
  by_cases hneg : 128 ≤ (byteAt v (v.length - 1)).toNat
  · simp [hneg, clear_sign hlt]
  · simp [hneg]

theorem toInt_signed (hfit : m < 2 ^ 63) : (if sign then -Int64.ofNat m else Int64.ofNat m).toInt =
    if sign then -(m : Int) else m := by
  have hnat := Int64.toInt_ofNat_of_lt hfit
  cases sign with
  | false => exact hnat
  | true =>
    rw [if_pos rfl, if_pos rfl, Int64.toInt_neg, hnat, Int.bmod_eq_of_le] <;> omega

theorem scriptNumBytes_signed (hm : m ≠ 0) (hfit : m < 2 ^ 63)
    (hn : n.toInt = if sign then -(m : Int) else m) :
    scriptNumBytes n = some (encodeSigned sign m) := by
  have hneg : n < 0 ↔ sign = true := by
    rw [Int64.lt_iff_toInt_lt, hn]
    cases sign <;> simp <;> omega
  have hne : n ≠ 0 := by
    rintro rfl
    cases sign <;> simp at hn <;> omega
  have habs : (if n < 0 then -n else n).toInt.toNat = m := by
    cases sign <;> simp [hneg, Int64.toInt_neg, hn]
    rw [Int.bmod_eq_of_le] <;> omega
  rw [scriptNumBytes, if_neg hne, habs, ← putSign_magnitudeBytes hm]
  simp [hneg]

theorem scriptNumBytes_of_accepted (h : makeScriptNum v true 8 = .ok n) :
    scriptNumBytes n = some v ∧ n.toInt.natAbs < 2 ^ 63 := by
  by_cases hv : v = []
  · subst hv
    obtain rfl := Except.ok.inj h
    exact ⟨rfl, by decide⟩
  have hlen : v.length ≤ 8 := by
    by_contra hlong
    rw [makeScriptNum, if_pos (by omega)] at h
    cases h
  have hmin : checkMinimalDataEncoding v = .ok () := by
    cases hcheck : checkMinimalDataEncoding v with
    | ok => rfl
    | error e =>
      rw [makeScriptNum, if_neg (by omega), if_pos rfl, hcheck] at h
      cases h
  obtain ⟨henc, hne⟩ := (checkMinimalDataEncoding_iff hv).mp hmin
  have hfit : magnitude v < 2 ^ 63 :=
    (leNat_eq hv).2.trans_le (Nat.pow_le_pow_right (by decide) (by omega))
  obtain rfl := Except.ok.inj ((makeScriptNum_of_minimal hv hlen hmin).symm.trans h)
  refine ⟨(scriptNumBytes_signed hne hfit (toInt_signed hfit)).trans (congrArg some henc), ?_⟩
  rw [toInt_signed hfit]
  split <;> omega

theorem exists_accepted (h : n.toInt.natAbs < 2 ^ 63) : ∃ v, makeScriptNum v true 8 = .ok n := by
  by_cases hzero : n.toInt = 0
  · obtain rfl : n = 0 := Int64.toInt_inj.mp hzero
    exact ⟨[], rfl⟩
  · obtain ⟨hne, hneg, hmag⟩ := encodeSigned_spec (n.toInt < 0) n.toInt.natAbs
    have hmin := (checkMinimalDataEncoding_iff hne).mpr ⟨by rw [hneg, hmag], by omega⟩
    refine ⟨_, (makeScriptNum_of_minimal hne (encodeSigned_length _ 7 _ h) hmin).trans ?_⟩
    rw [hneg, hmag]
    congr 1
    apply Int64.toInt_inj.mp
    rw [toInt_signed h]
    by_cases hlt : n.toInt < 0
    · rw [if_pos (decide_eq_true hlt)]
      omega
    · rw [if_neg (by simpa using hlt)]
      omega

/-- Script numbers are canonical: the minimal encodings of at most eight bytes and the
numbers of absolute value below 2^63 correspond one to one. -/
theorem script_numbers_canonical :
    (∀ n : Int64, n.toInt.natAbs < 2 ^ 63 →
      ∃ v, scriptNumBytes n = some v ∧ makeScriptNum v true 8 = .ok n) ∧
    (∀ (v : Bytes) (n : Int64), v.length ≤ 8 → makeScriptNum v true 8 = .ok n →
      scriptNumBytes n = some v) ∧
    ∀ n : Int64, n.toInt.natAbs < 2 ^ 63 ↔ ∃! v, makeScriptNum v true 8 = .ok n := by
  refine ⟨fun n hn => ?_, fun v n _ h => (scriptNumBytes_of_accepted h).1, fun n => ⟨?_, ?_⟩⟩
  · obtain ⟨v, hv⟩ := exists_accepted hn
    exact ⟨v, (scriptNumBytes_of_accepted hv).1, hv⟩
  · intro hn
    obtain ⟨v, hv⟩ := exists_accepted hn
    refine ⟨v, hv, fun v' hv' => Option.some.inj ?_⟩
    rw [← (scriptNumBytes_of_accepted hv').1, (scriptNumBytes_of_accepted hv).1]
  · rintro ⟨v, hv, -⟩
    exact (scriptNumBytes_of_accepted hv).2

end FalconDraw.Script
