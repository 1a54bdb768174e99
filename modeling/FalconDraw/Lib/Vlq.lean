/-
FalconDraw.Lib.Vlq — variable-length quantities.

A number is written in groups of seven bits, most significant group first; every
byte but the last has its high bit set, and one is subtracted each time a group is
shifted out, so that every number has one encoding.
-/
import FalconDraw.Lib.Bytes

namespace FalconDraw.Lib

/-- The groups of a number, least significant first; `last` is the group that
ends the encoding. -/
def vlqGroups : Nat → Bool → Nat → Bytes
  | 0, _, _ => []
  | fuel + 1, last, n =>
      let byte := UInt8.ofNat (n % 128 + if last then 0 else 128)
      if n ≤ 0x7f then [byte] else byte :: vlqGroups fuel false (n / 128 - 1)

def putVLQ (n : Nat) : Bytes := (vlqGroups 10 true n).reverse

/-- The loop of `serializeSizeVLQ`. -/
def vlqSizeFrom : Nat → Nat → Nat
  | 0, _ => 0
  | fuel + 1, n => if n ≤ 0x7f then 1 else 1 + vlqSizeFrom fuel (n / 128 - 1)

def serializeSizeVLQ (n : Nat) : Nat := vlqSizeFrom 10 n

/-- The reader's loop: the number so far and the bytes consumed. -/
def deserializeVLQFrom : Nat → Nat → Bytes → Nat × Nat
  | n, size, [] => (n, size)
  | n, size, val :: rest =>
      let n' := (n * 128 + val.toNat % 128) % 2 ^ 64
      if val.toNat < 128 then (n', size + 1)
      else deserializeVLQFrom ((n' + 1) % 2 ^ 64) (size + 1) rest

def deserializeVLQ (serialized : Bytes) : Nat × Nat := deserializeVLQFrom 0 0 serialized

/-! ## Reading what was written -/

theorem vlqGroups_length : ∀ (fuel : Nat) (last : Bool) (n : Nat),
    (vlqGroups fuel last n).length = vlqSizeFrom fuel n
  | 0, _, _ => rfl
  | fuel + 1, last, n => by
      rw [vlqGroups, vlqSizeFrom]
      split
      · rfl
      · rw [List.length_cons, vlqGroups_length, Nat.add_comm]

@[simp] theorem putVLQ_length (n : Nat) : (putVLQ n).length = serializeSizeVLQ n := by
  rw [putVLQ, List.length_reverse, vlqGroups_length, serializeSizeVLQ]

@[simp] theorem drop_putVLQ (n : Nat) (rest : Bytes) :
    (putVLQ n ++ rest).drop (serializeSizeVLQ n) = rest := by
  rw [← putVLQ_length, List.drop_left]

theorem serializeSizeVLQ_pos (n : Nat) : 0 < serializeSizeVLQ n := by
  unfold serializeSizeVLQ vlqSizeFrom
  split <;> omega

theorem deserializeVLQFrom_cons {n size k : Nat} {cont : Bool} {rest : Bytes}
    (hk : k / 128 = n) (hfit : k + 1 < 2 ^ 64 ∨ (cont = false ∧ k < 2 ^ 64)) :
    deserializeVLQFrom n size (UInt8.ofNat (k % 128 + if cont then 128 else 0) :: rest) =
      if cont then deserializeVLQFrom (k + 1) (size + 1) rest else (k, size + 1) := by
  have hlt : k % 128 < 128 := Nat.mod_lt _ (by decide)
  have hdiv := Nat.div_add_mod k 128
  subst hk
  cases cont with
  | true =>
    have hbyte : (UInt8.ofNat (k % 128 + 128)).toNat = k % 128 + 128 := by
      simp only [UInt8.toNat_ofNat']
      omega
    have hval : (k / 128 * 128 + (k % 128 + 128) % 128) % 2 ^ 64 = k := by omega
    have hword : k + 1 < 2 ^ 64 := hfit.resolve_right fun h => Bool.noConfusion h.1
    have hnext : (k + 1) % 2 ^ 64 = k + 1 := Nat.mod_eq_of_lt hword
    simp only [deserializeVLQFrom, if_true, hbyte, hval, hnext]
    rw [if_neg (by omega)]
  | false =>
    have hbyte : (UInt8.ofNat (k % 128 + 0)).toNat = k % 128 := by
      simp only [UInt8.toNat_ofNat']
      omega
    have hval : (k / 128 * 128 + k % 128 % 128) % 2 ^ 64 = k := by omega
    simp only [deserializeVLQFrom, Bool.false_eq_true, if_false, hbyte, hval]
    rw [if_pos hlt]

/-- The groups above the last leave the reader with their number, plus the one
that was subtracted. -/
theorem deserializeVLQFrom_groups : ∀ (fuel m size : Nat) (rest : Bytes), m + 2 ≤ 128 ^ fuel →
    m + 1 < 2 ^ 64 → deserializeVLQFrom 0 size ((vlqGroups fuel false m).reverse ++ rest) =
      deserializeVLQFrom (m + 1) (size + vlqSizeFrom fuel m) rest
  | 0, m, size, rest, hm, _ => by
      rw [Nat.pow_zero] at hm
      omega
  | fuel + 1, m, size, rest, hm, hfit => by
      have hcons := fun n size => @deserializeVLQFrom_cons n size m true rest
      rw [vlqGroups, vlqSizeFrom]
      split
      case isTrue hsmall =>
        have hone := hcons 0 size (by omega) (.inl hfit)
        simpa using hone
      case isFalse hbig =>
        have hrest : m / 128 - 1 + 2 ≤ 128 ^ fuel := by
          rw [Nat.pow_succ] at hm
          omega
        have hstep := hcons (m / 128 - 1 + 1) (size + vlqSizeFrom fuel (m / 128 - 1)) (by omega)
          (.inl hfit)
        rw [List.reverse_cons, List.append_assoc,
          deserializeVLQFrom_groups fuel (m / 128 - 1) size _ hrest (by omega), List.singleton_append]
        rw [if_pos rfl, if_pos rfl] at hstep
        rw [if_neg Bool.false_ne_true, hstep, Nat.add_comm 1, Nat.add_assoc]

theorem deserializeVLQ_putVLQ {n : Nat} (h : n < 2 ^ 64) (rest : Bytes) :
    deserializeVLQ (putVLQ n ++ rest) = (n, serializeSizeVLQ n) := by
  have hcons := fun m size => @deserializeVLQFrom_cons m size n false rest
  rw [deserializeVLQ, putVLQ, serializeSizeVLQ, vlqGroups, vlqSizeFrom]
  split
  case isTrue hsmall =>
    have hone := hcons 0 0 (by omega) (.inr ⟨rfl, h⟩)
    simpa using hone
  case isFalse hbig => grind [deserializeVLQFrom_groups]

theorem deserializeVLQ_byte {b : UInt8} (h : b.toNat < 128) (rest : Bytes) :
    deserializeVLQ (b :: rest) = (b.toNat, 1) := by
  have hval : (0 * 128 + b.toNat % 128) % 2 ^ 64 = b.toNat := by omega
  simp only [deserializeVLQ, deserializeVLQFrom, hval, if_pos h]

/-! ## Every number has one encoding -/

/-- One group sequence: the high bit is set in every byte but the last. -/
def vlqTerminated : Bytes → Bool
  | [] => false
  | [val] => val.toNat < 128
  | val :: rest => 128 ≤ val.toNat && vlqTerminated rest

/-- The number a group sequence stands for, without the limit of a word. -/
def vlqValueFrom : Nat → Bytes → Nat
  | n, [] => n
  | n, val :: rest =>
      let n' := n * 128 + val.toNat % 128
      if val.toNat < 128 then n' else vlqValueFrom (n' + 1) rest

def vlqValue (serialized : Bytes) : Nat := vlqValueFrom 0 serialized

theorem vlqTerminated_cons {val : UInt8} {rest : Bytes} (h : vlqTerminated (val :: rest) = true) :
    (val.toNat < 128 ∧ rest = []) ∨ (128 ≤ val.toNat ∧ vlqTerminated rest = true) := by
  grind [vlqTerminated]

theorem le_vlqValueFrom : ∀ (n : Nat) (bytes : Bytes), n ≤ vlqValueFrom n bytes
  | n, [] => le_rfl
  | n, val :: rest => by
      have ih := le_vlqValueFrom (n * 128 + val.toNat % 128 + 1) rest
      rw [vlqValueFrom]
      split <;> omega

/-- The reader does not wrap when the number fits the word. -/
theorem deserializeVLQFrom_eq : ∀ {bytes : Bytes} (n size : Nat), vlqTerminated bytes = true →
    vlqValueFrom n bytes < 2 ^ 64 →
    deserializeVLQFrom n size bytes = (vlqValueFrom n bytes, size + bytes.length)
  | [], _, _, h, _ => by cases h
  | val :: rest, n, size, h, hfit => by
      rw [vlqValueFrom] at hfit ⊢
      rw [deserializeVLQFrom]
      rcases vlqTerminated_cons h with ⟨hlast, rfl⟩ | ⟨hmore, hrest⟩
      · grind
      · have hnot : ¬ val.toNat < 128 := Nat.not_lt.mpr hmore
        rw [if_neg hnot] at hfit ⊢
        have hle := le_vlqValueFrom (n * 128 + val.toNat % 128 + 1) rest
        rw [if_neg hnot, Nat.mod_eq_of_lt (show n * 128 + val.toNat % 128 < 2 ^ 64 by omega),
          Nat.mod_eq_of_lt (show n * 128 + val.toNat % 128 + 1 < 2 ^ 64 by omega),
          deserializeVLQFrom_eq _ _ hrest hfit, List.length_cons, Nat.add_right_comm size,
          ← Nat.add_assoc]

/-- The number of the groups above the last, least significant first, with the one that
is subtracted for each. -/
def vlqCarry : Bytes → Nat
  | [] => 0
  | val :: higher => vlqCarry higher * 128 + val.toNat % 128 + 1

theorem vlqCarry_append_singleton : ∀ (groups : Bytes) (val : UInt8),
    vlqCarry (groups ++ [val]) = (val.toNat % 128 + 1) * 128 ^ groups.length + vlqCarry groups
  | [], val => by simp [vlqCarry]
  | g :: groups, val => by
      rw [List.cons_append, vlqCarry, vlqCarry_append_singleton groups val, vlqCarry,
        List.length_cons, Nat.pow_succ, ← Nat.mul_assoc]
      omega

/-- A group sequence is its last byte after groups with the high bit set. -/
theorem vlqValueFrom_reverse : ∀ {bytes : Bytes} (n : Nat), vlqTerminated bytes = true →
    ∃ groups last, bytes = groups.reverse ++ [last] ∧ (∀ g ∈ groups, 128 ≤ g.toNat) ∧
      last.toNat < 128 ∧
      vlqValueFrom n bytes = (n * 128 ^ groups.length + vlqCarry groups) * 128 + last.toNat
  | [], _, h => by cases h
  | val :: rest, n, h => by
      rw [vlqValueFrom]
      rcases vlqTerminated_cons h with ⟨hlast, rfl⟩ | ⟨hmore, hrest⟩
      · grind [vlqCarry]
      · obtain ⟨groups, last, rfl, hall, hlast, hvalue⟩ :=
          vlqValueFrom_reverse (n * 128 + val.toNat % 128 + 1) hrest
        refine ⟨groups ++ [val], last, by simp, ?_, hlast, ?_⟩
        · grind
        · have hshift : (n * 128 + val.toNat % 128 + 1) * 128 ^ groups.length =
              n * 128 ^ groups.length * 128 + (val.toNat % 128 + 1) * 128 ^ groups.length := by
            rw [Nat.add_assoc, Nat.add_mul, Nat.mul_right_comm]
          rw [if_neg (Nat.not_lt.mpr hmore), hvalue, vlqCarry_append_singleton, hshift,
            List.length_append, List.length_singleton, Nat.pow_succ, ← Nat.mul_assoc]
          omega

theorem pow_le_vlqCarry : ∀ {groups : Bytes}, groups ≠ [] →
    128 ^ groups.length ≤ 128 * vlqCarry groups
  | [val], _ => by
      rw [vlqCarry, vlqCarry, List.length_singleton]
      omega
  | val :: g :: groups, _ => by
      have ih := @pow_le_vlqCarry (g :: groups) (List.cons_ne_nil _ _)
      rw [vlqCarry, List.length_cons, Nat.pow_succ]
      omega

theorem vlqGroups_vlqCarry : ∀ {groups : Bytes} {fuel : Nat}, groups ≠ [] →
    (∀ g ∈ groups, 128 ≤ g.toNat) → groups.length ≤ fuel →
    vlqGroups fuel false (vlqCarry groups - 1) = groups
  | val :: higher, 0, _, _, hfuel => by
      rw [List.length_cons] at hfuel
      omega
  | val :: higher, fuel + 1, _, hall, hfuel => by
      have hval := hall val List.mem_cons_self
      have hlt := val.toNat_lt
      have hbyte : UInt8.ofNat (val.toNat % 128 + 128) = val := by
        rw [show val.toNat % 128 + 128 = val.toNat by omega, UInt8.ofNat_toNat]
      have hmod : (vlqCarry higher * 128 + val.toNat % 128) % 128 = val.toNat % 128 := by omega
      rw [vlqCarry, Nat.add_sub_cancel, vlqGroups, if_neg Bool.false_ne_true, hmod]
      rw [hbyte]
      cases higher with
      | nil => rw [if_pos (by rw [vlqCarry]; omega)]
      | cons g higher =>
        have hpos : 0 < vlqCarry (g :: higher) := Nat.succ_pos _
        rw [if_neg (by omega), show (vlqCarry (g :: higher) * 128 + val.toNat % 128) / 128 - 1 =
          vlqCarry (g :: higher) - 1 by omega,
          vlqGroups_vlqCarry (List.cons_ne_nil _ _)
            (fun x hx => hall x (List.mem_cons_of_mem _ hx))
            (by rw [List.length_cons] at hfuel; omega)]

/-- A group sequence that fits the word is the encoding of its number. -/
theorem putVLQ_vlqValue {bytes : Bytes} (h : vlqTerminated bytes = true)
    (hfit : vlqValue bytes < 2 ^ 64) : putVLQ (vlqValue bytes) = bytes := by
  obtain ⟨groups, last, rfl, hall, hlast, hvalue⟩ := vlqValueFrom_reverse 0 h
  rw [Nat.zero_mul, Nat.zero_add] at hvalue
  rw [vlqValue, hvalue] at hfit ⊢
  have hmod : (vlqCarry groups * 128 + last.toNat) % 128 = last.toNat := by omega
  have hbyte : UInt8.ofNat (last.toNat + 0) = last := by rw [Nat.add_zero, UInt8.ofNat_toNat]
  rw [putVLQ, vlqGroups, if_pos rfl, hmod]
  rw [hbyte]
  by_cases hne : groups = []
  · grind [vlqCarry]
  · -- ten groups above the last would be more than a word
    have hlen : groups.length ≤ 9 := by
      have hpow := pow_le_vlqCarry hne
      by_contra hlong
      have := Nat.pow_le_pow_right (show 0 < 128 by decide) (show 10 ≤ groups.length by omega)
      omega
    have hpos : 128 ≤ vlqCarry groups * 128 + last.toNat := by
      have := pow_le_vlqCarry hne
      have := @Nat.pow_pos 128 groups.length (by decide)
      omega
    rw [if_neg (by omega), show (vlqCarry groups * 128 + last.toNat) / 128 - 1 =
      vlqCarry groups - 1 by omega, vlqGroups_vlqCarry hne hall hlen, List.reverse_cons]

end FalconDraw.Lib
