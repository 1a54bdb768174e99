/-
FalconDraw.Lib.Bytes — byte strings and the fixed-width integers in them.

Scripts, keys and payloads are plain lists of bytes.
-/
import Mathlib.Algebra.Ring.Nat
import Mathlib.Algebra.Ring.Int.Defs
import Mathlib.Data.List.Basic

namespace FalconDraw.Lib

abbrev Bytes := List UInt8

def byteAt (bs : Bytes) (i : Nat) : UInt8 := bs.getD i 0

def slice (bs : Bytes) (lo hi : Nat) : Bytes := (bs.drop lo).take (hi - lo)

def beNat (bs : Bytes) : Nat := bs.foldl (fun n b => n * 256 + b.toNat) 0

def leNat (bs : Bytes) : Nat := bs.foldr (fun b n => b.toNat + 256 * n) 0

/-- The `k` low bytes of `n`, most significant first (`PutUint32`, `PutUint64`
and `FillBytes` at their widths). -/
def beBytes : Nat → Nat → Bytes
  | 0, _ => []
  | k + 1, n => UInt8.ofNat (n / 256 ^ k) :: beBytes k n

/-- The `k` low bytes of `n`, least significant first. -/
def leBytes : Nat → Nat → Bytes
  | 0, _ => []
  | k + 1, n => UInt8.ofNat n :: leBytes k (n / 256)

@[simp] theorem beBytes_length (k n : Nat) : (beBytes k n).length = k := by
  induction k with
  | zero => rfl
  | succ k ih => simp [beBytes, ih]

@[simp] theorem leBytes_length (k n : Nat) : (leBytes k n).length = k := by
  induction k generalizing n with
  | zero => rfl
  | succ k ih => rw [leBytes, List.length_cons, ih]

theorem slice_length_le (bs : Bytes) (lo hi : Nat) : (slice bs lo hi).length ≤ hi - lo :=
  List.length_take_le _ _

theorem beNat_lt (bs : Bytes) : beNat bs < 256 ^ bs.length := by
  have hfrom : ∀ (bs : Bytes) (n : Nat),
      bs.foldl (fun n b => n * 256 + b.toNat) n < (n + 1) * 256 ^ bs.length := by
    intro bs
    induction bs with
    | nil => intro n; simp
    | cons b bs ih =>
      intro n
      have hb : b.toNat < 256 := b.toNat_lt
      rw [List.foldl_cons, List.length_cons, Nat.pow_succ']
      calc _ < (n * 256 + b.toNat + 1) * 256 ^ bs.length := ih _
        _ ≤ ((n + 1) * 256) * 256 ^ bs.length := Nat.mul_le_mul_right _ (by omega)
        _ = (n + 1) * (256 * 256 ^ bs.length) := Nat.mul_assoc _ _ _
  simpa [beNat] using hfrom bs 0

/-! ## Writing and reading back -/

theorem beNat_cons (b : UInt8) (bs : Bytes) :
    beNat (b :: bs) = b.toNat * 256 ^ bs.length + beNat bs := by
  have hfrom : ∀ (bs : Bytes) (n : Nat), bs.foldl (fun n b => n * 256 + b.toNat) n =
      n * 256 ^ bs.length + bs.foldl (fun n b => n * 256 + b.toNat) 0 := by
    intro bs
    induction bs with
    | nil => intro n; simp
    | cons b bs ih => grind
  rw [beNat, List.foldl_cons, hfrom, Nat.zero_mul, Nat.zero_add, beNat]

theorem beNat_beBytes (k n : Nat) : beNat (beBytes k n) = n % 256 ^ k := by
  induction k with
  | zero => simp [beBytes, beNat, Nat.mod_one]
  | succ k ih =>
    have hbyte : (UInt8.ofNat (n / 256 ^ k)).toNat = n / 256 ^ k % 256 := by simp
    rw [beBytes, beNat_cons, ih, beBytes_length, hbyte, Nat.pow_succ, Nat.mod_mul, Nat.mul_comm,
      Nat.add_comm]

theorem beNat_beBytes_of_lt {k n : Nat} (h : n < 256 ^ k) : beNat (beBytes k n) = n := by
  rw [beNat_beBytes, Nat.mod_eq_of_lt h]

theorem beBytes_congr : ∀ {k n m : Nat}, n % 256 ^ k = m % 256 ^ k → beBytes k n = beBytes k m
  | 0, _, _, _ => rfl
  | k + 1, n, m, h => by
      rw [Nat.pow_succ, Nat.mod_mul, Nat.mod_mul] at h
      have hlow : n % 256 ^ k = m % 256 ^ k := by
        have := congrArg (· % 256 ^ k) h
        simpa [Nat.add_mul_mod_self_left, Nat.mod_mod] using this
      have hhigh : n / 256 ^ k % 256 = m / 256 ^ k % 256 := by
        rw [hlow, Nat.add_left_cancel_iff] at h
        exact Nat.eq_of_mul_eq_mul_left (Nat.pow_pos (by decide)) h
      have hbyte : UInt8.ofNat (n / 256 ^ k) = UInt8.ofNat (m / 256 ^ k) := by
        apply UInt8.toNat_inj.mp
        simpa using hhigh
      rw [beBytes, beBytes, hbyte, beBytes_congr hlow]

theorem beBytes_beNat (bs : Bytes) : beBytes bs.length (beNat bs) = bs := by
  induction bs with
  | nil => rfl
  | cons b bs ih =>
    have hlt := beNat_lt bs
    have hhead : (b.toNat * 256 ^ bs.length + beNat bs) / 256 ^ bs.length = b.toNat := by
      rw [Nat.mul_comm, Nat.mul_add_div (Nat.pow_pos (by decide)), Nat.div_eq_of_lt hlt,
        Nat.add_zero]
    have htail : beBytes bs.length (b.toNat * 256 ^ bs.length + beNat bs) =
        beBytes bs.length (beNat bs) := by
      apply beBytes_congr
      rw [Nat.mul_add_mod_self_right]
    rw [List.length_cons, beBytes, beNat_cons, hhead, htail, ih]
    simp

theorem leNat_leBytes (k n : Nat) : leNat (leBytes k n) = n % 256 ^ k := by
  induction k generalizing n with
  | zero => simp [leBytes, leNat, Nat.mod_one]
  | succ k ih =>
    have hbyte : (UInt8.ofNat n).toNat = n % 256 := by simp
    rw [leBytes, leNat, List.foldr_cons, ← leNat, ih, hbyte, Nat.pow_succ', Nat.mod_mul]

theorem leNat_leBytes_of_lt {k n : Nat} (h : n < 256 ^ k) : leNat (leBytes k n) = n := by
  rw [leNat_leBytes, Nat.mod_eq_of_lt h]

theorem slice_append_right {xs ys : Bytes} {lo hi : Nat} (h : xs.length ≤ lo) :
    slice (xs ++ ys) lo hi = slice ys (lo - xs.length) (hi - xs.length) := by
  have hlen : hi - xs.length - (lo - xs.length) = hi - lo := by omega
  rw [slice, slice, hlen, List.drop_append, List.drop_eq_nil_of_le h, List.nil_append]

theorem slice_append_left {xs ys : Bytes} {hi : Nat} (h : xs.length = hi) :
    slice (xs ++ ys) 0 hi = xs := by
  rw [slice, List.drop_zero, Nat.sub_zero, ← h, List.take_left]

theorem slice_zero {xs : Bytes} {hi : Nat} (h : xs.length ≤ hi) : slice xs 0 hi = xs :=
  List.take_of_length_le h

theorem slice_append_of_le {xs ys : Bytes} {lo hi : Nat} (h : hi ≤ xs.length) :
    slice (xs ++ ys) lo hi = slice xs lo hi := by
  rw [slice, slice, List.drop_append, List.take_append_of_le_length]
  rw [List.length_drop]
  omega

/-! ## Taking a byte string apart at fixed offsets -/

theorem drop_eq_byteAt_cons {bs : Bytes} {i : Nat} (h : i < bs.length) :
    bs.drop i = byteAt bs i :: bs.drop (i + 1) := by
  have hget : byteAt bs i = bs[i] := by
    rw [byteAt, List.getD_eq_getElem?_getD, List.getElem?_eq_getElem h, Option.getD_some]
  rw [hget]
  exact List.drop_eq_getElem_cons h

theorem drop_eq_slice_append {bs : Bytes} {i j : Nat} (h : i ≤ j) :
    bs.drop i = slice bs i j ++ bs.drop j := by
  have hj : j = i + (j - i) := by omega
  have hdrop : bs.drop j = (bs.drop i).drop (j - i) := by
    rw [List.drop_drop, ← hj]
  rw [slice, hdrop, List.take_append_drop]

theorem slice_length {bs : Bytes} {i j : Nat} (h : j ≤ bs.length) :
    (slice bs i j).length = j - i := by
  rw [slice, List.length_take, List.length_drop]
  omega

theorem slice_append_slice {bs : Bytes} {i j k : Nat} (hij : i ≤ j) (hjk : j ≤ k) :
    slice bs i j ++ slice bs j k = slice bs i k := by
  have hk : k - i = (j - i) + (k - j) := by omega
  have hj : i + (j - i) = j := by omega
  rw [slice, slice, slice, hk, List.take_add, List.drop_drop, hj]

theorem beBytes_beNat_mod {bs : Bytes} {k : Nat} (h : bs.length = k) :
    beBytes k (beNat bs % 256 ^ k) = bs := by
  subst h
  rw [Nat.mod_eq_of_lt (beNat_lt bs), beBytes_beNat]

theorem beBytes_beNat_slice {bs : Bytes} {i j k : Nat} (hj : j ≤ bs.length) (hk : j - i = k) :
    beBytes k (beNat (slice bs i j)) = slice bs i j := by
  have hback := beBytes_beNat (slice bs i j)
  rwa [slice_length hj, hk] at hback

end FalconDraw.Lib
