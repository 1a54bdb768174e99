/-
FalconDraw.Draw.VdfTheorems — what the delay function accepts, and what that leaves
open.

`slothEval` ends in the one `2 ^ T`-th root of the seed that is a quadratic
residue.
-/
import Mathlib.NumberTheory.LucasLehmer
import FalconDraw.Lib.SquareRoot
import FalconDraw.Draw.Vdf
import FalconDraw.Draw.PayloadTheorems
import FalconDraw.Draw.Tape

namespace FalconDraw.Draw

open Lib Wire

/-! ## Powers and squarings -/

theorem powModBits_eq (x p : ℕ) : ∀ {bits e : ℕ}, e < 2 ^ bits → powModBits x p bits e = x ^ e % p
  | 0, e, h => by
      obtain rfl : e = 0 := by simpa using h
      rfl
  | bits + 1, e, h => by
      have hhalf : e >>> 1 < 2 ^ bits := by
        omega
      have hsq : x ^ (e >>> 1) * x ^ (e >>> 1) = x ^ (2 * (e / 2)) := by
        rw [Nat.shiftRight_eq_div_pow, pow_one, ← pow_add, two_mul]
      rw [powModBits, powModBits_eq x p hhalf, ← Nat.mul_mod, hsq]
      split
      case isTrue hodd =>
        have he : e = 2 * (e / 2) + 1 := by omega
        rw [Nat.mod_mul_mod, ← pow_succ, ← he]
      case isFalse heven =>
        have he : e = 2 * (e / 2) := by omega
        rw [← he]

theorem powMod_eq (x e p : ℕ) : powMod x e p = x ^ e % p := powModBits_eq x p Nat.lt_log2_self

theorem cast_squareSteps (p : ℕ) : ∀ T y : ℕ, ((squareSteps p T y : ℕ) : ZMod p) = (y : ZMod p) ^ 2 ^ T
  | 0, y => by rw [squareSteps, pow_zero, pow_one]
  | T + 1, y => by
      rw [squareSteps, cast_squareSteps p T, ZMod.natCast_mod, Nat.cast_mul, ← pow_two, ← pow_mul,
        ← pow_succ']

theorem squareSteps_lt {p : ℕ} (hp : 0 < p) : ∀ T y : ℕ, squareSteps p (T + 1) y < p
  | 0, _ => Nat.mod_lt _ hp
  | T + 1, y => squareSteps_lt hp T (y * y % p)

/-! ## The quadratic residue of a seed -/

section Prime

variable {p : ℕ} [Fact p.Prime] (h3 : p % 4 = 3)

include h3

theorem legendre_eq_one {x : ℕ} (hx : (x : ZMod p) ≠ 0) :
    powMod x (newVDFParams p).half p = 1 ↔ IsSquare (x : ZMod p) := by
  have hp : 1 < p := (Fact.out : p.Prime).one_lt
  have : Fact (1 < p) := ⟨hp⟩
  have hhalf : (newVDFParams p).half = p / 2 := by
    show (p - 1) >>> 1 = p / 2
    rw [Nat.shiftRight_eq_div_pow]
    omega
  have hcast : ((x ^ (p / 2) % p : ℕ) : ZMod p) = (x : ZMod p) ^ (p / 2) := by
    rw [ZMod.natCast_mod, Nat.cast_pow]
  rw [powMod_eq, hhalf, ZMod.euler_criterion p hx]
  constructor
  · intro h
    rw [← hcast, h, Nat.cast_one]
  · intro h
    rw [← hcast] at h
    have hval := congrArg ZMod.val h
    rwa [ZMod.val_natCast, Nat.mod_mod, ZMod.val_one] at hval

theorem toQR_eq_self {x : ℕ} (hx : (x : ZMod p) ≠ 0) (hlt : x < p) :
    (newVDFParams p).toQR x = x ↔ IsSquare (x : ZMod p) := by
  have hne : x ≠ 0 := by
    rintro rfl
    exact hx Nat.cast_zero
  rw [VDFParams.toQR, if_neg hne, ← legendre_eq_one h3 hx]
  split
  case isTrue hleg => exact ⟨fun _ => hleg, fun _ => rfl⟩
  case isFalse hleg =>
    refine ⟨fun heq => ?_, fun h => absurd h hleg⟩
    -- an odd number is not twice another
    have hp : (newVDFParams p).p = p := rfl
    rw [hp] at heq
    omega

theorem toQR_spec {x : ℕ} (hlt : x < p) :
    (newVDFParams p).toQR x < p ∧ IsSquare ((newVDFParams p).toQR x : ZMod p) ∧
      ((newVDFParams p).toQR x : ZMod p) ≠ 0 := by
  have hp := (Fact.out : p.Prime)
  have hparam : (newVDFParams p).p = p := rfl
  unfold VDFParams.toQR
  split
  · exact ⟨hp.one_lt, by simp, by simp⟩
  case isFalse hne =>
    have hx : (x : ZMod p) ≠ 0 := by
      rw [Ne, ZMod.natCast_eq_zero_iff]
      exact Nat.not_dvd_of_pos_of_lt (Nat.pos_of_ne_zero hne) hlt
    split
    case isTrue hleg => exact ⟨hlt, (legendre_eq_one h3 hx).mp hleg, hx⟩
    case isFalse hleg =>
      rw [hparam] at hleg ⊢
      have hneg : ((p - x : ℕ) : ZMod p) = -(x : ZMod p) := by
        rw [Nat.cast_sub hlt.le, CharP.cast_eq_zero, zero_sub]
      rw [hneg]
      refine ⟨by omega, SquareRoot.isSquare_neg h3 hx ?_, neg_ne_zero.mpr hx⟩
      exact fun hsq => hleg ((legendre_eq_one h3 hx).mpr hsq)

/-! ## Evaluation and verification -/

/-- Square roots of a residue, one after another: residues below `p`, and their
repeated squares lead back. -/
theorem slothSteps_spec : ∀ {T x : ℕ}, x < p → IsSquare (x : ZMod p) →
    slothSteps (newVDFParams p) T x < p ∧ IsSquare (slothSteps (newVDFParams p) T x : ZMod p) ∧
      (slothSteps (newVDFParams p) T x : ZMod p) ^ 2 ^ T = x
  | 0, x, hlt, hsq => ⟨hlt, hsq, by rw [slothSteps, pow_zero, pow_one]⟩
  | T + 1, x, hlt, hsq => by
      have hexp : (newVDFParams p).exp = (p + 1) / 4 := by
        rw [newVDFParams, Nat.shiftRight_eq_div_pow]
      have hroot : ((powMod x (newVDFParams p).exp p : ℕ) : ZMod p) = (x : ZMod p) ^ ((p + 1) / 4) := by
        rw [powMod_eq, ZMod.natCast_mod, Nat.cast_pow, hexp]
      have hroot_lt : powMod x (newVDFParams p).exp p < p := by
        rw [powMod_eq]
        exact Nat.mod_lt _ (Fact.out : p.Prime).pos
      obtain ⟨hb, hs, hpow⟩ := slothSteps_spec (T := T) hroot_lt (hroot ▸ hsq.pow _)
      refine ⟨hb, hs, ?_⟩
      show (slothSteps (newVDFParams p) T (powMod x (newVDFParams p).exp p) : ZMod p) ^ 2 ^ (T + 1) = x
      rw [pow_succ, pow_mul, hpow, hroot, SquareRoot.root_sq h3 hsq]

/-- `SlothEval` ends in a residue below `p` whose repeated squares lead back to
the seed's residue. -/
theorem slothEval_spec (seed : Hash) (T : ℕ) : slothEval seed T (newVDFParams p) < p ∧
      IsSquare (slothEval seed T (newVDFParams p) : ZMod p) ∧
      (slothEval seed T (newVDFParams p) : ZMod p) ^ 2 ^ T =
        (newVDFParams p).toQR (seed.toNat % p) := by
  obtain ⟨hlt, hsq, _⟩ := toQR_spec h3 (Nat.mod_lt seed.toNat (Fact.out : p.Prime).pos)
  exact slothSteps_spec h3 hlt hsq

theorem slothEval_ne_zero (seed : Hash) (T : ℕ) :
    (slothEval seed T (newVDFParams p) : ZMod p) ≠ 0 := by
  intro hzero
  have hpow := (slothEval_spec h3 seed T).2.2
  have hne := (toQR_spec h3 (Nat.mod_lt seed.toNat (Fact.out : p.Prime).pos)).2.2
  rw [hzero, zero_pow (pow_ne_zero T two_ne_zero)] at hpow
  exact hne hpow.symm

/-- What `SlothVerify` accepts: the root that `SlothEval` finds and its negative,
in any representation. -/
theorem slothVerify_iff (seed : Hash) {T : ℕ} (hT : 1 ≤ T) (y : ℕ) :
    slothVerify seed y T (newVDFParams p) = true ↔
      (y : ZMod p) = slothEval seed T (newVDFParams p) ∨
        (y : ZMod p) = -(slothEval seed T (newVDFParams p) : ZMod p) := by
  obtain ⟨n, rfl⟩ : ∃ n, T = n + 1 := ⟨T - 1, by omega⟩
  obtain ⟨_, hsq, hpow⟩ := slothEval_spec h3 seed (n + 1)
  have hp := (Fact.out : p.Prime).pos
  have hlt := (toQR_spec h3 (Nat.mod_lt seed.toNat hp)).1
  -- both sides of the comparison are below `p`
  have hcmp : slothVerify seed y (n + 1) (newVDFParams p) = true ↔ (y : ZMod p) ^ 2 ^ (n + 1) =
        (slothEval seed (n + 1) (newVDFParams p) : ZMod p) ^ 2 ^ (n + 1) := by
    rw [hpow, ← cast_squareSteps, ZMod.natCast_eq_natCast_iff', slothVerify, beq_iff_eq]
    have hparam : (newVDFParams p).p = p := rfl
    rw [hparam, Nat.mod_eq_of_lt (squareSteps_lt hp n y), Nat.mod_eq_of_lt hlt]
  rw [hcmp]
  constructor
  · exact SquareRoot.eq_or_eq_neg_of_pow_eq h3 hsq n
  · rintro (h | h)
    · rw [h]
    · rw [h, (Nat.even_pow.mpr ⟨even_two, Nat.succ_ne_zero n⟩).neg_pow]

end Prime

/-! ## Honest outputs -/

theorem squareSteps_lt_of_lt {p : ℕ} : ∀ {T y : ℕ}, y < p → squareSteps p T y < p
  | 0, _, hy => hy
  | T + 1, y, hy => squareSteps_lt (Nat.zero_lt_of_lt hy) T y

theorem slothVerify_of_pow {p : ℕ} [Fact p.Prime] (h3 : p % 4 = 3) {seed : Hash} {T y : ℕ}
    (hlt : y < p) (hpow : (y : ZMod p) ^ 2 ^ T = (newVDFParams p).toQR (seed.toNat % p)) :
    slothVerify seed y T (newVDFParams p) = true := by
  have hqr := (toQR_spec h3 (Nat.mod_lt seed.toNat (Fact.out : p.Prime).pos)).1
  rw [← cast_squareSteps, ZMod.natCast_eq_natCast_iff', Nat.mod_eq_of_lt (squareSteps_lt_of_lt hlt),
    Nat.mod_eq_of_lt hqr] at hpow
  rw [slothVerify, beq_iff_eq]
  exact hpow

/-- For every prime that is 3 modulo 4, every seed and every number of steps, what
`SlothEval` returns is a quadratic residue below `p` that `SlothVerify` accepts.
Where it fits the 256 bytes of a VDF result, as it does for every `p` up to
`2 ^ 2048`, it is read back from the transaction and accepted again. -/
theorem honest_output_verifies {p : ℕ} (hp : p.Prime) (h3 : p % 4 = 3) (seed : Hash) (T : ℕ) :
    slothEval seed T (newVDFParams p) < p ∧ IsSquare (slothEval seed T (newVDFParams p) : ZMod p) ∧
      (slothEval seed T (newVDFParams p) : ZMod p) ≠ 0 ∧
      slothVerify seed (slothEval seed T (newVDFParams p)) T (newVDFParams p) = true ∧
      ∀ d : VDFResultData, d.vdfOutput = slothEval seed T (newVDFParams p) →
        d.vdfOutput < 2 ^ 2048 → d.drawHeight < 2 ^ 32 → d.T < 2 ^ 64 →
        ∀ id, ∃ msgTx read, buildVDFResultTx? d = some msgTx ∧
          extractVDFResultData ⟨id, msgTx⟩ = .ok read ∧
          read.vdfOutput = slothEval seed T (newVDFParams p) ∧
          slothVerify seed read.vdfOutput T (newVDFParams p) = true := by
  have : Fact p.Prime := ⟨hp⟩
  obtain ⟨hlt, hsq, hpow⟩ := slothEval_spec h3 seed T
  have hverify := slothVerify_of_pow h3 hlt hpow
  refine ⟨hlt, hsq, slothEval_ne_zero h3 seed T, hverify, ?_⟩
  intro d hd hout hdraw hT id
  refine ⟨buildVDFResultTx d, d, if_pos hout, extractVDFResultData_build hdraw hT hout id, hd, ?_⟩
  rw [hd]
  exact hverify

theorem honest_output_modulo_23 :
    slothVerify 5 (slothEval 5 10 (newVDFParams 23)) 10 (newVDFParams 23) = true :=
  (honest_output_verifies (by decide) rfl 5 10).2.2.2.1

/-- A prime that is too long for the field: modulo the Mersenne prime of exponent
2203 the seed 3 is no residue, its negative is the output without any step, and
building the transaction panics. -/
theorem long_prime_output_panics : (mersenne 2203).Prime ∧ mersenne 2203 % 4 = 3 ∧
      ∀ d : VDFResultData, d.vdfOutput = slothEval 3 0 (newVDFParams (mersenne 2203)) →
        buildVDFResultTx? d = none := by
  refine ⟨lucas_lehmer_sufficiency _ (by norm_num) (by norm_num), by decide +kernel, ?_⟩
  intro d hd
  have hlong : 2 ^ 2048 ≤ slothEval 3 0 (newVDFParams (mersenne 2203)) := by decide +kernel
  exact if_neg (Nat.not_lt.mpr (hd ▸ hlong))

/-! ## Any modulus -/

/-- Euler's criterion as `toQR` relies on it: one of the seed and its negative
passes the residue test. -/
def ResidueSeed (p : ℕ) (seed : Hash) : Prop :=
  powMod ((newVDFParams p).toQR (seed.toNat % p)) (newVDFParams p).half p = 1

instance (p : ℕ) (seed : Hash) : Decidable (ResidueSeed p seed) :=
  inferInstanceAs (Decidable (_ = _))

theorem toQR_lt {p x : ℕ} (hp : 1 < p) (hlt : x < p) : (newVDFParams p).toQR x < p := by
  have hparam : (newVDFParams p).p = p := rfl
  unfold VDFParams.toQR
  rw [hparam]
  split
  · exact hp
  · split <;> omega

/-- A number that passes the residue test has its `T` square roots: the test is
passed again and the square leads back, whether or not the modulus is prime. -/
theorem slothSteps_pow {p : ℕ} (h3 : p % 4 = 3) : ∀ {T x : ℕ}, (x : ZMod p) ^ ((p - 1) / 2) = 1 →
    (slothSteps (newVDFParams p) T x : ZMod p) ^ 2 ^ T = x
  | 0, x, _ => by rw [slothSteps, pow_zero, pow_one]
  | T + 1, x, h => by
      have hexp : (newVDFParams p).exp = (p + 1) / 4 := by
        rw [newVDFParams, Nat.shiftRight_eq_div_pow]
      have hroot : ((powMod x (newVDFParams p).exp p : ℕ) : ZMod p) =
          (x : ZMod p) ^ ((p + 1) / 4) := by
        rw [powMod_eq, ZMod.natCast_mod, Nat.cast_pow, hexp]
      have hagain : ((powMod x (newVDFParams p).exp p : ℕ) : ZMod p) ^ ((p - 1) / 2) = 1 := by
        rw [hroot, ← pow_mul, Nat.mul_comm, pow_mul, h, one_pow]
      have hsquare : ((p + 1) / 4) * 2 = (p - 1) / 2 + 1 := by omega
      show (slothSteps (newVDFParams p) T (powMod x (newVDFParams p).exp p) : ZMod p) ^
        2 ^ (T + 1) = x
      rw [pow_succ, pow_mul, slothSteps_pow h3 hagain, hroot, ← pow_mul, hsquare, pow_succ, h,
        one_mul]

theorem slothVerify_slothEval {p : ℕ} (h3 : p % 4 = 3) {seed : Hash} (hseed : ResidueSeed p seed)
    {T : ℕ} (hT : 1 ≤ T) :
    slothVerify seed (slothEval seed T (newVDFParams p)) T (newVDFParams p) = true := by
  obtain ⟨n, rfl⟩ : ∃ n, T = n + 1 := ⟨T - 1, by omega⟩
  have hp : 0 < p := by omega
  have hlt : (newVDFParams p).toQR (seed.toNat % p) < p :=
    toQR_lt (by omega) (Nat.mod_lt _ hp)
  have hone : ((newVDFParams p).toQR (seed.toNat % p) : ZMod p) ^ ((p - 1) / 2) = 1 := by
    have hhalf : (newVDFParams p).half = (p - 1) / 2 := Nat.shiftRight_eq_div_pow _ _
    have hcast := congrArg (Nat.cast (R := ZMod p)) hseed
    rwa [powMod_eq, ZMod.natCast_mod, Nat.cast_pow, hhalf, Nat.cast_one] at hcast
  have hback := slothSteps_pow (T := n + 1) h3 hone
  rw [← cast_squareSteps, ZMod.natCast_eq_natCast_iff', Nat.mod_eq_of_lt (squareSteps_lt hp n _),
    Nat.mod_eq_of_lt hlt] at hback
  rw [slothVerify, beq_iff_eq]
  exact hback

theorem slothSteps_lt {p : ℕ} (hp : 0 < p) : ∀ (T x : ℕ), slothSteps (newVDFParams p) (T + 1) x < p
  | 0, x => by
      show powMod x _ p < p
      rw [powMod_eq]
      exact Nat.mod_lt _ hp
  | T + 1, x => slothSteps_lt hp T (powMod x (newVDFParams p).exp (newVDFParams p).p)

theorem slothEval_lt (seed : Hash) {T : ℕ} (hT : 1 ≤ T) :
    slothEval seed T (newVDFParams vdfPrime) < 2 ^ 2048 := by
  obtain ⟨n, rfl⟩ : ∃ n, T = n + 1 := ⟨T - 1, by omega⟩
  have hprime : vdfPrime < 2 ^ 2048 := by decide +kernel
  have hpos : 0 < vdfPrime := by decide +kernel
  exact (slothSteps_lt hpos n _).trans hprime

theorem slothEval_one {p : ℕ} (hp : 1 < p) (T : ℕ) : slothEval 1 T (newVDFParams p) = 1 := by
  have hpow : ∀ e, powMod 1 e p = 1 := by
    intro e
    rw [powMod_eq, one_pow, Nat.mod_eq_of_lt hp]
  have hsteps : ∀ T, slothSteps (newVDFParams p) T 1 = 1 := by
    intro T
    induction T with
    | zero => rfl
    | succ T ih =>
      show slothSteps (newVDFParams p) T (powMod 1 (newVDFParams p).exp p) = 1
      rw [hpow, ih]
  have hseed : (1 : Hash).toNat % p = 1 := Nat.mod_eq_of_lt hp
  show slothSteps (newVDFParams p) T ((newVDFParams p).toQR ((1 : Hash).toNat % p)) = 1
  rw [hseed, VDFParams.toQR, if_neg one_ne_zero]
  show slothSteps (newVDFParams p) T (if powMod 1 (newVDFParams p).half p = 1 then 1 else p - 1) = 1
  rw [if_pos (hpow _), hsteps]

/-! ## The draw seed -/

/-- The output is the residue of the two roots, read modulo `p`. -/
def IsResidue (p y : ℕ) : Prop := (newVDFParams p).toQR (y % p) = y % p

instance (p y : ℕ) : Decidable (IsResidue p y) := inferInstanceAs (Decidable (_ = _))

/-- Two accepted outputs are the same number if and only if they agree on how
often they exceed `p` and on being a residue. -/
theorem accepted_eq_iff {p : ℕ} (hp : p.Prime) (h3 : p % 4 = 3) (seed : Hash) {T : ℕ} (hT : 1 ≤ T)
    {y y' : ℕ} (hv : slothVerify seed y T (newVDFParams p) = true)
    (hv' : slothVerify seed y' T (newVDFParams p) = true) :
    y = y' ↔ y / p = y' / p ∧ (IsResidue p y ↔ IsResidue p y') := by
  have : Fact p.Prime := ⟨hp⟩
  have hroot := (slothEval_spec h3 seed T).2.1
  have hroot0 := slothEval_ne_zero h3 seed T
  -- an accepted output is a residue exactly when it is the root and not its negative
  have hres : ∀ z : ℕ, slothVerify seed z T (newVDFParams p) = true →
      (IsResidue p z ↔ (z : ZMod p) = slothEval seed T (newVDFParams p)) := by
    intro z hz
    have hsign := (slothVerify_iff h3 seed hT z).mp hz
    have hz0 : (z : ZMod p) ≠ 0 := by
      grind
    have hmod0 : ((z % p : ℕ) : ZMod p) ≠ 0 := by rwa [ZMod.natCast_mod]
    rw [IsResidue, toQR_eq_self h3 hmod0 (Nat.mod_lt _ hp.pos), ZMod.natCast_mod]
    constructor
    · intro hsq
      rcases hsign with h | h
      · exact h
      · exact absurd (h ▸ hsq) (SquareRoot.not_isSquare_neg h3 hroot0 hroot)
    · grind
  constructor
  · rintro rfl
    exact ⟨rfl, Iff.rfl⟩
  · rintro ⟨hquot, hboth⟩
    rw [hres y hv, hres y' hv'] at hboth
    have hcast : (y : ZMod p) = y' := by
      rcases (slothVerify_iff h3 seed hT y).mp hv with h | h
      · rw [h, hboth.mp h]
      · rcases (slothVerify_iff h3 seed hT y').mp hv' with h' | h'
        · rw [hboth.mpr h', h']
        · rw [h, h']
    have hmod : y % p = y' % p := (ZMod.natCast_eq_natCast_iff' y y' p).mp hcast
    rw [← Nat.div_add_mod y p, ← Nat.div_add_mod y' p, hquot, hmod]

/-- For every prime that is 3 modulo 4, as `NewVDFParams` takes it, and every two
outputs that `SlothVerify` accepts for one draw: if they agree on how often they
exceed `p` and on being a quadratic residue, they give one draw seed; and if the
hash does not collide on the two, they give one seed only then. -/
theorem drawSeed_fixed_iff {p : ℕ} (hp : p.Prime) (h3 : p % 4 = 3) (blockHash : Hash) {T : ℕ}
    (hT : 1 ≤ T) {y y' : ℕ} (hv : slothVerify blockHash y T (newVDFParams p) = true)
    (hv' : slothVerify blockHash y' T (newVDFParams p) = true) :
    (y / p = y' / p ∧ (IsResidue p y ↔ IsResidue p y') →
      drawSeed blockHash y = drawSeed blockHash y') ∧
    ((drawSeed blockHash y = drawSeed blockHash y' → y = y') →
      (drawSeed blockHash y = drawSeed blockHash y' ↔
        y / p = y' / p ∧ (IsResidue p y ↔ IsResidue p y'))) := by
  have hsame := accepted_eq_iff hp h3 blockHash hT hv hv'
  refine ⟨fun hcond => by rw [hsame.mpr hcond], fun hcollide => ⟨?_, ?_⟩⟩
  · exact fun hseed => hsame.mp (hcollide hseed)
  · exact fun hcond => by rw [hsame.mpr hcond]

/-- Modulo 23 the outputs 1 and 24 are accepted for the block hash 1, and differ
in how often they exceed 23. -/
theorem small_prime_seeds_differ :
    slothVerify 1 1 10 (newVDFParams 23) = true ∧ slothVerify 1 24 10 (newVDFParams 23) = true ∧
      drawSeed 1 1 ≠ drawSeed 1 24 := by
  have hv : slothVerify 1 1 10 (newVDFParams 23) = true := by decide +kernel
  have hv' : slothVerify 1 24 10 (newVDFParams 23) = true := by decide +kernel
  have hne : drawSeed 1 1 ≠ drawSeed 1 24 := by decide +kernel
  refine ⟨hv, hv', fun hseed => ?_⟩
  have hiff := (drawSeed_fixed_iff (by decide) rfl 1 (by decide) hv hv').2
    fun h => absurd h hne
  have hquot : 1 / 23 = 24 / 23 := (hiff.mp hseed).1
  cases hquot

/-- With the VDF prime, the output 1 and its negative are both accepted for a
block with hash 1. They give different seeds; a wallet that alone has staked 17
FDRW wins with the one and not with the other. -/
theorem submitter_chooses_outcome : slothVerify 1 1 10 (newVDFParams vdfPrime) = true ∧
      slothVerify 1 (vdfPrime - 1) 10 (newVDFParams vdfPrime) = true ∧
      vdfPrime - 1 < 2 ^ 2048 ∧
      drawSeed 1 1 ≠ drawSeed 1 (vdfPrime - 1) ∧
      (runDraw [⟨1, 17, 1700000000⟩] (drawSeed 1 1)).jackpotWon = true ∧
      (runDraw [⟨1, 17, 1700000000⟩] (drawSeed 1 (vdfPrime - 1))).jackpotWon = false := by
  decide +kernel

end FalconDraw.Draw
