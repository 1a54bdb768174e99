/-
FalconDraw.Lib.Sha256 — the SHA-256 hash of Go's `crypto/sha256`.

The draw's entropy is a double SHA-256, so the hash is defined here in full rather
than left abstract.
-/
import FalconDraw.Lib.Bytes

namespace FalconDraw.Lib.Sha256

def add32 (a b : Nat) : Nat := (a + b) % 2 ^ 32

def rotr (x n : Nat) : Nat := ((x >>> n) ||| (x <<< (32 - n))) % 2 ^ 32

def bigSigma0 (x : Nat) : Nat := rotr x 2 ^^^ rotr x 13 ^^^ rotr x 22

def bigSigma1 (x : Nat) : Nat := rotr x 6 ^^^ rotr x 11 ^^^ rotr x 25

def smallSigma0 (x : Nat) : Nat := rotr x 7 ^^^ rotr x 18 ^^^ (x >>> 3)

def smallSigma1 (x : Nat) : Nat := rotr x 17 ^^^ rotr x 19 ^^^ (x >>> 10)

def ch (x y z : Nat) : Nat := (x &&& y) ^^^ ((2 ^ 32 - 1 - x) &&& z)

def maj (x y z : Nat) : Nat := (x &&& y) ^^^ (x &&& z) ^^^ (y &&& z)

def roundConstants : List Nat :=
  [0x428a2f98, 0x71374491, 0xb5c0fbcf, 0xe9b5dba5, 0x3956c25b, 0x59f111f1,
   0x923f82a4, 0xab1c5ed5, 0xd807aa98, 0x12835b01, 0x243185be, 0x550c7dc3,
   0x72be5d74, 0x80deb1fe, 0x9bdc06a7, 0xc19bf174, 0xe49b69c1, 0xefbe4786,
   0x0fc19dc6, 0x240ca1cc, 0x2de92c6f, 0x4a7484aa, 0x5cb0a9dc, 0x76f988da,
   0x983e5152, 0xa831c66d, 0xb00327c8, 0xbf597fc7, 0xc6e00bf3, 0xd5a79147,
   0x06ca6351, 0x14292967, 0x27b70a85, 0x2e1b2138, 0x4d2c6dfc, 0x53380d13,
   0x650a7354, 0x766a0abb, 0x81c2c92e, 0x92722c85, 0xa2bfe8a1, 0xa81a664b,
   0xc24b8b70, 0xc76c51a3, 0xd192e819, 0xd6990624, 0xf40e3585, 0x106aa070,
   0x19a4c116, 0x1e376c08, 0x2748774c, 0x34b0bcb5, 0x391c0cb3, 0x4ed8aa4a,
   0x5b9cca4f, 0x682e6ff3, 0x748f82ee, 0x78a5636f, 0x84c87814, 0x8cc70208,
   0x90befffa, 0xa4506ceb, 0xbef9a3f7, 0xc67178f2]

/-- The eight working variables. -/
structure Regs where
  a : Nat
  b : Nat
  c : Nat
  d : Nat
  e : Nat
  f : Nat
  g : Nat
  h : Nat

def initial : Regs :=
  ⟨0x6a09e667, 0xbb67ae85, 0x3c6ef372, 0xa54ff53a, 0x510e527f, 0x9b05688c, 0x1f83d9ab, 0x5be0cd19⟩

def Regs.add (x y : Regs) : Regs :=
  ⟨add32 x.a y.a, add32 x.b y.b, add32 x.c y.c, add32 x.d y.d,
   add32 x.e y.e, add32 x.f y.f, add32 x.g y.g, add32 x.h y.h⟩

/-- One round with schedule word `w` and constant `k`. -/
def Regs.round (r : Regs) (k w : Nat) : Regs :=
  let t1 := add32 (add32 (add32 r.h (bigSigma1 r.e)) (ch r.e r.f r.g)) (add32 k w)
  let t2 := add32 (bigSigma0 r.a) (maj r.a r.b r.c)
  ⟨add32 t1 t2, r.a, r.b, r.c, add32 r.d t1, r.e, r.f, r.g⟩

/-- The schedule word sixteen places after the head of the window. -/
def nextWord (win : List Nat) : Nat :=
  add32 (add32 (smallSigma1 (win.getD 14 0)) (win.getD 9 0))
    (add32 (smallSigma0 (win.getD 1 0)) (win.getD 0 0))

/-- The rounds of one block, the window moving one word per round. -/
def rounds : List Nat → List Nat → Regs → Regs
  | [], _, r => r
  | k :: ks, win, r =>
      rounds ks (win.tail ++ [nextWord win]) (r.round k (win.headD 0))

def words : Nat → Bytes → List Nat
  | 0, _ => []
  | n + 1, bs => beNat (bs.take 4) :: words n (bs.drop 4)

def block (r : Regs) (bs : Bytes) : Regs :=
  r.add (rounds roundConstants (words 16 bs) r)

def blocks : Nat → Regs → Bytes → Regs
  | 0, r, _ => r
  | n + 1, r, bs => blocks n (block r (bs.take 64)) (bs.drop 64)

/-- The message followed by `0x80`, zeros and its bit length in eight bytes. -/
def pad (bs : Bytes) : Bytes :=
  bs ++ 0x80 :: List.replicate ((119 - bs.length % 64) % 64) 0 ++ beBytes 8 (8 * bs.length)

def Regs.toBytes (r : Regs) : Bytes :=
  beBytes 4 r.a ++ beBytes 4 r.b ++ beBytes 4 r.c ++ beBytes 4 r.d ++
    beBytes 4 r.e ++ beBytes 4 r.f ++ beBytes 4 r.g ++ beBytes 4 r.h

def sum256 (bs : Bytes) : Bytes :=
  let padded := pad bs
  (blocks (padded.length / 64) initial padded).toBytes

end FalconDraw.Lib.Sha256
