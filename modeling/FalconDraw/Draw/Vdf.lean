/-
FalconDraw.Draw.Vdf — the Sloth delay function and the draw seed
(blockchain/vdf.go, chaincfg/params.go).

Evaluation takes `T` modular square roots, verification `T` squarings.
-/
import FalconDraw.Lib.Sha256
import FalconDraw.Draw.Payload

namespace FalconDraw.Draw

open Lib Wire

def vdfPrime : Nat :=
  0xFFFFFFFFFFFFFFFFC90FDAA22168C234C4C6628B80DC1CD129024E088A67CC74020BBEA63B139B22514A08798E3404DDEF9519B3CD3A431B302B0A6DF25F14374FE1356D6D51C245E485B576625E7EC6F44C42E9A637ED6B0BFF5CB6F406B7EDEE386BFB5A899FA5AE9F24117C4B1FE649286651ECE45B3DC2007CB8A163BF0598DA48361C55D39A69163FA8FD24CF5F83655D23DCA3AD961C62F356208552BB9ED529077096966D670C354E4ABC9804F1746C08CA18217C32905E462E36CE3BE39E772C180E86039B2783A2EC07A28FB5C55DF06F4C52C9DE2BCBF6955817183995497CEA956AE515D2261898FA051015728E5A8AACAA68FFFFFFFFFFFFFFFF

structure VDFParams where
  p    : Nat
  exp  : Nat
  half : Nat

def newVDFParams (p : Nat) : VDFParams := ⟨p, (p + 1) >>> 2, (p - 1) >>> 1⟩

/-- `Exp(x, e, p)` on the low `bits` bits of the exponent. -/
def powModBits (x p : Nat) : Nat → Nat → Nat
  | 0, _ => 1 % p
  | bits + 1, e =>
      let half := powModBits x p bits (e >>> 1)
      let sq := half * half % p
      if e % 2 = 1 then sq * x % p else sq

def powMod (x e p : Nat) : Nat := powModBits x p (e.log2 + 1) e

def VDFParams.toQR (vp : VDFParams) (x : Nat) : Nat :=
  if x = 0 then 1 else if powMod x vp.half vp.p = 1 then x else vp.p - x

/-- `steps` modular square roots. -/
def slothSteps (vp : VDFParams) : Nat → Nat → Nat
  | 0, x => x
  | steps + 1, x => slothSteps vp steps (powMod x vp.exp vp.p)

/-- `SlothEval`, run to completion. -/
def slothEval (seed : Hash) (T : Nat) (vp : VDFParams) : Nat :=
  slothSteps vp T (vp.toQR (seed.toNat % vp.p))

/-- The squaring loop of `SlothVerify`. -/
def squareSteps (p : Nat) : Nat → Nat → Nat
  | 0, y => y
  | steps + 1, y => squareSteps p steps (y * y % p)

def slothVerify (seed : Hash) (y T : Nat) (vp : VDFParams) : Bool :=
  squareSteps vp.p T y == vp.toQR (seed.toNat % vp.p)

/-- `DrawSeed`: the double hash of the block hash and the 256-byte output. -/
def drawSeed (blockHash : Hash) (vdfOutput : Nat) : Hash :=
  Hash.ofBytes (Sha256.sum256 (Sha256.sum256 (Hash.toBytes blockHash ++ beBytes 256 vdfOutput)))

end FalconDraw.Draw
