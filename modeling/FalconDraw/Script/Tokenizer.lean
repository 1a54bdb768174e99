/-
FalconDraw.Script.Tokenizer — parsing scripts without running them
(txscript/tokenizer.go, script.go, standard.go).

Three things in block validation look inside a script without executing it: the
unspendable test that keeps an output out of the UTXO set, the signature-operation
counts, and the witness-program shape.
-/
import FalconDraw.Lib.Bytes

namespace FalconDraw.Script

open Lib

def maxScriptSize : Nat := 10000

def maxPubKeysPerMultiSig : Nat := 20

structure ParsedOp where
  opcode : UInt8
  data   : Bytes

/-- What a full run of the tokenizer saw; `ok` is `Err() == nil`. -/
structure Tokens where
  ops : List ParsedOp
  ok  : Bool

/-- A push whose length stands in the next `lenBytes` bytes, little-endian. -/
def pushData (op : UInt8) (lenBytes : Nat) (rest : Bytes) : Option (ParsedOp × Bytes) :=
  let dataLen := leNat (rest.take lenBytes)
  let body := rest.drop lenBytes
  if rest.length < lenBytes then none
  -- a four-byte length from 2^31 up is negative as `int32`
  else if body.length < dataLen ∨ 2 ^ 31 ≤ dataLen then none
  else some (⟨op, body.take dataLen⟩, body.drop dataLen)

/-- `ScriptTokenizer.Next` on the bytes from the current offset; `none` is a
malformed push. -/
def next (op : UInt8) (rest : Bytes) : Option (ParsedOp × Bytes) :=
  if op == 0x4c then pushData op 1 rest
  else if op == 0x4d then pushData op 2 rest
  else if op == 0x4e then pushData op 4 rest
  else if 1 ≤ op ∧ op ≤ 75 then
    if rest.length < op.toNat then none
    else some (⟨op, rest.take op.toNat⟩, rest.drop op.toNat)
  else some (⟨op, []⟩, rest)

/-- The tokenizer loop. Every step consumes a byte, so the script's length is
fuel enough. -/
def tokenizeFuel : Nat → Bytes → Tokens
  | _, [] => ⟨[], true⟩
  | 0, _ :: _ => ⟨[], false⟩
  | fuel + 1, op :: rest =>
      match next op rest with
      | none => ⟨[], false⟩
      | some (parsed, rest') =>
          let more := tokenizeFuel fuel rest'
          ⟨parsed :: more.ops, more.ok⟩

def tokenize (script : Bytes) : Tokens := tokenizeFuel script.length script

def isUnspendable (pkScript : Bytes) : Bool :=
  (!pkScript.isEmpty && byteAt pkScript 0 == 0x6a) ||
    decide (maxScriptSize < pkScript.length) || !(tokenize pkScript).ok

/-! ## Signature operations -/

def isSmallInt (op : UInt8) : Bool := op == 0 || (0x51 ≤ op && op ≤ 0x60)

def asSmallInt (op : UInt8) : Nat := if op == 0 then 0 else op.toNat - 0x50

def countSigOpsFrom (precise : Bool) : UInt8 → List ParsedOp → Nat
  | _, [] => 0
  | prevOp, p :: ps =>
      let here :=
        if p.opcode == 0xac || p.opcode == 0xad then 1
        else if p.opcode == 0xae || p.opcode == 0xaf then
          if precise && 0x51 ≤ prevOp && prevOp ≤ 0x60 then asSmallInt prevOp
          else maxPubKeysPerMultiSig
        else 0
      here + countSigOpsFrom precise p.opcode ps

/-- `countSigOpsV0`: the count up to the first parse failure. -/
def countSigOpsV0 (script : Bytes) (precise : Bool) : Nat :=
  countSigOpsFrom precise 0xff (tokenize script).ops

def getSigOpCount (script : Bytes) : Nat := countSigOpsV0 script false

theorem tokenizeFuel_length_le : ∀ (fuel : Nat) (script : Bytes),
    (tokenizeFuel fuel script).ops.length ≤ fuel
  | fuel, [] => by cases fuel <;> exact Nat.zero_le _
  | 0, _ :: _ => Nat.le_refl 0
  | fuel + 1, op :: rest => by
      rw [tokenizeFuel]
      cases next op rest with
      | none => exact Nat.zero_le _
      | some r => exact Nat.succ_le_succ (tokenizeFuel_length_le fuel r.2)

theorem countSigOpsFrom_le : ∀ (prevOp : UInt8) (ps : List ParsedOp),
    countSigOpsFrom false prevOp ps ≤ maxPubKeysPerMultiSig * ps.length
  | _, [] => Nat.le_refl 0
  | _, p :: ps => by
      have hrest := countSigOpsFrom_le p.opcode ps
      simp only [countSigOpsFrom, Bool.false_and, Bool.false_eq_true, if_false,
        List.length_cons, maxPubKeysPerMultiSig] at hrest ⊢
      split
      · omega
      · split <;> omega

theorem getSigOpCount_le (script : Bytes) :
    getSigOpCount script ≤ maxPubKeysPerMultiSig * script.length :=
  Nat.le_trans (countSigOpsFrom_le _ _)
    (Nat.mul_le_mul_left _ (tokenizeFuel_length_le script.length script))

def isScriptHashScript (script : Bytes) : Bool :=
  script.length == 23 && byteAt script 0 == 0xa9 && byteAt script 1 == 0x14 &&
    byteAt script 22 == 0x87

def isPushOnlyScript (script : Bytes) : Bool :=
  let t := tokenize script
  t.ok && t.ops.all fun p => p.opcode ≤ 0x60

/-- `finalOpcodeData`; the empty string where the source returns nil. -/
def finalOpcodeData (script : Bytes) : Bytes :=
  let t := tokenize script
  if t.ok then (t.ops.getLast?.map ParsedOp.data).getD [] else []

def getPreciseSigOpCount (scriptSig scriptPubKey : Bytes) : Nat :=
  if !isScriptHashScript scriptPubKey then countSigOpsV0 scriptPubKey true
  else if scriptSig.isEmpty || !isPushOnlyScript scriptSig then 0
  else
    let redeemScript := finalOpcodeData scriptSig
    if redeemScript.isEmpty then 0 else countSigOpsV0 redeemScript true

/-! ## Witness programs -/

def isCanonicalPush (opcode : UInt8) (data : Bytes) : Bool :=
  if 0x60 < opcode then true
  else if opcode < 0x4c && 0 < opcode && data.length == 1 && byteAt data 0 ≤ 16 then false
  else if opcode == 0x4c && data.length < 0x4c then false
  else if opcode == 0x4d && data.length ≤ 0xff then false
  else if opcode == 0x4e && data.length ≤ 0xffff then false
  else true

/-- `extractWitnessProgramInfo`: version and program of a witness program. -/
def extractWitnessProgramInfo (script : Bytes) : Option (Nat × Bytes) :=
  if script.length < 4 || 42 < script.length then none
  else
    let t := tokenize script
    match t.ops with
    | [v, p] =>
        if t.ok && isSmallInt v.opcode && isCanonicalPush p.opcode p.data then
          some (asSmallInt v.opcode, p.data)
        else none
    | _ => none

def getWitnessSigOps (pkScript : Bytes) (witness : List Bytes) : Nat :=
  match extractWitnessProgramInfo pkScript with
  | some (0, program) =>
      if program.length == 20 then 1
      else if program.length == 32 && !witness.isEmpty then
        countSigOpsV0 (witness.getLast?.getD []) true
      else 0
  | _ => 0

def getWitnessSigOpCount (sigScript pkScript : Bytes) (witness : List Bytes) : Nat :=
  if (extractWitnessProgramInfo pkScript).isSome then getWitnessSigOps pkScript witness
  else if isScriptHashScript pkScript && isPushOnlyScript sigScript && !sigScript.isEmpty then
    let redeem := finalOpcodeData sigScript
    if !redeem.isEmpty && (extractWitnessProgramInfo redeem).isSome then
      getWitnessSigOps redeem witness
    else 0
  else 0

end FalconDraw.Script
