/-
FalconDraw.Chain.Scripts — spending authority and signature operations of a
block (blockchain/scriptval.go, weight.go, validate.go, chain.go).

The script engine, the Schnorr library and RIPEMD-160 are parameters
(`Env.runScript`, `Env.schnorrKey`, `Env.hash160`).
-/
import FalconDraw.Lib.Sha256
import FalconDraw.Chain.Utxo
import FalconDraw.Chain.Sanity
import FalconDraw.Chain.BlockNode

namespace FalconDraw.Chain

open Lib Wire Script Draw

/-- `txscript.ScriptFlags` as block validation sets them. -/
structure ScriptFlags where
  bip16          : Bool
  derSignatures  : Bool
  checkLockTime  : Bool
  checkSequence  : Bool
  witness        : Bool
  strictMultiSig : Bool
  taproot        : Bool
deriving DecidableEq, Repr

/-- What validation is given besides block and state: chain parameters, the
deployment states, the latest checkpoint, the record-format cutoff, and the
cryptographic libraries. -/
structure Env where
  params           : Params
  deployments      : Deployments
  latestCheckpoint : Option Nat
  vdfFormatCutoff  : Int
  /-- `NewEngine` and `Execute` for one input against the output it spends. -/
  runScript        : ScriptFlags → UtxoViewpoint → Tx → Nat → UtxoEntry → Bool
  /-- Parse signature and key, verify over the hash, serialize the key. -/
  schnorrKey       : Bytes → Bytes → Bytes → Option Bytes
  hash160          : Bytes → WalletHash

/-! ## The message a stake signs -/

def serializeNoWitness (m : MsgTx) : Bytes :=
  leBytes 4 (m.version % 2 ^ 32).toNat ++ varInt m.txIn.length ++
    m.txIn.flatMap (fun t => Hash.toBytes t.previousOutPoint.hash ++
      leBytes 4 t.previousOutPoint.index ++ varInt t.signatureScript.length ++
      t.signatureScript ++ leBytes 4 t.sequence) ++
    varInt m.txOut.length ++
    m.txOut.flatMap (fun o => leBytes 8 o.value.toUInt64.toNat ++ varInt o.pkScript.length ++
      o.pkScript) ++
    leBytes 4 m.lockTime

/-- `StakingTxSigHash`: scripts and witnesses blanked, hashed twice. -/
def stakingTxSigHash (m : MsgTx) : Bytes :=
  let blanked := { m with
    txIn := m.txIn.map fun t => { t with signatureScript := [], witness := [] } }
  Sha256.sum256 (Sha256.sum256 (serializeNoWitness blanked))

/-! ## Input authority -/

def verifyPoolStakingSchnorrWitness (env : Env) (witness : List Bytes) (sigHash : Bytes) :
    Option Bytes :=
  match witness with
  | [sig, key] =>
      if sig.length = 64 ∧ key.length = 33 then env.schnorrKey sig key sigHash else none
  | _ => none

def ownerHash (pkScript : Bytes) : Option WalletHash :=
  if pkScript.length = 25 ∧ pkScript.take 3 = [0x76, 0xa9, 0x14] ∧
      pkScript.drop 23 = [0x88, 0xac] then
    some (WalletHash.ofBytes (slice pkScript 3 23))
  else if pkScript.length = 22 ∧ pkScript.take 2 = [0x00, 0x14] then
    some (WalletHash.ofBytes (slice pkScript 2 22))
  else none

def checkStakeOwner (env : Env) (tx : Tx) (t : TxIn) (utxo : UtxoEntry) : Check Unit :=
  match verifyPoolStakingSchnorrWitness env t.witness (stakingTxSigHash tx.msgTx) with
  | none => .error (.rule .scriptValidation "pool staking tx input: bad witness")
  | some key =>
      match ownerHash utxo.pkScript with
      | none => .error (.rule .scriptValidation
          "pool staking tx input: UTXO script type not supported (only P2PKH/P2WPKH)")
      | some owner => rejectIf (env.hash160 key ≠ owner) (.rule .scriptValidation
          "pool staking tx input: witness pubkey does not own the UTXO")

def checkAuthority (env : Env) (flags : ScriptFlags) (view : UtxoViewpoint) (tx : Tx)
    (i : Nat) (t : TxIn) (utxo : UtxoEntry) : Check Unit :=
  if tx.msgTx.version = txVersionPoolStake then checkStakeOwner env tx t utxo
  else rejectIf (env.runScript flags view tx i utxo = false)
    (.rule .scriptValidation ("failed to validate input " ++ Hash.str tx.hash ++ ":" ++ toString i))

/-- One item of `checkBlockScripts` and `validateHandler`: VDF result
transactions, inputs with the maximal index and sentinel-shaped inputs are
passed over. -/
def checkInputScript (env : Env) (flags : ScriptFlags) (view : UtxoViewpoint) (tx : Tx)
    (i : Nat) (t : TxIn) : Check Unit :=
  if isVDFResultTx tx || t.previousOutPoint.index == maxPrevOutIndex ||
      isPoolDrawSentinelInput t then .ok ()
  else match view.lookupEntry t.previousOutPoint with
    | none => .error (.rule .missingTxOut
        ("unable to find unspent output " ++ t.previousOutPoint.str))
    | some utxo => checkAuthority env flags view tx i t utxo

/-- `checkBlockScripts`. The source runs the items in parallel and reports
whichever failure it sees first; here they are taken in order. -/
def checkBlockScripts (env : Env) (flags : ScriptFlags) (view : UtxoViewpoint)
    (txs : List Tx) : Check Unit :=
  forM txs fun tx => forM tx.msgTx.txIn.zipIdx fun p => checkInputScript env flags view tx p.2 p.1

/-! ## Signature operation cost -/

/-- `CountP2SHSigOps` of a transaction that is not the coinbase. -/
def countP2SHSigOps (view : UtxoViewpoint) : List TxIn → Option Nat
  | [] => some 0
  | t :: ts =>
      match view.lookupEntry t.previousOutPoint with
      | none => none
      | some utxo =>
          if utxo.isSpent then none
          else (countP2SHSigOps view ts).map fun n =>
            n + if isScriptHashScript utxo.pkScript then
              getPreciseSigOpCount t.signatureScript utxo.pkScript else 0

/-- The witness loop of `GetSigOpCost`. -/
def witnessSigOps (view : UtxoViewpoint) : List TxIn → Check Nat
  | [] => .ok 0
  | t :: ts =>
      match view.lookupEntry t.previousOutPoint with
      | none => .error (.rule .missingTxOut ("output " ++ t.previousOutPoint.str ++
          " either does not exist or has already been spent"))
      | some utxo =>
          if utxo.isSpent then .error (.rule .missingTxOut ("output " ++
            t.previousOutPoint.str ++ " either does not exist or has already been spent"))
          else do
            let n ← witnessSigOps view ts
            return getWitnessSigOpCount t.signatureScript utxo.pkScript t.witness + n

/-- `GetSigOpCost`. An input missing from the view makes the P2SH count fail,
and that failure is answered with a cost of zero. -/
def getSigOpCost (tx : Tx) (isCoinBase : Bool) (view : UtxoViewpoint) (bip16 segWit : Bool) :
    Check Nat := do
  let p2sh := if !bip16 || isCoinBase then some 0 else countP2SHSigOps view tx.msgTx.txIn
  match p2sh with
  | none => return 0
  | some n => do
      let w ← if segWit && !isCoinBase then witnessSigOps view tx.msgTx.txIn else .ok 0
      return countSigOps tx * witnessScaleFactor + n * witnessScaleFactor + w

/-- The signature-operation loop of `checkConnectBlock`; the first transaction
counts as the coinbase. -/
def checkSigOpCost (view : UtxoViewpoint) (bip16 segWit : Bool) : Bool → Nat → List Tx → Check Unit
  | _, _, [] => .ok ()
  | first, total, tx :: txs => do
      let cost ← getSigOpCost tx first view bip16 segWit
      rejectIf (maxBlockSigOpsCost < total + cost) (.rule .tooManySigOps
        ("block contains too many signature operations - got " ++ toString (total + cost)))
      checkSigOpCost view bip16 segWit false (total + cost) txs

/-! ## Sequence locks -/

structure SequenceLock where
  seconds     : Int := -1
  blockHeight : Int := -1
deriving DecidableEq, Repr

/-- One input of `calcSequenceLock`. -/
def sequenceLockInput (node : BlockNode) (utxo : UtxoEntry) (t : TxIn) (l : SequenceLock) :
    SequenceLock :=
  let inputHeight := if utxo.blockHeight = 0x7fffffff then node.height + 1 else utxo.blockHeight
  let relativeLock : Int := (t.sequence &&& 0x0000ffff : Nat)
  if t.sequence &&& 0x80000000 ≠ 0 then l
  else if t.sequence &&& 0x00400000 ≠ 0 then
    let medianTime := match node.ancestor (inputHeight - 1 : Nat) with
      | none => 0
      | some n => calcPastMedianTime n.chain
    { l with seconds := max l.seconds (medianTime + (relativeLock * 512 - 1)) }
  else { l with blockHeight := max l.blockHeight (inputHeight + (relativeLock - 1)) }

def sequenceLockInputs (node : BlockNode) (view : UtxoViewpoint) :
    SequenceLock → List TxIn → Check SequenceLock
  | l, [] => .ok l
  | l, t :: ts =>
      match view.lookupEntry t.previousOutPoint with
      | none => .error (.rule .missingTxOut ("output " ++ t.previousOutPoint.str ++
          " either does not exist or has already been spent"))
      | some utxo => sequenceLockInputs node view (sequenceLockInput node utxo t l) ts

/-- `calcSequenceLock` with the soft fork active. -/
def calcSequenceLock (node : BlockNode) (tx : Tx) (view : UtxoViewpoint) : Check SequenceLock :=
  if (tx.msgTx.version % 2 ^ 32).toNat < 2 || tx.isCoinBase then .ok {}
  else sequenceLockInputs node view {} tx.msgTx.txIn

def checkSequenceLock (node : BlockNode) (view : UtxoViewpoint) (tx : Tx) : Check Unit := do
  let l ← calcSequenceLock node tx view
  let medianTime := calcPastMedianTime node.ancestors
  rejectIf (medianTime ≤ l.seconds ∨ (node.height : Int) ≤ l.blockHeight) (.rule .unfinalizedTx
    "block contains transaction whose input sequence locks are not met")

end FalconDraw.Chain
