/-
FalconDraw.Mempool.Policy — what the pool accepts beyond the consensus rules
(mempool/policy.go, error.go).

Sizes, fees, dust and the standard script forms.
-/
import FalconDraw.Mining.Selection

namespace FalconDraw.Mempool

open Lib Wire Script Draw Chain
  FalconDraw.Mining

/-! ## Errors -/

/-- `wire.RejectCode`, as far as the pool uses it. -/
inductive RejectCode
  | invalid
  | duplicate
  | nonstandard
  | dust
  | insufficientFee
deriving DecidableEq, Repr

/-- `TxRuleError`, or an error of the chain's checks. `panic` is a nil pointer
followed, `unfinished` a recursion deeper than its bound. -/
inductive PoolError
  | tx (code : RejectCode) (msg : String)
  | chain (e : Err)
  | panic
  | unfinished

def PoolError.fatal : PoolError → Bool
  | .panic | .unfinished => true
  | _ => false

abbrev Admission (α : Type) := Except PoolError α

/-- `txRuleError` when the condition holds. -/
def refuseIf (p : Prop) [Decidable p] (code : RejectCode) (msg : String) : Admission Unit :=
  rejectIf p (.tx code msg)

/-- `chainRuleError`: a check of the chain, its error wrapped. -/
def ofChain {α : Type} : Check α → Admission α
  | .ok a => .ok a
  | .error e => .error (.chain e)

@[simp] theorem refuseIf_eq_ok {p : Prop} [Decidable p] {code : RejectCode} {msg : String} :
    refuseIf p code msg = .ok () ↔ ¬ p :=
  rejectIf_eq_ok

@[simp] theorem ofChain_eq_ok {α : Type} {c : Check α} {a : α} : ofChain c = .ok a ↔ c = .ok a := by
  cases c <;> simp [ofChain]

/-! ## Policy -/

structure Policy where
  maxTxVersion         : Int
  disableRelayPriority : Bool
  acceptNonStd         : Bool
  maxOrphanTxs         : Nat
  maxOrphanTxSize      : Nat
  maxSigOpCostPerTx    : Nat
  minRelayTxFee        : Int64
  rejectReplacement    : Bool
deriving DecidableEq, Repr

inductive ScriptClass
  | nonStandard
  | pubKey
  | pubKeyHash
  | witnessV0PubKeyHash
  | scriptHash
  | witnessV0ScriptHash
  | multiSig
  | nullData
  | witnessV1Taproot
  | payToAnchor
  | witnessUnknown
deriving DecidableEq, Repr

/-- `Config`: the chain's rules, the policy and the libraries. -/
structure Config where
  env               : Env
  policy            : Policy
  getScriptClass    : Bytes → ScriptClass
  /-- `CalcMultiSigStats`: keys and signatures, or a parse failure. -/
  calcMultiSigStats : Bytes → Option (Nat × Nat)
  /-- `CalcPriority` is above `MinHighPriority`. -/
  highPriority      : MsgTx → UtxoViewpoint → Nat → Bool
  /-- The script engine with `StandardVerifyFlags`. -/
  runStandard       : UtxoViewpoint → Tx → Nat → UtxoEntry → Bool

def minStandardTxNonWitnessSize : Nat := 65

def defaultBlockPrioritySize : Int64 := 50000

def maxStandardP2SHSigOps : Nat := 15

def maxStandardTxWeight : Nat := 20000000

def maxStandardSigScriptSize : Nat := 1650

def maxStandardMultiSigKeys : Nat := 3

def getTxVirtualSize (m : MsgTx) : Int64 :=
  Int64.ofNat ((getTransactionWeight m + (witnessScaleFactor - 1)) / witnessScaleFactor)

def calcMinRequiredTxRelayFee (serializedSize minRelayTxFee : Int64) : Int64 :=
  let minFee := serializedSize * minRelayTxFee / 1000
  let minFee := if minFee = 0 ∧ 0 < minRelayTxFee then minRelayTxFee else minFee
  if minFee < 0 ∨ maxSatoshi < minFee then maxSatoshi else minFee

/-! ## Standard transactions -/

def getDustThreshold (out : TxOut) : Int64 :=
  let spend := if (extractWitnessProgramInfo out.pkScript).isSome then 107 / witnessScaleFactor
    else 107
  3 * Int64.ofNat (out.serializeSize + 41 + spend)

def isDust (out : TxOut) (minRelayTxFee : Int64) : Bool :=
  isUnspendable out.pkScript || out.value * 1000 / getDustThreshold out < minRelayTxFee

def isPayToAnchorScript (script : Bytes) : Bool := script == [0x51, 0x02, 0x4e, 0x73]

/-- `checkInputsStandard`, from input `i` on. A missing entry would be a nil
pointer. -/
def checkInputsStandard (cfg : Config) (view : UtxoViewpoint) : Nat → List TxIn → Admission Unit
  | _, [] => .ok ()
  | i, t :: ts =>
      match view.lookupEntry t.previousOutPoint with
      | none => .error .panic
      | some entry => do
          if isPayToAnchorScript entry.pkScript then
            refuseIf (t.signatureScript ≠ []) .nonstandard ("transaction input #" ++ toString i ++
              " spends P2A output with non-empty signature script")
            refuseIf (t.witness ≠ []) .nonstandard ("transaction input #" ++ toString i ++
              " spends P2A output with non-empty witness")
          else match cfg.getScriptClass entry.pkScript with
            | .scriptHash =>
                let numSigOps := getPreciseSigOpCount t.signatureScript entry.pkScript
                refuseIf (maxStandardP2SHSigOps < numSigOps) .nonstandard ("transaction input #" ++
                  toString i ++ " has " ++ toString numSigOps ++
                  " signature operations which is more than the allowed max amount of " ++
                  toString maxStandardP2SHSigOps)
            | .nonStandard => .error (.tx .nonstandard ("transaction input #" ++ toString i ++
                " has a non-standard script form"))
            | _ => .ok ()
          checkInputsStandard cfg view (i + 1) ts

def checkPkScriptStandard (cfg : Config) (pkScript : Bytes) : ScriptClass → Admission Unit
  | .multiSig =>
      match cfg.calcMultiSigStats pkScript with
      | none => .error (.tx .nonstandard "multi-signature script parse failure")
      | some (numPubKeys, numSigs) => do
          refuseIf (numPubKeys < 1) .nonstandard "multi-signature script with no pubkeys"
          refuseIf (maxStandardMultiSigKeys < numPubKeys) .nonstandard
            ("multi-signature script with " ++ toString numPubKeys ++
              " public keys which is more than the allowed max of " ++
              toString maxStandardMultiSigKeys)
          refuseIf (numSigs < 1) .nonstandard "multi-signature script with no signatures"
          refuseIf (numPubKeys < numSigs) .nonstandard ("multi-signature script with " ++
            toString numSigs ++ " signatures which is more than the available " ++
            toString numPubKeys ++ " public keys")
  | .nonStandard => .error (.tx .nonstandard "non-standard script form")
  | _ => .ok ()

/-- The text and code with which an inner refusal is passed on, behind a label. -/
def relabel (label : String) : Admission Unit → Admission Unit
  | .error (.tx code msg) => .error (.tx code (label ++ msg))
  | r => r

/-- The input loop of `CheckTransactionStandard`. -/
def checkSigScriptsStandard : Nat → List TxIn → Admission Unit
  | _, [] => .ok ()
  | i, t :: ts => do
      refuseIf (maxStandardSigScriptSize < t.signatureScript.length) .nonstandard
        ("transaction input " ++ toString i ++ ": signature script size is larger than max " ++
          "allowed: " ++ toString t.signatureScript.length ++ " > " ++
          toString maxStandardSigScriptSize ++ " bytes")
      refuseIf (isPushOnlyScript t.signatureScript = false) .nonstandard
        ("transaction input " ++ toString i ++ ": signature script is not push only")
      checkSigScriptsStandard (i + 1) ts

/-- The output loop of `CheckTransactionStandard`: the number of outputs that only
carry data. -/
def checkOutputsStandard (cfg : Config) : Nat → List TxOut → Admission Nat
  | _, [] => .ok 0
  | i, out :: outs => do
      let scriptClass := cfg.getScriptClass out.pkScript
      relabel ("transaction output " ++ toString i ++ ": ")
        (checkPkScriptStandard cfg out.pkScript scriptClass)
      refuseIf (scriptClass ≠ .nullData ∧ isDust out cfg.policy.minRelayTxFee = true) .dust
        ("transaction output " ++ toString i ++ ": payment is dust: " ++ toString out.value)
      let numNullDataOutputs ← checkOutputsStandard cfg (i + 1) outs
      return numNullDataOutputs + if scriptClass = .nullData then 1 else 0

/-- What `ValidatePoolStakeTx` says without a view, as the pool reports it. -/
def checkStakeStandard (tx : Tx) (height : Nat) : Admission Unit :=
  match validatePoolStakeTx tx height none with
  | .ok () => .ok ()
  | .error (.rule _ msg) | .error (.assert msg) =>
      .error (.tx .nonstandard ("invalid pool staking tx: " ++ msg))

def checkTransactionStandard (cfg : Config) (tx : Tx) (height : Nat) (medianTimePast : Int) :
    Admission Unit := do
  let msgTx := tx.msgTx
  refuseIf (cfg.policy.maxTxVersion < msgTx.version ∨ msgTx.version < 1) .nonstandard
    ("transaction version " ++ toString msgTx.version ++ " is not in the valid range of 1-" ++
      toString cfg.policy.maxTxVersion)
  checkWhen (msgTx.version = txVersionPoolStake) (checkStakeStandard tx height)
  refuseIf (isFinalizedTransaction tx height medianTimePast = false) .nonstandard
    "transaction is not finalized"
  refuseIf (maxStandardTxWeight < getTransactionWeight msgTx) .nonstandard
    ("weight of transaction is larger than max allowed: " ++
      toString (getTransactionWeight msgTx) ++ " > " ++ toString maxStandardTxWeight)
  checkSigScriptsStandard 0 msgTx.txIn
  let numNullDataOutputs ← checkOutputsStandard cfg 0 msgTx.txOut
  refuseIf (1 < numNullDataOutputs) .nonstandard
    "more than one transaction output in a nulldata script"

end FalconDraw.Mempool
