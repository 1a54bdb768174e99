/-
FalconDraw.Chain.RuleError — how a check fails (blockchain/error.go).

A `RuleError` is a verdict on the block: it broke a consensus rule. An
`AssertError` is the code noticing that its own state is not what it should be.
-/
import FalconDraw.Lib.Check
import FalconDraw.Wire.Types

namespace FalconDraw.Chain

/-- The `ErrorCode`s the modelled checks return. -/
inductive ErrorCode where
  | duplicateBlock | previousBlockUnknown | invalidAncestorBlock | prevBlockNotBest
  | noTxInputs | noTxOutputs | txTooBig | badTxOutValue | duplicateTxInputs
  | badCoinbaseScriptLen | badTxInput
  | noTransactions | blockTooBig | blockWeightTooHigh | firstTxNotCoinbase | multipleCoinbases
  | duplicateTx
  | tooManySigOps | missingTxOut | overwriteTx | immatureSpend | spendTooHigh | badFees
  | badCoinbaseValue | unfinalizedTx | scriptMalformed | scriptValidation
  | badDrawSettlementTx | missingDrawSettlementTx | settlementTxWithoutVDFResult
  | badVDFResultTx | checkpointTimeTooOld | difficultyTooLow | badMerkleRoot
  | unexpectedDifficulty | highHash | timeTooNew | timeTooOld | timewarpAttack
  | blockVersionTooOld | badCheckpoint | forkTooOld
deriving DecidableEq, Repr

inductive Err where
  | rule (code : ErrorCode) (description : String)
  | assert (description : String)
deriving DecidableEq, Repr

/-- A check of the blockchain package. -/
abbrev Check (α : Type) := Except Err α

/-- The Boolean side of a check: did it pass. -/
def Accepts {α : Type} (c : Check α) : Prop := ∃ a, c = .ok a

instance {α : Type} (c : Check α) : Decidable (Accepts c) :=
  match c with
  | .ok a => .isTrue ⟨a, rfl⟩
  | .error _ => .isFalse fun ⟨_, h⟩ => nomatch h

end FalconDraw.Chain
