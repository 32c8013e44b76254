import Aegisum.Foundations.Checked

/-!
# Validation states

How a check can end: it passes, it finds the block or transaction invalid with a result and a
reject reason, or it leaves by an exception or a failed assertion.
-/

namespace Aegisum

/-- Why a block is invalid. -/
inductive BlockValidationResult
  | blockConsensus
  | blockRecentConsensusChange
  | blockCachedInvalid
  | blockInvalidHeader
  | blockMutated
  | blockMissingPrev
  | blockInvalidPrev
  | blockTimeFuture
  | blockCheckpoint
deriving DecidableEq

/-- Why a transaction is invalid. -/
inductive TxValidationResult
  | txConsensus
  | txRecentConsensusChange
  | txInputsNotStandard
  | txNotStandard
  | txMissingInputs
  | txPrematureSpend
  | txWitnessMutated
  | txWitnessStripped
  | txConflict
  | txMempoolPolicy
deriving DecidableEq

/-- How a check with results in `R` fails. -/
inductive Failure (R : Type)
  /-- The state is set to invalid. -/
  | invalid (result : R) (rejectReason : String)
  /-- An exception leaves the function, an assertion fails, or the node shuts down. -/
  | exception
deriving DecidableEq

/-- The failures of block checks. -/
abbrev BlockFailure := Failure BlockValidationResult

/-- The failures of transaction checks. -/
abbrev TxFailure := Failure TxValidationResult

/-- Use a value that must be there. -/
def orThrow {R α : Type} : Option α → Except (Failure R) α
  | some a => .ok a
  | none => .error .exception

@[simp] lemma orThrow_eq_ok {R α : Type} {x : Option α} {a : α} :
    (orThrow x : Except (Failure R) α) = .ok a ↔ x = some a := by
  cases x <;> simp [orThrow]

end Aegisum
