import MachineCode.Error

/-!
# Violations

A violation is a broken assertion: a caller went past a documented limit of an operation, or a state
was reached that the assemblers never reach. It ends the work, unlike an error.
-/

namespace MachineCode

inductive Violation where
  /-- An unchecked write beyond the allocated memory. -/
  | writePastMemory
  /-- A load or store that is not wholly inside the emitted code. -/
  | patchOutsideCode (offset : Nat)
  /-- More bytes than the gap under one capacity check. -/
  | gapOverrun (written : Nat)
  /-- A bitmask immediate of a width other than 32 and 64. -/
  | operandWidth
  | addOverflow
  | subtractOverflow
  | shiftLeftOverflow
  | shiftRightOverflow
  /-- A displacement that its field cannot hold. -/
  | displacementUnfit (displacement : Int)
  /-- A new site that does not lie after the head of its chain. -/
  | siteBeforeHead
  /-- A stored link that does not point backwards. -/
  | forwardLink
  /-- A chain with more sites than offsets below its head. -/
  | endlessChain
  /-- A site pushed on a chain of a bound label. -/
  | boundLabelLinked
  /-- A label resolved in a buffer that counts no pending label. -/
  | nothingPending
  deriving DecidableEq, Repr

def Violation.message : Violation → String
  | .writePastMemory => "code buffer write past allocated memory"
  | .patchOutsideCode offset => s!"patch at {hexText offset} outside emitted code"
  | .gapOverrun written => s!"instruction wrote {written} bytes under one capacity check"
  | .operandWidth => "assertion failed: width == 32 || width == 64"
  | .addOverflow => "attempt to add with overflow"
  | .subtractOverflow => "attempt to subtract with overflow"
  | .shiftLeftOverflow => "attempt to shift left with overflow"
  | .shiftRightOverflow => "attempt to shift right with overflow"
  | .displacementUnfit displacement => s!"displacement {displacement} does not fit"
  | .siteBeforeHead => "chain site must lie after the head"
  | .forwardLink => "chain link must point backwards"
  | .endlessChain => "chain does not end"
  | .boundLabelLinked => "linking a bound label"
  | .nothingPending => "no label is pending"

/-- How an emission stops early. -/
inductive Failure where
  | error (error : EmitError)
  | violation (violation : Violation)
  /-- Nothing that can be done was asked for. -/
  | refused
  deriving DecidableEq, Repr

/-- An asserted computation among ones that may fail. -/
def ofAsserted {α : Type} (result : Except Violation α) : Except Failure α :=
  result.mapError .violation

end MachineCode
