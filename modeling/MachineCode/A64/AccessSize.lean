import MachineCode.Bits

/-!
# Access sizes and register widths of A64
-/

namespace MachineCode.A64

inductive AccessSize where
  | byte
  | unsignedByte
  | halfword
  | unsignedHalfword
  | word
  | unsignedWord
  | doubleWord
  deriving DecidableEq, Repr

namespace AccessSize

/-- Logarithm to base two of the number of bytes. -/
def log2 : AccessSize → Nat
  | .byte | .unsignedByte => 0
  | .halfword | .unsignedHalfword => 1
  | .word | .unsignedWord => 2
  | .doubleWord => 3

def bytes (size : AccessSize) : Nat :=
  1 <<< size.log2

def isSigned : AccessSize → Bool
  | .byte | .halfword | .word => true
  | _ => false

/-- The register width in bits that a data-processing instruction of this size works on. -/
def width : AccessSize → Nat
  | .doubleWord => 64
  | _ => 32

def widthBit (size : AccessSize) : Word :=
  flag 31 (size = .doubleWord)

end AccessSize

end MachineCode.A64
