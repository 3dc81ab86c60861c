/-!
# Options of an assembler
-/

namespace MachineCode

def standardCapacity : Nat := 4096

structure Options where
  /-- Let conditional A64 branches go beyond their field's reach by means of a second word. -/
  farBranches : Bool
  initialCapacity : Nat
  /-- Fill memory that holds no code with breakpoints. -/
  trapFill : Bool
  deriving DecidableEq, Repr

def Options.standard : Options where
  farBranches := false
  initialCapacity := standardCapacity
  trapFill := true

inductive Architecture where
  | x86
  | a64
  deriving DecidableEq, Repr

def Architecture.name : Architecture → String
  | .x86 => "x86_64"
  | .a64 => "AArch64"

end MachineCode
