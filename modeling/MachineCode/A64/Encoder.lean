import MachineCode.A64.AccessSize
import MachineCode.A64.Operand

/-!
# Encoders of single A64 instructions

An encoder is told the offset at which its word would stand and gives the word or an error. Only
errors depend on the offset. Operands are checked in the order in which the encoders below ask for
them.
-/

namespace MachineCode.A64

/-- A word, or the reason why there is none, for an instruction at a given offset. -/
abbrev Encoder := Nat → Except EmitError Word

inductive Width where
  | w
  | x
  deriving DecidableEq, Repr

def Width.bits : Width → Nat
  | .w => 32
  | .x => 64

def Width.bit (width : Width) : Word :=
  flag 31 (width = .x)

def refuse {α : Type} (misuse : Misuse) (offset : Nat) : Except EmitError α :=
  .error (.invalidOperands misuse (some offset))

/-- A register at its place in the word; the register must be one that the field can name. -/
def registerField (lsb : Nat) (slot31 : Slot31) (register : Register) (offset : Nat) :
    Except EmitError Word :=
  match register.slot slot31 with
  | some number => .ok (field lsb number)
  | none => refuse (.slot register slot31) offset

/-- A number that must fit an unsigned field of `bits` bits. -/
def unsignedField (bits value : Nat) : Except EmitError (BitVec bits) :=
  let count : Nat := 1 <<< bits
  if value < count then .ok (BitVec.ofNat bits value)
  else .error (.immediateOverflow value 0 (count - 1))

/-- The amount of a shifted operand, which must be below the register width. -/
def checkAmount (width : Width) (amount : BitVec 8) : Except EmitError Unit :=
  if amount.toNat < width.bits then .ok ()
  else .error (.immediateOverflow amount.toNat 0 (width.bits - 1))

end MachineCode.A64
