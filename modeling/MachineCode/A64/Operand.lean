import MachineCode.A64.Bitmask

/-!
# Second operands of A64 data-processing instructions
-/

namespace MachineCode.A64

inductive Shift where
  | lsl
  | lsr
  | asr
  | ror
  deriving DecidableEq, Repr

def Shift.code : Shift → BitVec 2
  | .lsl => 0
  | .lsr => 1
  | .asr => 2
  | .ror => 3

inductive Extend where
  | uxtb
  | uxth
  | uxtw
  | uxtx
  | sxtb
  | sxth
  | sxtw
  | sxtx
  deriving DecidableEq, Repr

def Extend.code : Extend → BitVec 3
  | .uxtb => 0
  | .uxth => 1
  | .uxtw => 2
  | .uxtx => 3
  | .sxtb => 4
  | .sxth => 5
  | .sxtw => 6
  | .sxtx => 7

/-- A second source operand. Each instruction says which forms it takes; the constructors below keep
amounts and immediates within their fields. -/
inductive Operand where
  | shifted (rm : Register) (shift : Shift) (amount : BitVec 8)
  | extended (rm : Register) (extend : Extend) (amount : BitVec 8)
  /-- Twelve bits, moved up by twelve places if `raised`. -/
  | immediate (imm12 : BitVec 16) (raised : Bool)
  | bitmask (imm : BitmaskImm)
  deriving DecidableEq, Repr

namespace Operand

def reg (rm : Register) : Operand :=
  .shifted rm .lsl 0#8

/-- A shifted register; the amount is checked before the register. -/
def ofShifted (rm : Register) (shift : Shift) (amount : Nat) : Except EmitError Operand :=
  if 63 < amount then .error (.immediateOverflow amount 0 63)
  else if rm = .sp then .error (.invalidOperands .shiftedStackPointer none)
  else .ok (.shifted rm shift (BitVec.ofNat 8 amount))

def ofExtended (rm : Register) (extend : Extend) (amount : Nat) : Except EmitError Operand :=
  if 4 < amount then .error (.immediateOverflow amount 0 4)
  else .ok (.extended rm extend (BitVec.ofNat 8 amount))

/-- The operand for an addition or subtraction of `value`: twelve bits, at the bottom or raised. -/
def ofImmediate? (value : Int) : Option Operand :=
  if 0 ≤ value ∧ value < 4096 then
    some (.immediate (BitVec.ofInt 16 value) false)
  else if value % 4096 = 0 ∧ 0 ≤ value / 4096 ∧ value / 4096 < 4096 then
    some (.immediate (BitVec.ofInt 16 (value / 4096)) true)
  else
    none

/-- The value reduced to what an operand of `width` bits compares it with: at 32 bits, a value whose
upper half is all zeros stays and one whose upper half is all ones loses it. -/
def narrow? (value : Int) (width : Nat) : Option Int :=
  if width = 32 then
    if value / 0x100000000 = 0 then some value
    else if value / 0x100000000 = -1 then some (value % 0x100000000)
    else none
  else
    some value

/-- The first of an addition immediate and a bitmask immediate that holds `value` in an instruction
of `width` bits. -/
def holding? (value : Int) (width : Nat) : Except Violation (Option Operand) :=
  match narrow? value width with
  | none => .ok none
  | some value =>
    match ofImmediate? value with
    | some operand => .ok (some operand)
    | none => do
      let imm ← BitmaskImm.encode (BitVec.ofInt 64 value) width
      return imm.map .bitmask

def register? : Operand → Option Register
  | .shifted rm .. | .extended rm .. => some rm
  | _ => none

end Operand

end MachineCode.A64
