import MachineCode.A64.Encoder

/-!
# A64 logical instructions
-/

namespace MachineCode.A64

inductive LogicalOp where
  | and
  | orr
  | eor
  | ands
  deriving DecidableEq, Repr

def LogicalOp.code : LogicalOp → BitVec 2
  | .and => 0
  | .orr => 1
  | .eor => 2
  | .ands => 3

/-- The bitmask immediate with a given value of an operand of the given width. -/
def Width.bitmask? (width : Width) (value : BitVec 64) : Option BitmaskImm :=
  match width with
  | .w => BitmaskImm.encode32 value
  | .x => BitmaskImm.encode64 value

/-- A logical instruction with an immediate. Only `ands` reads number 31 of its destination as the
zero register. -/
def logicalImmediate (op : LogicalOp) (width : Width) (rd rn : Register) (value : BitVec 64) :
    Encoder := fun offset => do
  match width.bitmask? value with
  | none => throw (.notEncodable value width.bits)
  | some imm =>
    let target := if op = .ands then Slot31.zero else .stackPointer
    let n ← registerField 5 .zero rn offset
    let d ← registerField 0 target rd offset
    return 0x12000000#32 ||| width.bit ||| field 29 op.code ||| imm.bits ||| n ||| d

/-- A logical instruction on 64 bits with a shifted register, inverted first if `negate`. -/
def logicalRegister (op : LogicalOp) (negate : Bool) (rd rn : Register) (operand : Operand) :
    Encoder := fun offset => do
  match operand with
  | .shifted rm shift amount =>
    checkAmount .x amount
    let m ← registerField 16 .zero rm offset
    let n ← registerField 5 .zero rn offset
    let d ← registerField 0 .zero rd offset
    return 0x0A000000#32 ||| Width.x.bit ||| field 29 op.code ||| field 22 shift.code |||
      flag 21 negate ||| m ||| field 10 amount ||| n ||| d
  | _ => refuse .unshiftedLogical offset

end MachineCode.A64
