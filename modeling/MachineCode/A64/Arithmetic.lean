import MachineCode.A64.Encoder
import MachineCode.A64.Condition

/-!
# A64 arithmetic, bitfield moves and conditional selects
-/

namespace MachineCode.A64

inductive AddSub where
  | add
  | sub
  deriving DecidableEq, Repr

/-- `add`, `sub` and their forms that set the flags. A form that sets the flags reads number 31 of
its destination as the zero register; otherwise an immediate or extended operand goes with the
stack pointer and a shifted one with the zero register. -/
def addSub (op : AddSub) (width : Width) (setFlags : Bool) (rd rn : Register) (operand : Operand) :
    Encoder := fun offset => do
  let common := width.bit ||| flag 30 (op = .sub) ||| flag 29 setFlags
  let target := if setFlags then Slot31.zero else .stackPointer
  match operand with
  | .immediate imm12 raised =>
    let n ← registerField 5 .stackPointer rn offset
    let d ← registerField 0 target rd offset
    return 0x11000000#32 ||| common ||| flag 22 raised ||| field 10 imm12 ||| n ||| d
  | .shifted rm shift amount =>
    if shift = .ror then
      refuse .rotatedAddend offset
    checkAmount width amount
    let m ← registerField 16 .zero rm offset
    let n ← registerField 5 .zero rn offset
    let d ← registerField 0 .zero rd offset
    return 0x0B000000#32 ||| common ||| field 22 shift.code ||| m ||| field 10 amount ||| n ||| d
  | .extended rm extend amount =>
    let m ← registerField 16 .zero rm offset
    let n ← registerField 5 .stackPointer rn offset
    let d ← registerField 0 target rd offset
    return 0x0B200000#32 ||| common ||| m ||| field 13 extend.code ||| field 10 amount ||| n ||| d
  | .bitmask _ => refuse .bitmaskAddend offset

/-! ## Bitfield moves -/

/-- `ubfm`, or `sbfm` if `signed`, on 64 bits. -/
def bitfieldMove (signed : Bool) (rd rn : Register) (immR immS : Nat) : Encoder := fun offset => do
  let r ← unsignedField 6 immR
  let s ← unsignedField 6 immS
  let n ← registerField 5 .zero rn offset
  let d ← registerField 0 .zero rd offset
  let opcode := if signed then 0x13000000#32 else 0x53000000#32
  return opcode ||| Width.x.bit ||| flag 22 true ||| field 16 r ||| field 10 s ||| n ||| d

/-- `lsl` by a constant, a bitfield move that rotates by the complement. -/
def shiftLeft (rd rn : Register) (amount : Nat) : Encoder := fun offset => do
  let _ ← unsignedField 6 amount
  bitfieldMove false rd rn ((64 - amount) % 64) (63 - amount) offset

/-! ## Conditional selects -/

/-- What a conditional select makes of its second source. -/
inductive Select where
  | plain
  | increment
  | invert
  | negate
  deriving DecidableEq, Repr

def Select.opcode : Select → Word
  | .plain => 0x1A800000#32
  | .increment => 0x1A800400#32
  | .invert => 0x5A800000#32
  | .negate => 0x5A800400#32

def conditionalSelect (select : Select) (rd rn rm : Register) (condition : Condition) :
    Encoder := fun offset => do
  let m ← registerField 16 .zero rm offset
  let n ← registerField 5 .zero rn offset
  let d ← registerField 0 .zero rd offset
  return select.opcode ||| Width.x.bit ||| m ||| field 12 condition.code ||| n ||| d

/-! ## Multiplication and division -/

def multiplyAdd (subtract : Bool) (rd rn rm ra : Register) : Encoder := fun offset => do
  let m ← registerField 16 .zero rm offset
  let a ← registerField 10 .zero ra offset
  let n ← registerField 5 .zero rn offset
  let d ← registerField 0 .zero rd offset
  return 0x1B000000#32 ||| flag 15 subtract ||| Width.x.bit ||| m ||| a ||| n ||| d

def divide (signed : Bool) (rd rn rm : Register) : Encoder := fun offset => do
  let m ← registerField 16 .zero rm offset
  let n ← registerField 5 .zero rn offset
  let d ← registerField 0 .zero rd offset
  return 0x1AC00800#32 ||| flag 10 signed ||| Width.x.bit ||| m ||| n ||| d

/-- `adr`: the address `displacement` bytes from the instruction. -/
def adr (rd : Register) (displacement : Int) : Encoder := fun offset => do
  if displacement < -0x100000 ∨ 0x100000 ≤ displacement then
    throw (.immediateOverflow displacement (-0x100000) 0xFFFFF)
  let imm := BitVec.ofInt 21 displacement
  let d ← registerField 0 .zero rd offset
  return 0x10000000#32 ||| field 29 (imm.extractLsb' 0 2) ||| field 5 (imm.extractLsb' 2 19) ||| d

end MachineCode.A64
