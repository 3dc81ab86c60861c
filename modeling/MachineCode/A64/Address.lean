import MachineCode.A64.AccessSize
import MachineCode.A64.Operand
import MachineCode.Displacement

/-!
# A64 memory operands

An address is checked when it is made and holds its bits of the instruction; loads and stores add
the opcode, the size and the register that is transferred.
-/

namespace MachineCode.A64

inductive AddressMode where
  /-- Base plus offset. -/
  | offset
  /-- Base plus offset, written back to the base before the access. -/
  | preIndex
  /-- The base, to which the offset is added after the access. -/
  | postIndex
  | pairOffset
  | pairPreIndex
  | pairPostIndex
  /-- Base plus index register. -/
  | index
  /-- Relative to the instruction. -/
  | literal
  deriving DecidableEq, Repr

def AddressMode.isPair : AddressMode → Bool
  | .pairOffset | .pairPreIndex | .pairPostIndex => true
  | _ => false

/-- A memory operand: its mode and its bits of the instruction. -/
structure Address where
  mode : AddressMode
  encoding : Word
  deriving DecidableEq, Repr

namespace Address

/-- The value fits a signed field of `bits` bits. -/
def IsInt (bits : Nat) (value : Int) : Prop :=
  -(1 <<< (bits - 1) : Nat) ≤ value ∧ value < (1 <<< (bits - 1) : Nat)

def IsUint (bits : Nat) (value : Int) : Prop :=
  0 ≤ value ∧ value < (1 <<< bits : Nat)

/-- The value is a multiple of two to the `scale`. -/
def IsAligned (value : Int) (scale : Nat) : Prop :=
  value % (1 <<< scale : Nat) = 0

instance (bits : Nat) (value : Int) : Decidable (IsInt bits value) :=
  inferInstanceAs (Decidable (_ ∧ _))

instance (bits : Nat) (value : Int) : Decidable (IsUint bits value) :=
  inferInstanceAs (Decidable (_ ∧ _))

instance (value : Int) (scale : Nat) : Decidable (IsAligned value scale) :=
  inferInstanceAs (Decidable (_ = _))

/-- The offset has the form of a scaled unsigned twelve-bit field. -/
def IsScaled (offset : Int) (scale : Nat) : Prop :=
  IsUint (12 + scale) offset ∧ IsAligned offset scale

instance (offset : Int) (scale : Nat) : Decidable (IsScaled offset scale) :=
  inferInstanceAs (Decidable (_ ∧ _))

/-- Whether a mode can express an offset for accesses of the given size. -/
def takesOffset (offset : Int) (mode : AddressMode) (size : AccessSize) : Bool :=
  match mode with
  | .offset => IsScaled offset size.log2 ∨ IsInt 9 offset
  | .preIndex | .postIndex => IsInt 9 offset
  | .pairOffset | .pairPreIndex | .pairPostIndex =>
    IsInt (7 + size.log2) offset ∧ IsAligned offset size.log2
  | .literal => DispField.imm19.Fits offset
  | .index => false

/-- The bits of a base register, which can be the stack pointer and not the zero register. -/
def baseBits (rn : Register) : Except EmitError Word :=
  match rn.slot .stackPointer with
  | some slot => .ok (field 5 slot)
  | none => .error (.invalidOperands .zeroBase none)

def offsetError (offset : Int) (mode : AddressMode) (size : AccessSize) : EmitError :=
  let unit := size.bytes
  match mode with
  | .offset => .immediateOverflow offset (-256) (4095 * unit)
  | .preIndex | .postIndex => .immediateOverflow offset (-256) 255
  | _ =>
    if IsAligned offset size.log2 then .immediateOverflow offset (-64 * unit) (63 * unit)
    else .misalignedOffset offset unit

def offsetBits (offset : Int) (mode : AddressMode) (size : AccessSize) : Word :=
  let imm9 := field 12 (BitVec.ofInt 9 offset)
  let imm7 := field 15 (BitVec.ofInt 7 (offset / size.bytes))
  match mode with
  | .offset =>
    if IsScaled offset size.log2 then
      flag 24 true ||| field 10 (BitVec.ofInt 32 (offset / size.bytes))
    else
      imm9
  | .preIndex => flag 11 true ||| flag 10 true ||| imm9
  | .postIndex => flag 10 true ||| imm9
  | .pairOffset => flag 24 true ||| imm7
  | .pairPreIndex => flag 24 true ||| flag 23 true ||| imm7
  | _ => flag 23 true ||| imm7

/-- Base and immediate offset. The mode is checked first, then the base, then the offset. -/
def ofOffset (rn : Register) (offset : Int) (mode : AddressMode) (size : AccessSize) :
    Except EmitError Address :=
  if mode = .index ∨ mode = .literal then
    .error (.invalidOperands .dedicatedMode none)
  else do
    let base ← baseBits rn
    if takesOffset offset mode size then
      return ⟨mode, offsetBits offset mode size ||| base⟩
    else
      throw (offsetError offset mode size)

def ofBase (rn : Register) : Except EmitError Address :=
  ofOffset rn 0 .offset .doubleWord

/-- Base and index register. The index can be scaled by the access size if it is extended by
`uxtx`. -/
def ofIndexed (rn rm : Register) (extend : Extend) (scaled : Bool) : Except EmitError Address := do
  let base ← baseBits rn
  match rm.slot .zero with
  | none => throw (.invalidOperands .stackPointerIndex none)
  | some index =>
    if extend ∉ [Extend.uxtw, .uxtx, .sxtw, .sxtx] then
      throw (.invalidOperands .indexExtend none)
    if scaled ∧ extend ≠ .uxtx then
      throw (.invalidOperands .scaledExtend none)
    return ⟨.index, flag 21 true ||| flag 11 true ||| flag 12 scaled ||| base |||
      field 16 index ||| field 13 extend.code⟩

def ofLiteral (offset : Int) : Except EmitError Address := do
  return ⟨.literal, ← DispField.imm19.encode offset 0⟩

def isPair (address : Address) : Bool :=
  address.mode.isPair

end Address

end MachineCode.A64
