import MachineCode.X86.Register
import MachineCode.Error

/-!
# x86-64 operands

A register or memory operand becomes a ModR/M byte, perhaps a SIB byte, and a displacement of no,
one or four bytes; the fourth bits of its registers go to the REX byte.
-/

namespace MachineCode.X86

/-- The immediate fits a byte with its sign. -/
def IsInt8 (value : Int) : Prop :=
  -0x80 ≤ value ∧ value < 0x80

def IsInt32 (value : Int) : Prop :=
  -0x80000000 ≤ value ∧ value < 0x80000000

def IsUint32 (value : Int) : Prop :=
  0 ≤ value ∧ value < 0x100000000

instance (value : Int) : Decidable (IsInt8 value) := inferInstanceAs (Decidable (_ ∧ _))

instance (value : Int) : Decidable (IsInt32 value) := inferInstanceAs (Decidable (_ ∧ _))

instance (value : Int) : Decidable (IsUint32 value) := inferInstanceAs (Decidable (_ ∧ _))

inductive Memory where
  | base (base : Register) (displacement : Int32)
  | indexed (base index : Register) (scale : Scale) (displacement : Int32)
    (index_ne : index ≠ .rsp)
  /-- Relative to the end of the instruction. -/
  | rip (displacement : Int32)
  deriving DecidableEq

inductive Operand where
  | reg (register : Register)
  | mem (memory : Memory)
  deriving DecidableEq

/-- Base, index and displacement. The stack pointer cannot be an index. -/
def Memory.ofIndexed (base index : Register) (scale : Scale) (displacement : Int32) :
    Except EmitError Memory :=
  if h : index = .rsp then .error (.invalidOperands .stackPointerScaled none)
  else .ok (.indexed base index scale displacement h)

/-! ## Encoding -/

/-- How many displacement bytes follow a base register: none, one or four. -/
inductive DispWidth where
  | none
  | byte
  | dword
  deriving DecidableEq, Repr

/-- The `mod` bits of a displacement width. -/
def DispWidth.code : DispWidth → BitVec 2
  | .none => 0
  | .byte => 1
  | .dword => 2

/-- The shortest displacement after a base register. The registers whose low bits are 101 have no
form without a displacement. -/
def dispWidth (base : Register) (displacement : Int32) : DispWidth :=
  if displacement = 0 ∧ base.low ≠ 5#3 then .none
  else if IsInt8 displacement.toInt then .byte
  else .dword

def DispWidth.bytes (width : DispWidth) (displacement : Int32) : List Byte :=
  match width with
  | .none => []
  | .byte => littleEndian 1 displacement.toBitVec
  | .dword => littleEndian 4 displacement.toBitVec

def modRM (mode : BitVec 2) (reg rm : BitVec 3) : Byte :=
  mode ++ reg ++ rm

def sib (scale : BitVec 2) (index base : BitVec 3) : Byte :=
  scale ++ index ++ base

/-- The bytes of a memory operand, with `reg` in the ModR/M byte. -/
def Memory.encode (reg : BitVec 3) : Memory → List Byte
  | .base register displacement =>
    let width := dispWidth register displacement
    modRM width.code reg register.low ::
      ((if register.low = 4#3 then [sib 0 4 4] else []) ++ width.bytes displacement)
  | .indexed register index scale displacement _ =>
    let width := dispWidth register displacement
    modRM width.code reg 4 :: sib scale.code index.low register.low :: width.bytes displacement
  | .rip displacement => modRM 0 reg 5 :: littleEndian 4 displacement.toBitVec

def Operand.encode (reg : BitVec 3) : Operand → List Byte
  | .reg register => [modRM 3 reg register.low]
  | .mem memory => memory.encode reg

/-- Whether the operand's base or direct register is an extended one. -/
def Operand.extendsBase : Operand → Bool
  | .reg register => register.isExtended
  | .mem (.base base _) | .mem (.indexed base ..) => base.isExtended
  | .mem (.rip _) => false

def Operand.extendsIndex : Operand → Bool
  | .mem (.indexed _ index ..) => index.isExtended
  | _ => false

/-! ## Registers of an operand -/

def Operand.register? : Operand → Option Register
  | .reg register => some register
  | .mem _ => none

/-- Whether the operand names a register: as itself, as the base or as the index. -/
def Operand.uses (register : Register) : Operand → Bool
  | .reg r => r = register
  | .mem (.base base _) => base = register
  | .mem (.indexed base index ..) => base = register ∨ index = register
  | .mem (.rip _) => false

/-- Whether a SIB byte at the front names a register. As an index, 4 stands for none. -/
def sibNames (register : Register) (baseBit indexBit : Bool) : List Byte → Bool
  | [] => false
  | sib :: _ =>
    let base := BitVec.ofBool baseBit ++ sib.extractLsb' 0 3
    let index := BitVec.ofBool indexBit ++ sib.extractLsb' 3 3
    base = register.number ∨ index ≠ 4#4 ∧ index = register.number

/-- Whether the bytes of an operand name a register, given the fourth bits of its base and of its
index. Mode 00 with the low bits 101 is the instruction pointer. -/
def bytesName (register : Register) (baseBit indexBit : Bool) : List Byte → Bool
  | [] => false
  | modRM :: rest =>
    let mode := modRM.extractLsb' 6 2
    let rm := modRM.extractLsb' 0 3
    if mode = 3#2 then
      BitVec.ofBool baseBit ++ rm = register.number
    else if rm = 4#3 then
      sibNames register baseBit indexBit rest
    else
      ¬(mode = 0#2 ∧ rm = 5#3) ∧ BitVec.ofBool baseBit ++ rm = register.number

/-- Whether the operand names a register, read from its bytes. -/
def Operand.usesEncoded (register : Register) (operand : Operand) : Bool :=
  bytesName register operand.extendsBase operand.extendsIndex (operand.encode 0)

end MachineCode.X86
