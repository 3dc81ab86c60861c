import MachineCode.X86.Operand

/-!
# x86-64 instructions

The machine instructions that the operations are made of, and their bytes: an optional REX byte, the
opcode, the operand and an immediate. Operands are of 64 bits unless said otherwise.
-/

namespace MachineCode.X86

inductive AluOp where
  | add
  | or
  | adc
  | sbb
  | and
  | sub
  | xor
  | cmp
  deriving DecidableEq, Repr

def AluOp.digit : AluOp → BitVec 3
  | .add => 0
  | .or => 1
  | .adc => 2
  | .sbb => 3
  | .and => 4
  | .sub => 5
  | .xor => 6
  | .cmp => 7

inductive ShiftOp where
  | rol
  | ror
  | shl
  | shr
  | sar
  deriving DecidableEq, Repr

def ShiftOp.digit : ShiftOp → BitVec 3
  | .rol => 0
  | .ror => 1
  | .shl => 4
  | .shr => 5
  | .sar => 7

/-- A jump that has a short and a long form. -/
inductive Jump where
  | always
  | onCondition (condition : Condition)
  deriving DecidableEq, Repr

inductive Instr where
  | alu (op : AluOp) (dst : Operand) (src : Register)
  | aluImm8 (op : AluOp) (dst : Operand) (imm : BitVec 8)
  | aluImm32 (op : AluOp) (dst : Operand) (imm : BitVec 32)
  /-- The short form for `rax`. -/
  | aluAccumulator (op : AluOp) (imm : BitVec 32)
  | mov (dst : Operand) (src : Register)
  | load (dst : Register) (src : Memory)
  | lea (dst : Register) (src : Memory)
  /-- Sets the lower half and clears the upper one. -/
  | movLow (dst : Register) (imm : BitVec 32)
  /-- Extends the sign of the immediate. -/
  | movSigned (dst : Register) (imm : BitVec 32)
  | movFull (dst : Register) (imm : BitVec 64)
  | test (a b : Register)
  | imul (dst src : Register)
  | shiftOnce (op : ShiftOp) (dst : Register)
  | shift (op : ShiftOp) (dst : Register) (count : BitVec 8)
  | shiftCl (op : ShiftOp) (dst : Register)
  /-- Sets the low byte of a register to one or zero. -/
  | setcc (condition : Condition) (dst : Register)
  | push (src : Register)
  | pushImm8 (imm : BitVec 8)
  | pushImm32 (imm : BitVec 32)
  | pop (dst : Register)
  | callReg (target : Register)
  | jmpReg (target : Register)
  | jumpShort (jump : Jump) (displacement : BitVec 8)
  | jumpLong (jump : Jump) (displacement : BitVec 32)
  | call (displacement : BitVec 32)
  | ret
  | int3
  /-- A `nop` of one byte more than the number. -/
  | nop (extra : Fin 8)
  deriving DecidableEq

/-! ## Encoding -/

/-- The REX byte, left out when it would say nothing. -/
def rexPrefix (w r x b : Bool) : List Byte :=
  if w || r || x || b then
    [(4#4 ++ BitVec.ofBool w ++ BitVec.ofBool r ++ BitVec.ofBool x ++ BitVec.ofBool b : BitVec 8)]
  else
    []

/-- REX byte, opcode and operand; `reg` goes to the ModR/M byte and its fourth bit to the REX byte.
-/
def encodeOperand (wide : Bool) (opcode : List Byte) (reg : BitVec 4) (rm : Operand) : List Byte :=
  rexPrefix wide reg.msb rm.extendsIndex rm.extendsBase ++ opcode ++ rm.encode (reg.setWidth 3)

/-- REX byte and an opcode that holds the register's low bits. -/
def encodeShort (wide : Bool) (opcode : BitVec 5) (register : Register) : List Byte :=
  rexPrefix wide false false register.isExtended ++ [(opcode ++ register.low : BitVec 8)]

namespace Jump

def shortOpcode : Jump → List Byte
  | .always => [0xEB#8]
  | .onCondition condition => [(7#4 ++ condition.code : BitVec 8)]

def longOpcode : Jump → List Byte
  | .always => [0xE9#8]
  | .onCondition condition => [0x0F#8, (8#4 ++ condition.code : BitVec 8)]

end Jump

/-- The recommended `nop`s of one to eight bytes. -/
def nopBytes : Fin 8 → List Byte
  | 0 => [0x90#8]
  | 1 => [0x66#8, 0x90#8]
  | 2 => [0x0F#8, 0x1F#8, 0x00#8]
  | 3 => [0x0F#8, 0x1F#8, 0x40#8, 0x00#8]
  | 4 => [0x0F#8, 0x1F#8, 0x44#8, 0x00#8, 0x00#8]
  | 5 => [0x66#8, 0x0F#8, 0x1F#8, 0x44#8, 0x00#8, 0x00#8]
  | 6 => [0x0F#8, 0x1F#8, 0x80#8, 0x00#8, 0x00#8, 0x00#8, 0x00#8]
  | 7 => [0x0F#8, 0x1F#8, 0x84#8, 0x00#8, 0x00#8, 0x00#8, 0x00#8, 0x00#8]

def Instr.encode : Instr → List Byte
  | .alu op dst src => encodeOperand true [(0#2 ++ op.digit ++ 1#3 : BitVec 8)] src.number dst
  | .aluImm8 op dst imm => encodeOperand true [0x83#8] (op.digit.setWidth 4) dst ++ [imm]
  | .aluImm32 op dst imm =>
    encodeOperand true [0x81#8] (op.digit.setWidth 4) dst ++ littleEndian 4 imm
  | .aluAccumulator op imm =>
    [0x48#8, (0#2 ++ op.digit ++ 5#3 : BitVec 8)] ++ littleEndian 4 imm
  | .mov dst src => encodeOperand true [0x89#8] src.number dst
  | .load dst src => encodeOperand true [0x8B#8] dst.number (.mem src)
  | .lea dst src => encodeOperand true [0x8D#8] dst.number (.mem src)
  | .movLow dst imm => encodeShort false 0x17#5 dst ++ littleEndian 4 imm
  | .movSigned dst imm => encodeOperand true [0xC7#8] 0 (.reg dst) ++ littleEndian 4 imm
  | .movFull dst imm => encodeShort true 0x17#5 dst ++ littleEndian 8 imm
  | .test a b => encodeOperand true [0x85#8] b.number (.reg a)
  | .imul dst src => encodeOperand true [0x0F#8, 0xAF#8] dst.number (.reg src)
  | .shiftOnce op dst => encodeOperand true [0xD1#8] (op.digit.setWidth 4) (.reg dst)
  | .shift op dst count => encodeOperand true [0xC1#8] (op.digit.setWidth 4) (.reg dst) ++ [count]
  | .shiftCl op dst => encodeOperand true [0xD3#8] (op.digit.setWidth 4) (.reg dst)
  | .setcc condition dst =>
    (if dst.lowByteNeedsRex then [0x40#8 ||| (BitVec.ofBool dst.isExtended).setWidth 8] else []) ++
      [0x0F#8, (9#4 ++ condition.code : BitVec 8), modRM 3 0 dst.low]
  | .push src => encodeShort false 0x0A#5 src
  | .pushImm8 imm => [0x6A#8, imm]
  | .pushImm32 imm => 0x68#8 :: littleEndian 4 imm
  | .pop dst => encodeShort false 0x0B#5 dst
  | .callReg target => encodeOperand false [0xFF#8] 2 (.reg target)
  | .jmpReg target => encodeOperand false [0xFF#8] 4 (.reg target)
  | .jumpShort jump displacement => jump.shortOpcode ++ [displacement]
  | .jumpLong jump displacement => jump.longOpcode ++ littleEndian 4 displacement
  | .call displacement => 0xE8#8 :: littleEndian 4 displacement
  | .ret => [0xC3#8]
  | .int3 => [0xCC#8]
  | .nop extra => nopBytes extra

end MachineCode.X86
