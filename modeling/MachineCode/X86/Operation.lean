import MachineCode.X86.Instr
import MachineCode.Buffer.Access

/-!
# x86-64 operations

An operation is what a caller asks of an x86-64 assembler, short of branches to labels. It becomes a
short sequence of instructions that is appended after one capacity check; only padding and raw bytes
may take more.
-/

namespace MachineCode.X86

/-- `int3`, over memory that holds no code. -/
def trapPattern : TrapPattern := #v[0xCC#8, 0xCC#8, 0xCC#8, 0xCC#8]

inductive Operation where
  | callReg (target : Register)
  | jmpReg (target : Register)
  /-- A call of an absolute address through the scratch register. -/
  | callExternal (target : BitVec 64)
  /-- A jump to an absolute address through the scratch register. -/
  | jmpExternal (target : BitVec 64)
  | ret
  | int3
  /-- One `nop` of `size` bytes. -/
  | nop (size : Nat)
  /-- `nop`s until the size plus `offset` is a multiple of the alignment. -/
  | align (alignment offset : Nat)
  /-- Any bytes. -/
  | bytes (code : List Byte)
  | push (src : Register)
  | pushImm (imm : Int64)
  | pop (dst : Register)
  /-- Discards `count` slots of the stack. -/
  | drop (count : Nat)
  | movImm (dst : Register) (imm : Int64)
  | movLow (dst : Register) (imm : BitVec 32)
  | mov (dst src : Register)
  | load (dst : Register) (src : Memory)
  | store (dst : Memory) (src : Register)
  | lea (dst : Register) (src : Memory)
  | alu (op : AluOp) (dst : Operand) (src : Register)
  | aluImm (op : AluOp) (dst : Operand) (imm : Int64)
  | test (a b : Register)
  | imul (dst src : Register)
  | shiftImm (op : ShiftOp) (dst : Register) (count : BitVec 8)
  | shiftCl (op : ShiftOp) (dst : Register)
  | setcc (condition : Condition) (dst : Register)
  deriving DecidableEq

/-- The shortest instruction that leaves a constant in a register. -/
def movConstant (dst : Register) (imm : Int64) : Instr :=
  if IsUint32 imm.toInt then .movLow dst (imm.toBitVec.setWidth 32)
  else if IsInt32 imm.toInt then .movSigned dst (imm.toBitVec.setWidth 32)
  else .movFull dst imm.toBitVec

/-- An arithmetic operation with an immediate. One beyond a double word goes through the scratch
register, which the destination must then not name. -/
def aluConstant (op : AluOp) (dst : Operand) (imm : Int64) (offset : Nat) :
    Except EmitError (List Instr) :=
  if IsInt8 imm.toInt then
    .ok [.aluImm8 op dst (imm.toBitVec.setWidth 8)]
  else if IsInt32 imm.toInt then
    if dst.register? = some .rax then .ok [.aluAccumulator op (imm.toBitVec.setWidth 32)]
    else .ok [.aluImm32 op dst (imm.toBitVec.setWidth 32)]
  else if dst.usesEncoded .tmp then
    .error (.invalidOperands .scratchNeeded (some offset))
  else
    .ok [movConstant .tmp imm, .alu op dst .tmp]

namespace Operation

/-- What is checked before any room is made. -/
def precheck : Operation → Except EmitError Unit
  | .nop size =>
    if 1 ≤ size ∧ size ≤ 8 then .ok ()
    else .error (.immediateOverflow (BitVec.ofNat 64 size).toInt 1 8)
  | .shiftImm _ _ count =>
    if count.toNat ≤ 63 then .ok () else .error (.immediateOverflow count.toNat 0 63)
  | _ => .ok ()

/-- The instructions of an operation at a given offset. Padding and raw bytes have none. -/
def instructions (offset : Nat) : Operation → Except EmitError (List Instr)
  | .callReg target => .ok [.callReg target]
  | .jmpReg target => .ok [.jmpReg target]
  | .callExternal target => .ok [.movFull .tmp target, .callReg .tmp]
  | .jmpExternal target => .ok [.movFull .tmp target, .jmpReg .tmp]
  | .ret => .ok [.ret]
  | .int3 => .ok [.int3]
  | .nop size => .ok [.nop (Fin.ofNat 8 (size - 1))]
  | .align .. | .bytes _ => .ok []
  | .push src => .ok [.push src]
  | .pushImm imm =>
    if IsInt8 imm.toInt then .ok [.pushImm8 (imm.toBitVec.setWidth 8)]
    else if IsInt32 imm.toInt then .ok [.pushImm32 (imm.toBitVec.setWidth 32)]
    else .ok [.movFull .tmp imm.toBitVec, .push .tmp]
  | .pop dst => .ok [.pop dst]
  | .drop count =>
    if count ≤ 4 then .ok (List.replicate count (.pop .tmp))
    else aluConstant .add (.reg .rsp) (Int64.ofNat (8 * count)) offset
  | .movImm dst imm => .ok [movConstant dst imm]
  | .movLow dst imm => .ok [.movLow dst imm]
  | .mov dst src => .ok [.mov (.reg dst) src]
  | .load dst src => .ok [.load dst src]
  | .store dst src => .ok [.mov (.mem dst) src]
  | .lea dst src => .ok [.lea dst src]
  | .alu op dst src => .ok [.alu op dst src]
  | .aluImm op dst imm => aluConstant op dst imm offset
  | .test a b => .ok [.test a b]
  | .imul dst src => .ok [.imul dst src]
  | .shiftImm op dst count =>
    .ok [if count = 1#8 then .shiftOnce op dst else .shift op dst count]
  | .shiftCl op dst => .ok [.shiftCl op dst]
  | .setcc condition dst => .ok [.setcc condition dst]

end Operation

def encodeAll (instructions : List Instr) : List Byte :=
  instructions.flatMap Instr.encode

def emitLongNops : (count : Nat) → Emit Unit
  | 0 => pure ()
  | count + 1 => do
    CodeBuffer.emitInstruction (Instr.nop 7).encode
    emitLongNops count

/-- Appends `count` bytes of `nop`s, the longest ones first. -/
def pad (count : Nat) : Emit Unit := do
  emitLongNops (count / 8)
  if 0 < count % 8 then
    CodeBuffer.emitInstruction (Instr.nop (Fin.ofNat 8 (count % 8 - 1))).encode

/-- Pads until the size plus `offset` is a multiple of `alignment`, which must be a power of two. -/
def align (alignment offset : Nat) : Emit Unit := do
  let size := (← get).size
  if alignment = 0 ∨ 1 <<< alignment.log2 ≠ alignment then
    throw (.error (.invalidOperands (.byteAlignment alignment) (some size)))
  if offsetSpace ≤ size + offset then
    throw (.violation .addOverflow)
  pad (padding alignment (size + offset))

def Operation.run : Operation → Emit Unit
  | .align alignment offset => X86.align alignment offset
  | .bytes code => CodeBuffer.append code
  | operation => do
    checked operation.precheck
    CodeBuffer.makeRoom
    let instructions ← checked (operation.instructions (← get).size)
    CodeBuffer.putInstruction (encodeAll instructions)

end MachineCode.X86
