import MachineCode.A64.BranchWord
import MachineCode.A64.Memory
import MachineCode.Buffer.Access

/-!
# A64 operations

An operation is what a caller asks of an A64 assembler, short of branches to labels. It is a list of
encoders: each word is appended after its own capacity check, and the first encoder that fails ends
the operation.
-/

namespace MachineCode.A64

/-- `brk` with number zero, over memory that holds no code. -/
def trapPattern : TrapPattern := #v[0x00#8, 0x00#8, 0x20#8, 0xD4#8]

inductive RegisterBranch where
  | br
  | blr
  | ret
  deriving DecidableEq, Repr

def RegisterBranch.opcode : RegisterBranch → Word
  | .br => 0xD61F0000#32
  | .blr => 0xD63F0000#32
  | .ret => 0xD65F0000#32

inductive Exception where
  | brk
  | hlt
  | svc
  deriving DecidableEq, Repr

def Exception.opcode : Exception → Word
  | .brk => 0xD4200000#32
  | .hlt => 0xD4400000#32
  | .svc => 0xD4000001#32

def branchRegister (branch : RegisterBranch) (rn : Register) : Encoder := fun offset => do
  return branch.opcode ||| (← registerField 5 .zero rn offset)

def raise (exception : Exception) (number : BitVec 16) : Encoder := fun _ =>
  .ok (exception.opcode ||| field 5 number)

/-- `b` to a displacement, or `bl` if `link`. Reach is checked before alignment. -/
def branchOffset (link : Bool) (displacement : Int) : Encoder := fun offset =>
  let f := DispField.imm26
  if displacement < f.min ∨ f.max < displacement then
    .error (.branchOutOfRange displacement f.max offset)
  else
    f.encode displacement (if link then wordBl else wordB)

inductive Operation where
  /-- Any word. -/
  | word (word : Word)
  | nop
  /-- `nop`s up to the next multiple of the alignment. -/
  | align (alignment : Nat)
  | addSub (op : AddSub) (width : Width) (setFlags : Bool) (rd rn : Register) (operand : Operand)
  | logicalImmediate (op : LogicalOp) (width : Width) (rd rn : Register) (value : BitVec 64)
  | logicalRegister (op : LogicalOp) (negate : Bool) (rd rn : Register) (operand : Operand)
  | moveWide (move : MoveWide) (rd : Register) (imm : BitVec 16) (position : Nat)
  | loadConstant (rd : Register) (value : BitVec 64)
  | bitfieldMove (signed : Bool) (rd rn : Register) (immR immS : Nat)
  | shiftLeft (rd rn : Register) (amount : Nat)
  | conditionalSelect (select : Select) (rd rn rm : Register) (condition : Condition)
  | multiplyAdd (subtract : Bool) (rd rn rm ra : Register)
  | divide (signed : Bool) (rd rn rm : Register)
  | adr (rd : Register) (displacement : Int)
  | load (rt : Register) (address : Address) (size : AccessSize)
  | store (rt : Register) (address : Address) (size : AccessSize)
  | transferPair (isLoad : Bool) (rt rt2 : Register) (address : Address) (size : AccessSize)
  | push (register : Register)
  | pop (register : Register)
  | pushPair (low high : Register)
  | popPair (low high : Register)
  | loadFromPool (dst pp : Register) (position : BitVec 32)
  | branchOffset (link : Bool) (displacement : Int)
  | branchRegister (branch : RegisterBranch) (rn : Register)
  | raise (exception : Exception) (number : BitVec 16)
  deriving DecidableEq, Repr

namespace Operation

/-! ## Names for special cases -/

def cmp (rn : Register) (operand : Operand) : Operation :=
  .addSub .sub .x true .zr rn operand

def cmn (rn : Register) (operand : Operand) : Operation :=
  .addSub .add .x true .zr rn operand

def neg (rd rm : Register) : Operation :=
  .addSub .sub .x false rd .zr (.reg rm)

def tst (rn : Register) (operand : Operand) : Operation :=
  .logicalRegister .ands false .zr rn operand

/-- `tst` with an immediate. -/
def testMask (rn : Register) (value : BitVec 64) : Operation :=
  .logicalImmediate .ands .x .zr rn value

/-- A move between registers: an addition of zero if one of them is the stack pointer. -/
def mov (rd rm : Register) : Operation :=
  if rd = .sp ∨ rm = .sp then .addSub .add .x false rd rm (.immediate 0#16 false)
  else .logicalRegister .orr false rd .zr (.reg rm)

def mvn (rd rm : Register) : Operation :=
  .logicalRegister .orr true rd .zr (.reg rm)

def lsr (rd rn : Register) (amount : Nat) : Operation :=
  .bitfieldMove false rd rn amount 63

def asr (rd rn : Register) (amount : Nat) : Operation :=
  .bitfieldMove true rd rn amount 63

/-- One if the condition holds, else zero. -/
def cset (rd : Register) (condition : Condition) : Operation :=
  .conditionalSelect .increment rd .zr .zr condition.invert

/-- All ones if the condition holds, else zero. -/
def csetm (rd : Register) (condition : Condition) : Operation :=
  .conditionalSelect .invert rd .zr .zr condition.invert

def mul (rd rn rm : Register) : Operation :=
  .multiplyAdd false rd rn rm .zr

def ret : Operation :=
  .branchRegister .ret .lr

/-! ## Emission -/

/-- The encoders of an operation. Padding is not among them: it depends on the size of the code. -/
def encoders : Operation → List Encoder
  | .word w => [fun _ => .ok w]
  | .nop => [fun _ => .ok wordNop]
  | .align _ => []
  | .addSub op width setFlags rd rn operand => [A64.addSub op width setFlags rd rn operand]
  | .logicalImmediate op width rd rn value => [A64.logicalImmediate op width rd rn value]
  | .logicalRegister op negate rd rn operand => [A64.logicalRegister op negate rd rn operand]
  | .moveWide move rd imm position => [A64.moveWide move rd imm position]
  | .loadConstant rd value => A64.loadConstant rd value
  | .bitfieldMove signed rd rn immR immS => [A64.bitfieldMove signed rd rn immR immS]
  | .shiftLeft rd rn amount => [A64.shiftLeft rd rn amount]
  | .conditionalSelect select rd rn rm condition =>
    [A64.conditionalSelect select rd rn rm condition]
  | .multiplyAdd subtract rd rn rm ra => [A64.multiplyAdd subtract rd rn rm ra]
  | .divide signed rd rn rm => [A64.divide signed rd rn rm]
  | .adr rd displacement => [A64.adr rd displacement]
  | .load rt address size => [A64.load rt address size]
  | .store rt address size => [A64.store rt address size]
  | .transferPair isLoad rt rt2 address size => [A64.transferPair isLoad rt rt2 address size]
  | .push register => [A64.push register]
  | .pop register => [A64.pop register]
  | .pushPair low high => [A64.pushPair low high]
  | .popPair low high => [A64.popPair low high]
  | .loadFromPool dst pp position => A64.loadFromPool dst pp position
  | .branchOffset link displacement => [A64.branchOffset link displacement]
  | .branchRegister branch rn => [A64.branchRegister branch rn]
  | .raise exception number => [A64.raise exception number]

end Operation

def emitWord (word : Word) : Emit Unit :=
  CodeBuffer.emitInstruction (littleEndian 4 word)

/-- Appends two words after one capacity check. -/
def emitPair (first second : Word) : Emit Unit :=
  CodeBuffer.emitInstruction (littleEndian 4 first ++ littleEndian 4 second)

/-- Appends the words of the encoders, up to the first that fails. -/
def emitAll : List Encoder → Emit Unit
  | [] => pure ()
  | encoder :: rest => do
    let word ← checked (encoder (← get).size)
    emitWord word
    emitAll rest

def emitNops : (count : Nat) → Emit Unit
  | 0 => pure ()
  | count + 1 => do
    emitWord wordNop
    emitNops count

/-- Pads with `nop`. The alignment must be a power of two and hold a whole word. -/
def align (alignment : Nat) : Emit Unit := do
  let size := (← get).size
  if alignment < 4 ∨ 1 <<< alignment.log2 ≠ alignment then
    checked (refuse (.wordAlignment alignment) size)
  else
    emitNops (padding alignment size / 4)

def Operation.run : Operation → Emit Unit
  | .align alignment => A64.align alignment
  | operation => emitAll operation.encoders

end MachineCode.A64
