import MachineCode.Bits

/-!
# x86-64 registers and conditions
-/

namespace MachineCode.X86

inductive Register where
  | rax | rcx | rdx | rbx | rsp | rbp | rsi | rdi
  | r8 | r9 | r10 | r11 | r12 | r13 | r14 | r15
  deriving DecidableEq, Repr

namespace Register

def all : List Register :=
  [rax, rcx, rdx, rbx, rsp, rbp, rsi, rdi, r8, r9, r10, r11, r12, r13, r14, r15]

/-- The scratch register of sequences of several instructions. -/
def tmp : Register := .r11

def number : Register → BitVec 4
  | .rax => 0 | .rcx => 1 | .rdx => 2 | .rbx => 3
  | .rsp => 4 | .rbp => 5 | .rsi => 6 | .rdi => 7
  | .r8 => 8 | .r9 => 9 | .r10 => 10 | .r11 => 11
  | .r12 => 12 | .r13 => 13 | .r14 => 14 | .r15 => 15

def ofNumber (number : BitVec 4) : Register :=
  match number.toNat with
  | 0 => .rax | 1 => .rcx | 2 => .rdx | 3 => .rbx
  | 4 => .rsp | 5 => .rbp | 6 => .rsi | 7 => .rdi
  | 8 => .r8 | 9 => .r9 | 10 => .r10 | 11 => .r11
  | 12 => .r12 | 13 => .r13 | 14 => .r14 | _ => .r15

def ofIndex? (n : Nat) : Option Register :=
  if n < 16 then some (ofNumber (BitVec.ofNat 4 n)) else none

/-- The three bits of the number that ModR/M, SIB and opcode bytes hold. -/
def low (register : Register) : BitVec 3 :=
  register.number.setWidth 3

/-- Whether the fourth bit of the number is set, which a REX byte holds. -/
def isExtended (register : Register) : Bool :=
  register.number.msb

/-- Whether the low byte of the register is named only under a REX byte. -/
def lowByteNeedsRex (register : Register) : Bool :=
  4 ≤ register.number.toNat

def name : Register → String
  | .rax => "rax" | .rcx => "rcx" | .rdx => "rdx" | .rbx => "rbx"
  | .rsp => "rsp" | .rbp => "rbp" | .rsi => "rsi" | .rdi => "rdi"
  | .r8 => "r8" | .r9 => "r9" | .r10 => "r10" | .r11 => "r11"
  | .r12 => "r12" | .r13 => "r13" | .r14 => "r14" | .r15 => "r15"

@[simp] theorem ofNumber_number (register : Register) : ofNumber register.number = register := by
  cases register <;> rfl

@[simp] theorem number_ofNumber (number : BitVec 4) : (ofNumber number).number = number := by
  revert number
  decide

end Register

inductive Scale where
  | times1
  | times2
  | times4
  | times8
  deriving DecidableEq, Repr

def Scale.code : Scale → BitVec 2
  | .times1 => 0
  | .times2 => 1
  | .times4 => 2
  | .times8 => 3

/-- A condition on the flags. Codes that differ in the lowest bit negate each other. -/
inductive Condition where
  | overflow | noOverflow | below | aboveEqual
  | equal | notEqual | belowEqual | above
  | sign | notSign | parityEven | parityOdd
  | less | greaterEqual | lessEqual | greater
  deriving DecidableEq, Repr

namespace Condition

def zero : Condition := .equal

def notZero : Condition := .notEqual

def carry : Condition := .below

def notCarry : Condition := .aboveEqual

def code : Condition → BitVec 4
  | .overflow => 0 | .noOverflow => 1 | .below => 2 | .aboveEqual => 3
  | .equal => 4 | .notEqual => 5 | .belowEqual => 6 | .above => 7
  | .sign => 8 | .notSign => 9 | .parityEven => 10 | .parityOdd => 11
  | .less => 12 | .greaterEqual => 13 | .lessEqual => 14 | .greater => 15

def ofCode (code : BitVec 4) : Condition :=
  match code.toNat with
  | 0 => .overflow | 1 => .noOverflow | 2 => .below | 3 => .aboveEqual
  | 4 => .equal | 5 => .notEqual | 6 => .belowEqual | 7 => .above
  | 8 => .sign | 9 => .notSign | 10 => .parityEven | 11 => .parityOdd
  | 12 => .less | 13 => .greaterEqual | 14 => .lessEqual | _ => .greater

def invert (condition : Condition) : Condition :=
  ofCode (condition.code ^^^ 1#4)

end Condition

end MachineCode.X86
