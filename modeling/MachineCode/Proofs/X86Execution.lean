import MachineCode.Proofs.AddressSpace
import MachineCode.Proofs.X86Program

/-!
# Executing x86-64 code

The meaning of arithmetic, of moves and of the stack on registers, memory and flags, and what a
program that stands in memory does when it is executed.
-/

namespace MachineCode.X86

/-! ## The machine -/

structure Flags where
  carry : Bool
  parity : Bool
  /-- The carry from the lower four bits; none where it is undefined. -/
  adjust : Option Bool
  zero : Bool
  sign : Bool
  overflow : Bool
  deriving DecidableEq

structure Machine where
  reg : Register → BitVec 64
  space : AddressSpace
  flags : Flags
  /-- The address of the next instruction. -/
  rip : BitVec 64

def Width.bits : Width → Nat
  | .dword => 32
  | .qword => 64

def Width.bytes : Width → Nat
  | .dword => 4
  | .qword => 8

namespace Machine

def setReg (m : Machine) (register : Register) (value : BitVec 64) : Machine :=
  { m with reg := fun r => if r = register then value else m.reg r }

/-- The address that is meant in an instruction which ends at `next`. -/
def address (m : Machine) (next : BitVec 64) : Address → BitVec 64
  | .sum base index displacement =>
    base.elim 0#64 m.reg +
      index.elim 0#64 (fun scaled => m.reg scaled.1 <<< scaled.2.code.toNat) +
      BitVec.ofInt 64 displacement
  | .rip displacement => next + BitVec.ofInt 64 displacement

def readAt (m : Machine) (next : BitVec 64) (width : Width) : Location → BitVec width.bits
  | .reg register => (m.reg register).setWidth width.bits
  | .mem address => m.space.read width.bits (m.address next address) width.bytes

/-- Half a register is written with zeros in the other half. -/
def writeAt (m : Machine) (next : BitVec 64) (width : Width) (value : BitVec width.bits) :
    Location → Machine
  | .reg register => m.setReg register (value.setWidth 64)
  | .mem address =>
    { m with space := m.space.write (m.address next address) (littleEndian width.bytes value) }

end Machine

/-! ## Arithmetic -/

namespace AluOp

/-- Whether a value is other than the sum or difference without bounds; none for the logical
operations. -/
def inexact? (op : AluOp) (carry : Bool) (a b value : Int) : Option Bool :=
  match op with
  | .add => some (value ≠ a + b)
  | .adc => some (value ≠ a + b + carry.toNat)
  | .sub | .cmp => some (value ≠ a - b)
  | .sbb => some (value ≠ a - b - carry.toNat)
  | .and | .or | .xor => none

def result {n : Nat} (op : AluOp) (carry : Bool) (a b : BitVec n) : BitVec n :=
  match op with
  | .add => a + b
  | .adc => a + b + (BitVec.ofBool carry).setWidth n
  | .sub | .cmp => a - b
  | .sbb => a - b - (BitVec.ofBool carry).setWidth n
  | .and => a &&& b
  | .or => a ||| b
  | .xor => a ^^^ b

/-- The flags after an operation. There is a carry where the result is inexact without signs and an
overflow where it is inexact with signs. -/
def flags {n : Nat} (op : AluOp) (carry : Bool) (a b : BitVec n) : Flags :=
  let value := op.result carry a b
  { carry := (op.inexact? carry a.toNat b.toNat value.toNat).getD false
    parity := (List.range 8).countP (fun i => value.getLsbD i) % 2 = 0
    adjust := op.inexact? carry (a.toNat % 16) (b.toNat % 16) (value.toNat % 16)
    zero := value = 0#n
    sign := value.msb
    overflow := (op.inexact? carry a.toInt b.toInt value.toInt).getD false }

end AluOp

namespace Machine

/-- An operation on a location and as many bits of a value, in an instruction that ends at `next`. A
comparison only sets the flags. -/
def alu (m : Machine) (next : BitVec 64) (op : AluOp) (width : Width) (dst : Location)
    (src : BitVec 64) : Machine :=
  let a := m.readAt next width dst
  let b := src.setWidth width.bits
  let after :=
    if op = .cmp then m
    else m.writeAt next width (op.result m.flags.carry a b) dst
  { after with flags := op.flags m.flags.carry a b, rip := next }

/-! ## Steps -/

def goTo (m : Machine) (rip : BitVec 64) : Machine :=
  { m with rip := rip }

def push (m : Machine) (value : BitVec 64) : Machine :=
  let top := m.reg .rsp - 8#64
  { m.setReg .rsp top with space := m.space.write top (littleEndian 8 value) }

/-- Executes arithmetic, a move or a stack instruction that ends at `next`. -/
def execute? (m : Machine) (next : BitVec 64) : Insn → Option Machine
  | .alu op width dst src => some (m.alu next op width dst (m.reg src))
  | .aluImm op width dst imm => some (m.alu next op width dst (BitVec.ofInt 64 imm))
  | .mov width dst src =>
    some ((m.writeAt next width ((m.reg src).setWidth width.bits) dst).goTo next)
  | .load width dst src =>
    some ((m.writeAt next width (m.readAt next width src) (.reg dst)).goTo next)
  | .lea width dst src =>
    some ((m.writeAt next width ((m.address next src).setWidth width.bits) (.reg dst)).goTo next)
  | .movImm width dst imm =>
    some ((m.writeAt next width (BitVec.ofInt width.bits imm) dst).goTo next)
  | .push src => some ((m.push (m.reg src)).goTo next)
  | .pushImm imm => some ((m.push (BitVec.ofInt 64 imm)).goTo next)
  | .pop dst =>
    let top := m.reg .rsp
    some (((m.setReg .rsp (top + 8#64)).setReg dst (m.space.read 64 top 8)).goTo next)
  | _ => none

section

variable {m : Machine} {register : Register} {value : BitVec 64}

@[simp] theorem reg_setReg_self : (m.setReg register value).reg register = value :=
  if_pos rfl

@[simp] theorem reg_goTo (rip : BitVec 64) : (m.goTo rip).reg = m.reg :=
  rfl

@[simp] theorem rip_goTo (rip : BitVec 64) : (m.goTo rip).rip = rip :=
  rfl

theorem reg_setReg_of_ne {r : Register} (h : r ≠ register) :
    (m.setReg register value).reg r = m.reg r :=
  if_neg h

theorem setReg_comm {r : Register} (h : r ≠ register) (v : BitVec 64) :
    (m.setReg register value).setReg r v = (m.setReg r v).setReg register value := by
  simp only [setReg]
  congr 1
  funext r'
  by_cases hr : r' = r
  · simp [hr, h]
  · simp [hr]

end

/-- The length of the longest instruction that the architecture allows. -/
def longestInsn : Nat := 15

def step (m : Machine) : Option Machine := do
  let code := m.space.bytes m.rip longestInsn
  let (insn, rest) ← decode code
  m.execute? (m.rip + BitVec.ofNat 64 (code.length - rest.length)) insn

def steps : (count : Nat) → Machine → Option Machine
  | 0, m => some m
  | count + 1, m => do
    let m' ← m.step
    steps count m'

/-- The code stands at the instruction pointer. -/
def Ahead (m : Machine) (code : List Byte) : Prop :=
  m.space.bytes m.rip code.length = code

private theorem Ahead.append {m : Machine} {code more : List Byte} (h : m.Ahead (code ++ more)) :
    m.Ahead code ∧
      m.space.bytes (m.rip + BitVec.ofNat 64 code.length) more.length = more := by
  rw [Ahead, List.length_append, AddressSpace.bytes_add] at h
  exact List.append_inj h (AddressSpace.length_bytes ..)

/-- An instruction that stands at the instruction pointer is the one that is executed. -/
theorem step_of_ahead {m : Machine} {instr : Instr} (h : m.Ahead instr.encode) :
    m.step = m.execute? (m.rip + BitVec.ofNat 64 instr.encode.length) instr.insn := by
  have hshort : instr.encode.length ≤ longestInsn :=
    Nat.le_trans instr.length_encode_le (by decide)
  obtain ⟨behind, hbehind⟩ := Nat.le.dest hshort
  have hcode : m.space.bytes m.rip longestInsn = instr.encode ++
      m.space.bytes (m.rip + BitVec.ofNat 64 instr.encode.length) behind := by
    rw [← hbehind, AddressSpace.bytes_add, h]
  simp only [step, hcode, decode_encode, Option.bind_eq_bind, Option.bind_some, List.length_append,
    Nat.add_sub_cancel]

/-- The first instruction of a program is executed. If it leaves memory alone, the rest of the
program stands at the instruction pointer. -/
theorem steps_cons {m m' : Machine} {instr : Instr} {program : List Instr}
    (hahead : m.Ahead (encodeAll (instr :: program)))
    (hm : m.execute? (m.rip + BitVec.ofNat 64 instr.encode.length) instr.insn = some m')
    (hspace : m'.space = m.space) (hrip : m'.rip = m.rip + BitVec.ofNat 64 instr.encode.length)
    (count : Nat) :
    m'.Ahead (encodeAll program) ∧ m.steps (count + 1) = m'.steps count := by
  rw [encodeAll_cons] at hahead
  obtain ⟨hfirst, hrest⟩ := hahead.append
  constructor
  · rw [Ahead, hspace, hrip]
    exact hrest
  · rw [steps, step_of_ahead hfirst, hm]
    rfl

theorem steps_last {m : Machine} {instr : Instr} (hahead : m.Ahead (encodeAll [instr])) :
    m.steps 1 =
      m.execute? (m.rip + BitVec.ofNat 64 (encodeAll [instr]).length) instr.insn := by
  have hcode : encodeAll [instr] = instr.encode := List.append_nil _
  rw [hcode] at hahead ⊢
  rw [← step_of_ahead hahead]
  exact Option.bind_fun_some _

end Machine

end MachineCode.X86
