import MachineCode.Proofs.A64Data
import MachineCode.Proofs.A64Execution

/-!
# Executing A64 data-processing words

The meaning of wide moves and of logical instructions with an immediate on the registers, and what a
stretch of such words does when it is executed from the code.
-/

namespace MachineCode.A64

/-! ## The core -/

/-- What data-processing instructions read and change: the stack pointer beside what branches do. -/
structure Core extends Machine where
  sp : BitVec 64

namespace Core

def read (m : Core) : Register → BitVec 64
  | .x number => m.x number
  | .zr => 0#64
  | .sp => m.sp

def write (m : Core) (r : Register) (value : BitVec 64) : Core :=
  match r with
  | .x number => { m with x := fun i => if i = number then value else m.x i }
  | .zr => m
  | .sp => { m with sp := value }

def goTo (m : Core) (pc : Int) : Core :=
  { m with pc := pc }

section

variable (m : Core) (r : Register) (v v' : BitVec 64) (pc pc' : Int)

@[simp] theorem read_write_x (number : Fin 31) : (m.write (.x number) v).read (.x number) = v := by
  simp [read, write]

theorem read_write_of_ne {r' : Register} (h : r' ≠ r) : (m.write r v).read r' = m.read r' := by
  cases r with
  | x number =>
    cases r' with
    | x number' =>
      have hne : number' ≠ number := fun hnumber => h (congrArg Register.x hnumber)
      simp only [read, write, if_neg hne]
    | zr => rfl
    | sp => rfl
  | zr => rfl
  | sp =>
    cases r' with
    | sp => exact absurd rfl h
    | _ => rfl

@[simp] theorem write_read : m.write r (m.read r) = m := by
  cases r with
  | x number =>
    have hsame : (fun i => if i = number then m.x number else m.x i) = m.x := by
      funext i
      split
      · next h => rw [h]
      · rfl
    simp only [read, write, hsame]
  | zr => rfl
  | sp => rfl

@[simp] theorem write_write : (m.write r v).write r v' = m.write r v' := by
  cases r with
  | x number =>
    simp only [write]
    congr 2
    funext i
    split <;> rfl
  | zr => rfl
  | sp => rfl

@[simp] theorem pc_write : (m.write r v).pc = m.pc := by
  cases r <;> rfl

@[simp] theorem pc_goTo : (m.goTo pc).pc = pc :=
  rfl

@[simp] theorem goTo_pc : m.goTo m.pc = m :=
  rfl

@[simp] theorem read_goTo : (m.goTo pc).read r = m.read r := by
  cases r <;> rfl

@[simp] theorem goTo_goTo : (m.goTo pc).goTo pc' = m.goTo pc' :=
  rfl

@[simp] theorem goTo_write : (m.goTo pc).write r v = (m.write r v).goTo pc := by
  cases r <;> rfl

end

end Core

/-! ## Results of instructions -/

/-- What an instruction of a width leaves of a result. -/
def Width.keep (width : Width) (value : BitVec 64) : BitVec 64 :=
  (value.setWidth width.bits).setWidth 64

@[simp] theorem Width.keep_x (value : BitVec 64) : Width.x.keep value = value := by
  simp only [keep, bits, BitVec.setWidth_eq]

def MoveWide.result (move : MoveWide) (old : BitVec 64) (imm : BitVec 16) (position : Nat) :
    BitVec 64 :=
  let placed := imm.setWidth 64 <<< (16 * position)
  match move with
  | .zero => placed
  | .invert => ~~~placed
  | .keep => (old &&& ~~~(0xFFFF#64 <<< (16 * position))) ||| placed

def LogicalOp.result (op : LogicalOp) (left right : BitVec 64) : BitVec 64 :=
  match op with
  | .and | .ands => left &&& right
  | .orr => left ||| right
  | .eor => left ^^^ right

namespace Core

/-- Executes a wide move, or a logical instruction with an immediate that leaves the flags alone. -/
def execute? (m : Core) : DataInsn → Option Core
  | .moveWide move width rd imm position =>
    some ((m.write rd (width.keep (move.result (m.read rd) imm position))).goTo (m.pc + 4))
  | .logicalImmediate op width rd rn value =>
    if op = .ands then none
    else some ((m.write rd (width.keep (op.result (m.read rn) value))).goTo (m.pc + 4))
  | _ => none

def step (code : Array Byte) (m : Core) : Option Core := do
  let w ← fetch code m.pc
  let insn ← decodeData w
  m.execute? insn

def steps (code : Array Byte) : (count : Nat) → Core → Option Core
  | 0, m => some m
  | count + 1, m => do
    let m' ← m.step code
    steps code count m'

def executeAll? : List DataInsn → Core → Option Core
  | [], m => some m
  | insn :: rest, m => do
    let m' ← m.execute? insn
    executeAll? rest m'

theorem pc_execute? {m m' : Core} {insn : DataInsn} (h : m.execute? insn = some m') :
    m'.pc = m.pc + 4 := by
  cases insn with
  | moveWide move width rd imm position =>
    cases h
    rfl
  | logicalImmediate op width rd rn value =>
    rw [execute?] at h
    split at h <;> cases h
    rfl
  | _ => cases h

/-- Words that stand where the core is are executed one after the other. -/
theorem steps_eq_executeAll? {code : Array Byte} {words : List Word} {insns : List DataInsn}
    (hreads : words.map decodeData = insns.map some) {offset : Nat}
    (hholds : Holds code offset (words.flatMap (littleEndian 4))) {m : Core} (hpc : m.pc = offset) :
    m.steps code words.length = executeAll? insns m := by
  induction words generalizing insns offset m with
  | nil =>
    obtain rfl : insns = [] := List.map_eq_nil_iff.mp hreads.symm
    rfl
  | cons w words ih =>
    cases insns with
    | nil => cases hreads
    | cons insn insns =>
      obtain ⟨hinsn, hrest⟩ := List.cons.inj hreads
      rw [List.flatMap_cons, holds_append, littleEndian_length] at hholds
      have hstep : m.step code = m.execute? insn := by
        rw [step, hpc, fetch_of_holds hholds.1]
        simp only [Option.bind_eq_bind, Option.bind_some, hinsn]
      simp only [List.length_cons, steps, executeAll?, hstep]
      cases hm : m.execute? insn with
      | none => rfl
      | some m' =>
        have hpc' : m'.pc = (offset + 4 : Nat) := by
          rw [pc_execute? hm, hpc]
          rfl
        exact ih hrest hholds.2 hpc'

end Core

end MachineCode.A64
