import MachineCode.Proofs.X86Immediate

/-!
# Constants and the stack

A constant reaches a register in one of three forms, and the stack in one of three; slots of the
stack are discarded by pops or by an addition to the stack pointer. Whichever form is taken, its
execution has the effect that was asked for, and the form that moves a constant to a register is the
shortest one that can.
-/

namespace MachineCode.X86

/-! ## Moves of a constant -/

namespace Instr

/-- The instruction has one of the three forms that move a constant to the register. -/
def isConstantMove (dst : Register) : Instr → Bool
  | .movLow r _ | .movSigned r _ | .movFull r _ => r = dst
  | _ => false

/-- Wherever it stands, the instruction leaves the value in the register and changes nothing
else. -/
def Leaves (instr : Instr) (dst : Register) (value : BitVec 64) : Prop :=
  ∀ (m : Machine) (next : BitVec 64),
    m.execute? next instr.insn = some ((m.setReg dst value).goTo next)

private theorem Leaves.unique {instr : Instr} {dst : Register} {value value' : BitVec 64}
    (h : instr.Leaves dst value) (h' : instr.Leaves dst value') : value = value' := by
  let m : Machine :=
    ⟨fun _ => 0#64, fun _ => 0#8, ⟨false, false, none, false, false, false⟩, 0#64⟩
  have hsame := Option.some.inj ((h m 0#64).symm.trans (h' m 0#64))
  have hreg := congrArg (fun m' : Machine => m'.reg dst) hsame
  simpa using hreg

section

variable (dst : Register)

private theorem leaves_movLow (imm : BitVec 32) :
    (Instr.movLow dst imm).Leaves dst (imm.setWidth 64) := by
  intro m next
  have hvalue : BitVec.ofInt 32 (imm.toNat : Int) = imm := by
    rw [BitVec.ofInt_natCast, BitVec.ofNat_toNat, BitVec.setWidth_eq]
  exact congrArg (fun v : BitVec 32 => some ((m.setReg dst (v.setWidth 64)).goTo next)) hvalue

private theorem leaves_movSigned (imm : BitVec 32) :
    (Instr.movSigned dst imm).Leaves dst (BitVec.ofInt 64 imm.toInt) := by
  intro m next
  have hvalue : (BitVec.ofInt 64 imm.toInt).setWidth 64 = BitVec.ofInt 64 imm.toInt :=
    BitVec.setWidth_eq _
  exact congrArg (fun v => some ((m.setReg dst v).goTo next)) hvalue

private theorem leaves_movFull (imm : BitVec 64) : (Instr.movFull dst imm).Leaves dst imm := by
  intro m next
  have hvalue : (BitVec.ofInt 64 imm.toInt).setWidth 64 = imm := by
    rw [BitVec.setWidth_eq, BitVec.ofInt_toInt]
  exact congrArg (fun v => some ((m.setReg dst v).goTo next)) hvalue

private theorem length_movLow (imm : BitVec 32) :
    (Instr.movLow dst imm).encode.length = if dst.isExtended then 6 else 5 := by
  cases h : dst.isExtended <;> simp [encode, encodeShort, rexPrefix, h]

private theorem length_movSigned (imm : BitVec 32) :
    (Instr.movSigned dst imm).encode.length = 7 := by
  simp [encode, encodeOperand, rexPrefix, Operand.encode]

private theorem length_movFull (imm : BitVec 64) : (Instr.movFull dst imm).encode.length = 10 := by
  simp [encode, encodeShort, rexPrefix]

end

end Instr

section

variable {imm : Int64} {x : BitVec 32}

private theorem IsUint32.of_setWidth (h : x.setWidth 64 = imm.toBitVec) : IsUint32 imm.toInt := by
  have hvalue : imm.toInt = (x.setWidth 64).toInt := by rw [h]; rfl
  have hlt := x.isLt
  rw [hvalue, BitVec.toInt_eq_toNat_cond, BitVec.toNat_setWidth]
  constructor <;> split <;> omega

private theorem IsInt32.of_toInt (h : BitVec.ofInt 64 x.toInt = imm.toBitVec) :
    IsInt32 imm.toInt := by
  have hlow := BitVec.le_toInt x
  have hhigh := BitVec.toInt_lt (x := x)
  have hvalue : imm.toInt = x.toInt := by
    rw [show imm.toInt = imm.toBitVec.toInt from rfl, ← h, BitVec.toInt_ofInt]
    apply Int.bmod_eq_of_le <;> omega
  rw [hvalue]
  constructor <;> omega

end

/-- The length of the shortest move of a constant to a register, by what its forms can hold. -/
def constantLength (dst : Register) (imm : Int64) : Nat :=
  if IsUint32 imm.toInt then (if dst.isExtended then 6 else 5)
  else if IsInt32 imm.toInt then 7
  else 10

section

variable (dst : Register) (imm : Int64)

private theorem isConstantMove_movConstant : (movConstant dst imm).isConstantMove dst = true := by
  rw [movConstant]
  split
  · simp [Instr.isConstantMove]
  · split <;> simp [Instr.isConstantMove]

private theorem leaves_movConstant : (movConstant dst imm).Leaves dst imm.toBitVec := by
  intro m next
  rw [insn_movConstant]
  exact m.execute?_askedConstant next dst imm

private theorem length_movConstant :
    (movConstant dst imm).encode.length = constantLength dst imm := by
  rw [movConstant, constantLength]
  split
  · exact Instr.length_movLow dst _
  · split
    · exact Instr.length_movSigned dst _
    · exact Instr.length_movFull dst _

/-- No move of the constant in any of the three forms is shorter. -/
private theorem constantLength_le {other : Instr} (hform : other.isConstantMove dst = true)
    (hleaves : other.Leaves dst imm.toBitVec) : constantLength dst imm ≤ other.encode.length := by
  have hextended : (if dst.isExtended then 6 else 5) ≤ 6 := by split <;> decide
  rw [constantLength]
  cases other with
  | movLow r x =>
    obtain rfl : r = dst := of_decide_eq_true hform
    have hfits : IsUint32 imm.toInt :=
      IsUint32.of_setWidth ((Instr.leaves_movLow r x).unique hleaves)
    rw [if_pos hfits]
    exact Nat.le_of_eq (Instr.length_movLow r x).symm
  | movSigned r x =>
    obtain rfl : r = dst := of_decide_eq_true hform
    have hfits : IsInt32 imm.toInt :=
      IsInt32.of_toInt ((Instr.leaves_movSigned r x).unique hleaves)
    rw [if_pos hfits, Instr.length_movSigned]
    split <;> omega
  | movFull r x =>
    rw [Instr.length_movFull]
    split
    · omega
    · split <;> omega
  | _ => cases hform

end

/-! ## Effects on the stack -/

namespace Machine

/-- Execution of the code, which stands at the instruction pointer, ends behind it in `m'`. -/
def Completes (m : Machine) (code : List Byte) (m' : Machine) : Prop :=
  m'.rip = m.rip + BitVec.ofNat 64 code.length ∧ ∃ count, m.steps count = some m'

/-- A value was put on the stack. All else is as before, the scratch register apart. -/
structure Pushed (m : Machine) (value : BitVec 64) (m' : Machine) : Prop where
  rsp : m'.reg .rsp = m.reg .rsp - 8#64
  stored : m'.space.read 64 (m'.reg .rsp) 8 = value
  reg : ∀ r, r ≠ .rsp → r ≠ .tmp → m'.reg r = m.reg r
  space : ∀ a, 8 ≤ (a - m'.reg .rsp).toNat → m'.space a = m.space a
  flags : m'.flags = m.flags

/-- Slots of the stack were discarded. Memory and the other registers are as before, the scratch
register apart. -/
structure Dropped (m : Machine) (count : Nat) (m' : Machine) : Prop where
  rsp : m'.reg .rsp = m.reg .rsp + BitVec.ofNat 64 (8 * count)
  reg : ∀ r, r ≠ .rsp → r ≠ .tmp → m'.reg r = m.reg r
  space : m'.space = m.space

private theorem setReg_self (m : Machine) (register : Register) :
    m.setReg register (m.reg register) = m := by
  have hreg : (fun r => if r = register then m.reg register else m.reg r) = m.reg := by
    funext r
    by_cases h : r = register
    · rw [if_pos h, h]
    · rw [if_neg h]
  rw [setReg, hreg]

private theorem pushed_push (m : Machine) (scratch value next : BitVec 64) :
    m.Pushed value (((m.setReg .tmp scratch).push value).goTo next) where
  rsp := rfl
  stored := AddressSpace.read_write _ _ value (by decide) (by decide)
  reg r hrsp htmp := by
    have hpush : (((m.setReg .tmp scratch).push value).goTo next).reg r =
        (m.setReg .tmp scratch).reg r := reg_setReg_of_ne hrsp
    rw [hpush, reg_setReg_of_ne htmp]
  space a ha := AddressSpace.write_apart _ ha
  flags := rfl

namespace Dropped

variable {m m' m'' : Machine}

private theorem refl (m : Machine) : m.Dropped 0 m where
  rsp := (BitVec.add_zero _).symm
  reg _ _ _ := rfl
  space := rfl

private theorem trans {count more : Nat} (h : m.Dropped count m') (h' : m'.Dropped more m'') :
    m.Dropped (count + more) m'' where
  rsp := by rw [h'.rsp, h.rsp, BitVec.add_assoc, ← BitVec.ofNat_add, Nat.mul_add]
  reg r hrsp htmp := by rw [h'.reg r hrsp htmp, h.reg r hrsp htmp]
  space := h'.space.trans h.space

end Dropped

private theorem execute?_pop_tmp (m : Machine) (next : BitVec 64) :
    ∃ m', m.execute? next (.pop .tmp) = some m' ∧ m'.rip = next ∧ m.Dropped 1 m' := by
  have hne : Register.rsp ≠ .tmp := by decide
  refine ⟨_, rfl, rfl, ?_, ?_, rfl⟩
  · simp only [reg_goTo, reg_setReg_of_ne hne, reg_setReg_self]
  · intro r hrsp htmp
    exact (reg_setReg_of_ne htmp).trans (reg_setReg_of_ne hrsp)

private theorem steps_pops {count : Nat} {program : List Instr}
    (hprogram : program.map Instr.insn = List.replicate count (.pop .tmp)) {m : Machine}
    (hahead : m.Ahead (encodeAll program)) :
    ∃ m', m.steps count = some m' ∧
      m'.rip = m.rip + BitVec.ofNat 64 (encodeAll program).length ∧ m.Dropped count m' := by
  induction count generalizing program m with
  | zero =>
    obtain rfl : program = [] := List.map_eq_nil_iff.mp hprogram
    exact ⟨m, rfl, (BitVec.add_zero _).symm, .refl m⟩
  | succ count ih =>
    obtain ⟨first, rest, rfl, hfirst, hrest⟩ := List.map_eq_cons_iff.mp hprogram
    obtain ⟨m₁, hpop, hrip, hdropped⟩ :=
      m.execute?_pop_tmp (m.rip + BitVec.ofNat 64 first.encode.length)
    rw [← hfirst] at hpop
    -- A pop only reads memory, so the other pops still stand at the instruction pointer.
    obtain ⟨hahead₁, hsteps⟩ := steps_cons hahead hpop hdropped.space hrip count
    obtain ⟨m', hlater, hend, hdropped'⟩ := ih hrest hahead₁
    refine ⟨m', hsteps.trans hlater, ?_, Nat.add_comm count 1 ▸ hdropped.trans hdropped'⟩
    rw [hend, hrip, encodeAll_cons, List.length_append, BitVec.add_assoc, ← BitVec.ofNat_add]

private theorem dropped_aluConstant (m : Machine) (next : BitVec 64) (count : Nat) :
    m.Dropped count
      (m.aluConstant next .add (.reg .rsp) (Int64.ofNat (8 * count))) := by
  have hadd : ∀ v, (m.alu next .add .qword (.reg .rsp) v).reg =
      (m.setReg .rsp (m.reg .rsp + v)).reg := by
    intro v
    have hvalue : (AluOp.add.result m.flags.carry ((m.reg .rsp).setWidth 64)
        (v.setWidth 64)).setWidth 64 = m.reg .rsp + v := by
      simp only [AluOp.result, BitVec.setWidth_eq]
    exact congrArg (fun value => (m.setReg .rsp value).reg) hvalue
  have hsum : m.Dropped count
      (m.alu next .add .qword (.reg .rsp) (Int64.ofNat (8 * count)).toBitVec) := by
    refine ⟨?_, fun r hrsp _ => ?_, rfl⟩
    · rw [hadd, reg_setReg_self]
      rfl
    · rw [hadd, reg_setReg_of_ne hrsp]
  rw [aluConstant]
  split
  · exact hsum
  · refine ⟨?_, fun r hrsp htmp => ?_, hsum.space⟩
    · rw [reg_setReg_of_ne (by decide), hsum.rsp]
    · rw [reg_setReg_of_ne htmp, hsum.reg r hrsp htmp]

section

variable {m : Machine} {program : List Instr}

private theorem completes_pushImm {imm : Int64} {size : Nat}
    (hprogram : program.map Instr.insn = (Operation.pushImm imm).asked size)
    (hahead : m.Ahead (encodeAll program)) :
    ∃ m', m.Completes (encodeAll program) m' ∧ m.Pushed imm.toBitVec m' := by
  have hvalue : BitVec.ofInt 64 imm.toInt = imm.toBitVec := BitVec.ofInt_toInt
  rw [Operation.asked] at hprogram
  split at hprogram
  · obtain ⟨instr, rfl, hinsn⟩ := List.map_eq_singleton_iff.mp hprogram
    have hstep := steps_last hahead
    rw [hinsn, execute?, hvalue] at hstep
    refine ⟨_, ⟨rfl, 1, hstep⟩, ?_⟩
    have hpushed := m.pushed_push (m.reg .tmp) imm.toBitVec
      (m.rip + BitVec.ofNat 64 (encodeAll [instr]).length)
    rw [setReg_self] at hpushed
    exact hpushed
  · obtain ⟨first, rest, rfl, hfirst, hrest⟩ := List.map_eq_cons_iff.mp hprogram
    obtain ⟨second, rfl, hsecond⟩ := List.map_eq_singleton_iff.mp hrest
    have hmove := Instr.leaves_movFull .tmp imm.toBitVec m
      (m.rip + BitVec.ofNat 64 first.encode.length)
    rw [show (Instr.movFull .tmp imm.toBitVec).insn = first.insn from hfirst.symm] at hmove
    obtain ⟨hahead', hsteps⟩ := steps_cons hahead hmove rfl rfl 1
    rw [steps_last hahead', hsecond, execute?, reg_goTo, reg_setReg_self] at hsteps
    refine ⟨_, ⟨?_, 2, hsteps⟩, m.pushed_push imm.toBitVec imm.toBitVec _⟩
    rw [encodeAll_cons first, List.length_append, BitVec.ofNat_add, ← BitVec.add_assoc]
    rfl

private theorem completes_drop {count size : Nat}
    (hprogram : program.map Instr.insn = (Operation.drop count).asked size)
    (hahead : m.Ahead (encodeAll program)) :
    ∃ m', m.Completes (encodeAll program) m' ∧ m.Dropped count m' := by
  rw [Operation.asked] at hprogram
  split at hprogram
  · obtain ⟨m', hsteps, hrip, hdropped⟩ := steps_pops hprogram hahead
    exact ⟨m', ⟨hrip, count, hsteps⟩, hdropped⟩
  · have hnames : ¬(Operand.reg .rsp).location.Names .tmp := by
      intro h
      cases h
    have hsteps := steps_askedAlu hprogram (.inr hnames) hahead
    refine ⟨_, ⟨?_, program.length, hsteps⟩, m.dropped_aluConstant _ count⟩
    rw [aluConstant]
    split <;> rfl

end

end Machine

/-! ## What operations append -/

private theorem Operation.run_appends {operation : Operation}
    (hraw : ∀ code, operation ≠ .bytes code)
    (hpad : ∀ alignment offset, operation ≠ .align alignment offset)
    (hcheck : operation.precheck = .ok ())
    (hsure : ∀ size cause, operation.instructions size ≠ .error cause) (b : CodeBuffer) :
    Ends operation.run b
      (fun _ c => ∃ program, operation.instructions b.size = .ok program ∧
        program.map Instr.insn = operation.asked b.size ∧
        c.bytes = b.bytes ++ (encodeAll program).toArray)
      (fun e _ => e.isMemory = true) := by
  apply (Operation.run_ends hraw hpad b).mono
  · rintro _ c ⟨-, program, hprogram, happ⟩
    exact ⟨program, hprogram, insn_instructions hpad hcheck hprogram, happ.bytes⟩
  · rintro e _ ⟨-, hmemory | ⟨cause, rfl, hprecheck | hcause⟩⟩
    · exact hmemory
    · rw [hcheck] at hprecheck
      cases hprecheck
    · exact absurd hcause (hsure b.size cause)

private theorem instructions_pushImm_ne_error (imm : Int64) (size : Nat) (cause : EmitError) :
    (Operation.pushImm imm).instructions size ≠ .error cause := by
  intro h
  simp only [Operation.instructions] at h
  repeat' split at h
  all_goals cases h

private theorem instructions_drop_ne_error (count size : Nat) (cause : EmitError) :
    (Operation.drop count).instructions size ≠ .error cause := by
  intro h
  rw [Operation.instructions] at h
  split at h
  · cases h
  · have hnames : (Operand.reg .rsp).location.Names .tmp := (aluConstant_eq_error_iff.mp h).2.1
    cases hnames

/-- The operation succeeds on an empty buffer and stays within its first bytes. -/
def Operation.runsFresh (operation : Operation) : Bool :=
  freshBuffer?.any fun b =>
    match operation.run b with
    | .error _ _ => false
    | .ok _ c => c.bytes.size ≤ 64

private theorem Operation.exists_run {operation : Operation} (h : operation.runsFresh = true) :
    ∃ b c, operation.run b = .ok () c ∧ c.bytes.size ≤ 64 := by
  obtain ⟨b, -, hb⟩ := (Option.any_eq_true _ _).mp h
  split at hb
  · cases hb
  · next c hc => exact ⟨b, c, hc, of_decide_eq_true hb⟩

/-- Moves of a constant, pushes of a constant and the discarding of slots fail only if memory runs
out. Executing what they append, from any state in which it stands at the instruction pointer,
leaves the constant in the register and changes nothing else; puts the whole constant on the stack;
or discards the slots. A move takes no more bytes than any instruction of its three forms that
leaves the constant. -/
theorem constants_and_slots_execute (b : CodeBuffer) :
    (∀ (dst : Register) (imm : Int64), Ends (Operation.movImm dst imm).run b
      (fun _ c => ∃ instr : Instr, c.bytes = b.bytes ++ instr.encode.toArray ∧
        (∀ m : Machine, m.Ahead instr.encode → m.steps 1 = some ((m.setReg dst imm.toBitVec).goTo
          (m.rip + BitVec.ofNat 64 instr.encode.length))) ∧
        instr.encode.length = constantLength dst imm ∧ instr.isConstantMove dst = true ∧
        ∀ other : Instr, other.isConstantMove dst = true → other.Leaves dst imm.toBitVec →
          instr.encode.length ≤ other.encode.length)
      (fun e _ => e.isMemory = true)) ∧
    (∀ imm : Int64, Ends (Operation.pushImm imm).run b
      (fun _ c => ∃ code : List Byte, c.bytes = b.bytes ++ code.toArray ∧
        ∀ m : Machine, m.Ahead code → ∃ m', m.Completes code m' ∧ m.Pushed imm.toBitVec m')
      (fun e _ => e.isMemory = true)) ∧
    ∀ count : Nat, Ends (Operation.drop count).run b
      (fun _ c => ∃ code : List Byte, c.bytes = b.bytes ++ code.toArray ∧
        ∀ m : Machine, m.Ahead code → ∃ m', m.Completes code m' ∧ m.Dropped count m')
      (fun e _ => e.isMemory = true) := by
  refine ⟨fun dst imm => ?_, fun imm => ?_, fun count => ?_⟩
  · have hsure : ∀ size cause, (Operation.movImm dst imm).instructions size ≠ .error cause := by
      intro size cause h
      cases h
    apply (Operation.run_appends (by simp) (by simp) rfl hsure b).mono
    · rintro _ c ⟨program, hprogram, -, hbytes⟩
      obtain rfl := Except.ok.inj hprogram
      have hlength := length_movConstant dst imm
      rw [show encodeAll [movConstant dst imm] = (movConstant dst imm).encode from
        List.append_nil _] at hbytes
      refine ⟨_, hbytes, fun m hahead => ?_, hlength, isConstantMove_movConstant dst imm,
        fun other hform hleaves => hlength ▸ constantLength_le dst imm hform hleaves⟩
      have hone : m.steps 1 = m.step := Option.bind_fun_some _
      rw [hone, Machine.step_of_ahead hahead]
      exact leaves_movConstant dst imm m _
    · exact fun _ _ h => h
  · apply (Operation.run_appends (by simp) (by simp) rfl
      (instructions_pushImm_ne_error imm) b).mono
    · rintro _ c ⟨program, -, hasked, hbytes⟩
      exact ⟨_, hbytes, fun m hahead => Machine.completes_pushImm hasked hahead⟩
    · exact fun _ _ h => h
  · apply (Operation.run_appends (by simp) (by simp) rfl
      (instructions_drop_ne_error count) b).mono
    · rintro _ c ⟨program, -, hasked, hbytes⟩
      exact ⟨_, hbytes, fun m hahead => Machine.completes_drop hasked hahead⟩
    · exact fun _ _ h => h

/-- The least number of slots that an addition of a double word does not discard, from a stack
pointer that wraps around. -/
theorem wrapping_slots_dropped :
    ∃ (b c : CodeBuffer) (code : List Byte) (m m' : Machine),
      (Operation.drop 0x10000000).run b = .ok () c ∧ c.bytes = b.bytes ++ code.toArray ∧
      m.Ahead code ∧ m.Completes code m' ∧ m.reg .rsp = 0xFFFFFFFFFFFFFFF8#64 ∧
      m'.reg .rsp = 0x7FFFFFF8#64 := by
  obtain ⟨b, c, hrun, hsize⟩ : ∃ b c, (Operation.drop 0x10000000).run b = .ok () c ∧
      c.bytes.size ≤ 64 := Operation.exists_run (by decide +kernel)
  have hends := (constants_and_slots_execute b).2.2 0x10000000
  rw [Ends, hrun] at hends
  obtain ⟨code, hbytes, heffect⟩ := hends
  have hlength : code.length ≤ 64 := by
    simp only [hbytes, Array.size_append, List.size_toArray] at hsize
    omega
  have hahead := AddressSpace.bytes_write (fun _ => 0#8) 0x1000#64
    (Nat.le_trans hlength (by decide))
  let m : Machine :=
    ⟨fun _ => 0xFFFFFFFFFFFFFFF8#64, AddressSpace.write (fun _ => 0#8) 0x1000#64 code,
      ⟨false, false, none, false, false, false⟩, 0x1000#64⟩
  obtain ⟨m', hcompletes, hdropped⟩ := heffect m hahead
  have hsum : 0xFFFFFFFFFFFFFFF8#64 + BitVec.ofNat 64 (8 * 0x10000000) = 0x7FFFFFF8#64 := by decide
  exact ⟨b, c, code, m, m', hrun, hbytes, hahead, hcompletes, rfl, hdropped.rsp.trans hsum⟩

end MachineCode.X86
