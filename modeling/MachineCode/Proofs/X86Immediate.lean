import MachineCode.Proofs.X86Execution

/-!
# Arithmetic with any immediate

Four encodings serve arithmetic with an immediate, one of them through the scratch register. All of
them mean the one operation with the whole immediate.
-/

namespace MachineCode.X86

/-! ## Registers that a location names -/

/-- The location names a register: as itself, as the base or as the index. -/
def Location.Names (register : Register) : Location → Prop
  | .reg r => r = register
  | .mem (.sum base index _) => base = some register ∨ ∃ scale, index = some (register, scale)
  | .mem (.rip _) => False

private theorem Operand.uses_iff {operand : Operand} {register : Register} :
    operand.uses register = true ↔ operand.location.Names register := by
  cases operand with
  | reg r => simp [uses, location, Location.Names]
  | mem memory =>
    cases memory with
    | base base displacement => simp [uses, location, Memory.address, Location.Names]
    | indexed base index scale displacement hindex =>
      simp [uses, location, Memory.address, Location.Names]
    | rip displacement => simp [uses, location, Memory.address, Location.Names]

private theorem number_eq_iff {r register : Register} :
    BitVec.ofBool r.isExtended ++ r.low = register.number ↔ r = register := by
  rw [show BitVec.ofBool r.isExtended ++ r.low = r.number from ofBool_msb_append r.number]
  refine ⟨fun h => ?_, congrArg Register.number⟩
  rw [← Register.ofNumber_number r, h, Register.ofNumber_number]

private theorem bytesName_modRM (register : Register) (baseBit indexBit : Bool) (mode : BitVec 2)
    (reg rm : BitVec 3) (rest : List Byte) :
    bytesName register baseBit indexBit (modRM mode reg rm :: rest) =
      if mode = 3#2 then
        decide (BitVec.ofBool baseBit ++ rm = register.number)
      else if rm = 4#3 then
        sibNames register baseBit indexBit rest
      else
        decide (¬(mode = 0#2 ∧ rm = 5#3) ∧ BitVec.ofBool baseBit ++ rm = register.number) := by
  obtain ⟨hmode, -, hrm⟩ := modRM_fields mode reg rm
  simp only [bytesName, hmode, hrm]

private theorem sibNames_sib (register : Register) (baseBit indexBit : Bool) (scale : BitVec 2)
    (index base : BitVec 3) (rest : List Byte) :
    sibNames register baseBit indexBit (sib scale index base :: rest) =
      decide (BitVec.ofBool baseBit ++ base = register.number ∨
        BitVec.ofBool indexBit ++ index ≠ 4#4 ∧
          BitVec.ofBool indexBit ++ index = register.number) := by
  obtain ⟨-, hindex, hbase⟩ := sib_fields scale index base
  simp only [sibNames, hindex, hbase]

/-- The bytes of an operand name the registers that the operand names. -/
theorem Operand.usesEncoded_eq (operand : Operand) (register : Register) :
    operand.usesEncoded register = operand.uses register := by
  cases operand with
  | reg r =>
    rw [usesEncoded, encode, bytesName_modRM, if_pos (by decide), extendsBase, uses]
    simp only [number_eq_iff]
  | mem memory =>
    cases memory with
    | base base displacement =>
      have hmode := dispWidth_code_ne base displacement
      rw [usesEncoded, encode, Memory.encode, bytesName_modRM, if_neg hmode, extendsBase, uses]
      by_cases hlow : base.low = 4#3
      · have hself : BitVec.ofBool base.isExtended ++ (4 : BitVec 3) = register.number ↔
            base = register := by
          rw [← number_eq_iff, hlow]
          rfl
        have hindex : (mem (.base base displacement)).extendsIndex = false := rfl
        have hnone : BitVec.ofBool false ++ (4 : BitVec 3) = 4#4 := rfl
        rw [if_pos hlow, if_pos hlow, List.singleton_append, sibNames_sib, hindex, hnone]
        simp only [ne_eq, not_true_eq_false, false_and, or_false, hself]
      · have hrip : ¬((dispWidth base displacement).code = 0#2 ∧ base.low = 5#3) :=
          fun h => (dispWidth_eq_none h.1).2 h.2
        rw [if_neg hlow]
        simp only [hrip, not_false_eq_true, true_and, number_eq_iff]
    | indexed base index scale displacement hindex =>
      have hsome : BitVec.ofBool index.isExtended ++ index.low ≠ 4#4 :=
        fun h => hindex (number_eq_iff.mp h)
      rw [usesEncoded, encode, Memory.encode, bytesName_modRM, if_neg (dispWidth_code_ne _ _),
        if_pos (by decide), sibNames_sib, extendsBase, extendsIndex, uses]
      simp only [hsome, ne_eq, not_false_eq_true, true_and, number_eq_iff]
    | rip displacement =>
      rw [usesEncoded, encode, Memory.encode, bytesName_modRM, if_neg (by decide),
        if_neg (by decide), uses]
      exact decide_eq_false fun h => h.1 ⟨rfl, rfl⟩

namespace Machine

section

variable {m : Machine} {register : Register} {value : BitVec 64} {next : BitVec 64}

private theorem address_setReg {address : Address} (h : ¬(Location.mem address).Names register) :
    (m.setReg register value).address next address = m.address next address := by
  cases address with
  | sum base index displacement =>
    obtain ⟨hbase, hindex⟩ := not_or.mp h
    have hbase' : base.elim 0#64 (m.setReg register value).reg = base.elim 0#64 m.reg := by
      cases base with
      | none => rfl
      | some r => exact reg_setReg_of_ne fun hr => hbase (congrArg some hr)
    have hindex' : (index.elim 0#64 fun scaled =>
        (m.setReg register value).reg scaled.1 <<< scaled.2.code.toNat) =
        index.elim 0#64 fun scaled => m.reg scaled.1 <<< scaled.2.code.toNat := by
      cases index with
      | none => rfl
      | some scaled =>
        obtain ⟨r, scale⟩ := scaled
        have hne : r ≠ register := fun hr => hindex ⟨scale, by rw [hr]⟩
        simp only [Option.elim_some, reg_setReg_of_ne hne]
    simp only [Machine.address, hbase', hindex']
  | rip displacement => rfl

variable {width : Width} {dst : Location}

private theorem readAt_setReg (h : ¬dst.Names register) :
    (m.setReg register value).readAt next width dst = m.readAt next width dst := by
  cases dst with
  | reg r => rw [readAt, readAt, reg_setReg_of_ne h]
  | mem address =>
    rw [readAt, readAt, address_setReg h]
    rfl

private theorem writeAt_setReg (h : ¬dst.Names register) (v : BitVec width.bits) :
    (m.setReg register value).writeAt next width v dst =
      (m.writeAt next width v dst).setReg register value := by
  cases dst with
  | reg r => exact setReg_comm h _
  | mem address =>
    rw [writeAt, writeAt, address_setReg h]
    rfl

private theorem alu_setReg (h : ¬dst.Names register) (op : AluOp) (src : BitVec 64) :
    (m.setReg register value).alu next op width dst src =
      (m.alu next op width dst src).setReg register value := by
  simp only [alu, readAt_setReg h, writeAt_setReg h]
  split <;> rfl

private theorem alu_goTo (rip : BitVec 64) (op : AluOp) (src : BitVec 64) :
    (m.goTo rip).alu next op width dst src = m.alu next op width dst src := by
  cases dst with
  | reg r =>
    simp only [alu]
    split <;> rfl
  | mem address =>
    have haddress : (m.goTo rip).address next address = m.address next address := by
      cases address <;> rfl
    simp only [alu, readAt, writeAt, haddress]
    split <;> rfl

end

/-! ## The immediate as a whole -/

theorem execute?_askedConstant (m : Machine) (next : BitVec 64) (dst : Register) (imm : Int64) :
    m.execute? next (askedConstant dst imm) =
      some ((m.setReg dst imm.toBitVec).goTo next) := by
  rw [askedConstant]
  split
  · next h =>
    have hvalue : (BitVec.ofInt 32 imm.toInt).setWidth 64 = imm.toBitVec := by
      have hlow : imm.toBitVec.toNat = imm.toInt := by
        have hcond := BitVec.toInt_eq_toNat_cond imm.toBitVec
        have hnonneg : 0 ≤ imm.toBitVec.toInt := h.1
        rw [show imm.toInt = imm.toBitVec.toInt from rfl]
        split at hcond <;> omega
      apply BitVec.eq_of_toNat_eq
      rw [BitVec.toNat_setWidth, BitVec.toNat_ofInt]
      have hlt := h.2
      omega
    exact congrArg (fun v => some ((m.setReg dst v).goTo next)) hvalue
  · have hvalue : (BitVec.ofInt 64 imm.toInt).setWidth 64 = imm.toBitVec := by
      rw [BitVec.setWidth_eq]
      exact BitVec.ofInt_toInt
    exact congrArg (fun v => some ((m.setReg dst v).goTo next)) hvalue

/-- One operation on 64 bits with the whole immediate. An immediate that does not fit a double word
is left in the scratch register. -/
def aluConstant (m : Machine) (next : BitVec 64) (op : AluOp) (dst : Location) (imm : Int64) :
    Machine :=
  let after := m.alu next op .qword dst imm.toBitVec
  if IsInt32 imm.toInt then after else after.setReg .tmp imm.toBitVec

/-- Executing what is asked for with an immediate is the operation with the whole immediate. -/
theorem steps_askedAlu {op : AluOp} {dst : Operand} {imm : Int64} {program : List Instr}
    (hprogram : program.map Instr.insn = askedAlu op dst imm)
    (hfree : IsInt32 imm.toInt ∨ ¬dst.location.Names .tmp) {m : Machine}
    (hahead : m.Ahead (encodeAll program)) :
    m.steps program.length = some (m.aluConstant
      (m.rip + BitVec.ofNat 64 (encodeAll program).length) op dst.location imm) := by
  rw [askedAlu] at hprogram
  split at hprogram
  · next hnarrow =>
    obtain ⟨instr, rfl, hinsn⟩ := List.map_eq_singleton_iff.mp hprogram
    have hvalue : BitVec.ofInt 64 imm.toInt = imm.toBitVec := BitVec.ofInt_toInt
    rw [List.length_singleton, steps_last hahead, hinsn, execute?, hvalue, aluConstant,
      if_pos hnarrow]
  · next hwide =>
    obtain ⟨first, rest, rfl, hfirst, hrest⟩ := List.map_eq_cons_iff.mp hprogram
    obtain ⟨second, rfl, hsecond⟩ := List.map_eq_singleton_iff.mp hrest
    have hnames : ¬dst.location.Names .tmp := hfree.resolve_left hwide
    have hmove := execute?_askedConstant m (m.rip + BitVec.ofNat 64 first.encode.length) .tmp imm
    rw [← hfirst] at hmove
    obtain ⟨hahead', hsteps⟩ := steps_cons hahead hmove rfl rfl 1
    have hnext : m.rip + BitVec.ofNat 64 first.encode.length +
        BitVec.ofNat 64 (encodeAll [second]).length =
        m.rip + BitVec.ofNat 64 (encodeAll [first, second]).length := by
      rw [encodeAll_cons first, List.length_append, BitVec.add_assoc, ← BitVec.ofNat_add]
    rw [show [first, second].length = 1 + 1 from rfl, hsteps, steps_last hahead', hsecond, execute?,
      rip_goTo, hnext, reg_goTo, reg_setReg_self, alu_goTo, alu_setReg hnames, aluConstant,
      if_neg hwide]

end Machine

theorem aluConstant_eq_error_iff {op : AluOp} {dst : Operand} {imm : Int64} {offset : Nat}
    {cause : EmitError} :
    aluConstant op dst imm offset = .error cause ↔
      ¬IsInt32 imm.toInt ∧ dst.location.Names .tmp ∧
        cause = .invalidOperands .scratchNeeded (some offset) := by
  rw [aluConstant, ← Operand.uses_iff, Operand.usesEncoded_eq]
  by_cases hbyte : IsInt8 imm.toInt
  · simp [hbyte, hbyte.isInt32]
  · by_cases hdword : IsInt32 imm.toInt
    · rw [if_neg hbyte, if_pos hdword]
      split <;> simp [hdword]
    · rw [if_neg hbyte, if_neg hdword]
      split <;> simp [*, eq_comm]

/-- Arithmetic with an immediate fails, unless memory runs out, exactly if the immediate does not
fit a double word and the destination names the scratch register. Otherwise executing the code that
was appended, from any state in which it stands at the instruction pointer, has the effect of the
one operation on 64 bits with the whole immediate. Addresses relative to the instruction pointer
count from the end of the code. -/
theorem alu_imm_means_operation (op : AluOp) (dst : Operand) (imm : Int64) (b : CodeBuffer) :
    Ends (Operation.aluImm op dst imm).run b
      (fun _ c => (IsInt32 imm.toInt ∨ ¬dst.location.Names .tmp) ∧
        ∃ code : List Byte, c.bytes = b.bytes ++ code.toArray ∧ ∀ m : Machine, m.Ahead code →
          m.steps (if IsInt32 imm.toInt then 1 else 2) =
            some (m.aluConstant (m.rip + BitVec.ofNat 64 code.length) op dst.location imm))
      (fun e _ => e.isMemory = true ∨ ¬IsInt32 imm.toInt ∧ dst.location.Names .tmp ∧
        e = .error (.invalidOperands .scratchNeeded (some b.size))) := by
  apply (Operation.run_ends (by simp) (by simp) b).mono
  · rintro _ c ⟨-, program, hprogram, happ⟩
    have hok : aluConstant op dst imm b.size = .ok program := hprogram
    have hfree : IsInt32 imm.toInt ∨ ¬dst.location.Names .tmp := by
      by_cases hnarrow : IsInt32 imm.toInt
      · exact .inl hnarrow
      · right
        intro hnames
        have herror : aluConstant op dst imm b.size =
            .error (.invalidOperands .scratchNeeded (some b.size)) :=
          aluConstant_eq_error_iff.mpr ⟨hnarrow, hnames, rfl⟩
        rw [hok] at herror
        cases herror
    have hinsns := insn_aluConstant hok
    have hlength : program.length = if IsInt32 imm.toInt then 1 else 2 := by
      rw [← List.length_map Instr.insn, hinsns, askedAlu]
      split <;> rfl
    refine ⟨hfree, encodeAll program, happ.bytes, fun m hahead => ?_⟩
    rw [← hlength]
    exact Machine.steps_askedAlu hinsns hfree hahead
  · rintro e _ ⟨-, hmemory | ⟨cause, rfl, hprecheck | hcause⟩⟩
    · exact .inl hmemory
    · cases hprecheck
    · obtain ⟨hwide, hnames, rfl⟩ := aluConstant_eq_error_iff.mp hcause
      exact .inr ⟨hwide, hnames, rfl⟩

def freshBuffer? : Option CodeBuffer :=
  (CodeBuffer.create 0 4096 { Options.standard with initialCapacity := 64 } trapPattern).toOption

private theorem ends_of_run' {work : Emit CodeBuffer} {b c : CodeBuffer}
    (h : work.run' b = some c) : Ends work b (fun d _ => d = c) (fun _ _ => False) := by
  delta EStateM.run' EStateM.run at h
  rw [Ends]
  cases hwork : work b with
  | ok d _ =>
    rw [hwork] at h
    exact Option.some.inj h
  | error e _ =>
    rw [hwork] at h
    cases h

/-- An addition with carry to memory behind the code, with the least immediate that does not fit. -/
theorem adc_behind_code_executes :
    ∃ (b c : CodeBuffer) (code : List Byte) (m m' : Machine),
      (Operation.aluImm .adc (.mem (.rip 16)) 0x80000000).run b = .ok () c ∧
      c.bytes = b.bytes ++ code.toArray ∧ m.Ahead code ∧ m.steps 2 = some m' ∧
      m'.reg .r11 = 0x80000000#64 := by
  obtain ⟨b, -, hb⟩ := (Option.any_eq_true _ _).mp (show freshBuffer?.any (fun b =>
    ((do (Operation.aluImm .adc (.mem (.rip 16)) 0x80000000).run; get : Emit CodeBuffer).run' b).any
      (fun c => c.bytes.size ≤ 64)) = true by decide +kernel)
  obtain ⟨c, hc, hsize⟩ := (Option.any_eq_true _ _).mp hb
  have hgives := ends_of_run' hc
  simp only [ends_bind, ends_get] at hgives
  have hends := alu_imm_means_operation .adc (.mem (.rip 16)) 0x80000000 b
  cases hrun : (Operation.aluImm .adc (.mem (.rip 16)) 0x80000000).run b with
  | error e d =>
    rw [Ends, hrun] at hgives
    exact hgives.elim
  | ok u d =>
    rw [Ends, hrun] at hgives hends
    obtain rfl : d = c := hgives
    obtain ⟨-, code, hbytes, hsteps⟩ := hends
    have hlength : code.length ≤ 64 := by
      have htotal := of_decide_eq_true hsize
      simp only [hbytes, Array.size_append, List.size_toArray] at htotal
      omega
    have hahead := AddressSpace.bytes_write (fun _ => 0#8) 0x1000#64
      (Nat.le_trans hlength (by decide))
    refine ⟨b, d, code, ⟨fun _ => 0#64, _, ⟨true, false, none, false, false, false⟩, 0x1000#64⟩, _,
      hrun, hbytes, hahead, hsteps _ hahead, ?_⟩
    rw [Machine.aluConstant, if_neg (by decide)]
    rfl

end MachineCode.X86
