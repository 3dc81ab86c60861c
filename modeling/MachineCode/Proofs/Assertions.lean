import MachineCode.Proofs.Finalize

/-!
# Assertions hold

Assemblers keep to what the buffer, the displacement fields and the chains assert: instructions fit
the gap that one capacity check leaves, links lead backwards, and a label is counted while it is
pending. What is left are two ways in which a caller can overreach: padding up to an offset that
does not exist, and a read beyond the code.
-/

namespace MachineCode

open CodeBuffer

def Failure.isViolation : Failure → Bool
  | .violation _ => true
  | .error _ | .refused => false

def Outcome.isViolation : Outcome → Bool
  | .reply _ => false
  | .failed failure => failure.isViolation

theorem Failure.isViolation_of_isMemory {failure : Failure} (h : failure.isMemory = true) :
    failure.isViolation = false := by
  cases failure with
  | violation v => cases h
  | _ => rfl

abbrev Safe {σ α : Type} (work : EStateM Failure σ α) : Prop :=
  Never Failure.isViolation work

private theorem safe_checked {σ α : Type} (result : Except EmitError α) :
    Safe (checked result : EStateM Failure σ α) :=
  never_checked (fun _ => rfl) result

/-! ## Buffers -/

namespace CodeBuffer

private theorem safe_emitInstruction {bytes : List Byte} (short : bytes.length ≤ instructionGap) :
    Safe (emitInstruction bytes) := by
  intro b
  apply (emitInstruction_ends short b).mono
  · exact fun _ _ _ => trivial
  · exact fun _ _ h => Failure.isViolation_of_isMemory h.2

private theorem safe_append (bytes : List Byte) : Safe (append bytes) := by
  intro b
  apply (append_ends bytes b).mono
  · exact fun _ _ _ => trivial
  · exact fun _ _ h => Failure.isViolation_of_isMemory h

private theorem safe_copyOver (destination : Array Byte) : Safe (copyOver destination) :=
  copyOver_never (fun _ => rfl) (fun _ _ => rfl) destination

theorem load_eq_error_iff {b : CodeBuffer} (granted : b.Granted) (w offset count : Nat) :
    (∃ v, b.load w offset count = .error v) ↔ b.size < offset + count := by
  have hsize := b.size_le_capacity
  simp only [Granted, blockLimit] at granted
  have hload : b.load w offset count = (b.checkEmitted offset count >>= fun _ =>
      .ok (ofLittleEndian w (b.contents.extract offset (offset + count)).toList)) := rfl
  rw [hload, checkEmitted]
  simp only [size] at hsize ⊢
  constructor
  · rintro ⟨v, hv⟩
    apply Nat.lt_of_not_le
    intro hinside
    rw [if_neg (by simp only [offsetSpace]; omega), if_neg (Nat.not_lt.mpr hinside)] at hv
    cases hv
  · intro hbeyond
    by_cases hspace : offsetSpace ≤ offset + count
    · exact ⟨_, by rw [if_pos hspace]; rfl⟩
    · exact ⟨_, by rw [if_neg hspace, if_pos hbeyond]; rfl⟩

end CodeBuffer

/-! ## The length of x86-64 instructions -/

namespace X86

private theorem length_rexPrefix_le (w r x b : Bool) : (rexPrefix w r x b).length ≤ 1 := by
  simp only [rexPrefix]
  split <;> simp

private theorem DispWidth.length_bytes_le (width : DispWidth) (displacement : Int32) :
    (width.bytes displacement).length ≤ 4 := by
  cases width <;> simp [bytes]

private theorem Operand.length_encode_le (reg : BitVec 3) (operand : Operand) :
    (operand.encode reg).length ≤ 6 := by
  cases operand with
  | reg register => simp [encode]
  | mem memory =>
    cases memory with
    | base register displacement =>
      have := (dispWidth register displacement).length_bytes_le displacement
      simp only [encode, Memory.encode, List.length_cons, List.length_append]
      split <;> simp <;> omega
    | indexed register index scale displacement _ =>
      have := (dispWidth register displacement).length_bytes_le displacement
      simp only [encode, Memory.encode, List.length_cons]
      omega
    | rip displacement => simp [encode, Memory.encode]

private theorem length_encodeOperand_le (wide : Bool) (opcode : List Byte) (reg : BitVec 4)
    (rm : Operand) : (encodeOperand wide opcode reg rm).length ≤ opcode.length + 7 := by
  have := length_rexPrefix_le wide reg.msb rm.extendsIndex rm.extendsBase
  have := rm.length_encode_le (reg.setWidth 3)
  simp only [encodeOperand, List.length_append]
  omega

private theorem length_encodeShort_le (wide : Bool) (opcode : BitVec 5) (register : Register) :
    (encodeShort wide opcode register).length ≤ 2 := by
  have := length_rexPrefix_le wide false false register.isExtended
  simp only [encodeShort, List.length_append, List.length_singleton]
  omega

theorem length_nopBytes_le (extra : Fin 8) : (nopBytes extra).length ≤ 8 := by
  revert extra
  decide

theorem Instr.length_encode_le (instr : Instr) : instr.encode.length ≤ 12 := by
  cases instr with
  | setcc condition dst =>
    simp only [encode]
    split <;> simp
  | jumpShort jump displacement => simp [encode, length_shortOpcode]
  | jumpLong jump displacement =>
    have := length_longOpcode_le jump
    simp [encode]
    omega
  | nop extra => exact Nat.le_trans (length_nopBytes_le extra) (by decide)
  | _ =>
    simp only [encode, List.length_append, List.length_cons, List.length_nil, littleEndian_length]
    grind [length_encodeOperand_le, length_encodeShort_le]

private theorem length_encodeAll_le {instructions : List Instr} {bound : Nat}
    (h : ∀ instr ∈ instructions, instr.encode.length ≤ bound) :
    (encodeAll instructions).length ≤ bound * instructions.length := by
  induction instructions with
  | nil => simp [encodeAll]
  | cons first rest ih =>
    have hfirst := h first (List.mem_cons_self ..)
    have hrest := ih fun instr hi => h instr (List.mem_cons_of_mem _ hi)
    simp only [encodeAll, List.flatMap_cons, List.length_append, List.length_cons,
      Nat.mul_add] at hrest ⊢
    omega

private theorem length_aluConstant_le {op : AluOp} {dst : Operand} {imm : Int64} {offset : Nat}
    {instructions : List Instr} (h : aluConstant op dst imm offset = .ok instructions) :
    instructions.length ≤ 2 := by
  simp only [aluConstant] at h
  repeat' split at h
  all_goals cases h
  all_goals simp

/-- An operation keeps to the gap. Only the discarding of slots takes more than two instructions,
and these are short. -/
theorem Operation.length_encodeAll_le {operation : Operation} {offset : Nat}
    {instructions : List Instr} (h : operation.instructions offset = .ok instructions) :
    (encodeAll instructions).length ≤ instructionGap := by
  have hfew : instructions.length ≤ 2 → (encodeAll instructions).length ≤ instructionGap := by
    intro hlength
    have := X86.length_encodeAll_le fun instr (_ : instr ∈ instructions) => instr.length_encode_le
    simp only [instructionGap]
    omega
  cases operation with
  | drop count =>
    simp only [Operation.instructions] at h
    split at h
    · cases h
      have hpop : ∀ instr ∈ List.replicate count (Instr.pop .tmp), instr.encode.length ≤ 2 := by
        intro instr hi
        rw [List.eq_of_mem_replicate hi]
        exact length_encodeShort_le ..
      have := X86.length_encodeAll_le hpop
      rw [List.length_replicate] at this
      simp only [instructionGap]
      omega
    · exact hfew (length_aluConstant_le h)
  | aluImm op dst imm => exact hfew (length_aluConstant_le h)
  | pushImm imm =>
    apply hfew
    simp only [Operation.instructions] at h
    repeat' split at h
    all_goals cases h
    all_goals simp
  | _ =>
    cases h
    exact hfew (by simp)

/-! ## Operations -/

private theorem safe_pad (count : Nat) : Safe (pad count) := by
  have hnop : ∀ extra : Fin 8, Safe (emitInstruction (Instr.nop extra).encode) := fun extra =>
    safe_emitInstruction (Nat.le_trans (length_nopBytes_le extra) (by decide))
  have hlong : ∀ n, Safe (emitLongNops n) := by
    intro n
    induction n with
    | zero => exact never_pure _
    | succ n ih => exact (hnop 7).bind fun _ => ih
  exact (hlong _).bind fun _ => .ite (hnop _) (never_pure _)

theorem isPowerOfTwo_iff (n : Nat) :
    n.isPowerOfTwo ↔ ¬(n = 0 ∨ 1 <<< n.log2 ≠ n) := by
  rw [Nat.one_shiftLeft, not_or, Decidable.not_not]
  constructor
  · rintro ⟨k, rfl⟩
    exact ⟨Nat.ne_of_gt (Nat.two_pow_pos k), by rw [Nat.log2_two_pow]⟩
  · rintro ⟨-, hlog⟩
    exact ⟨_, hlog.symm⟩

private theorem align_violates_iff (alignment offset : Nat) (b : CodeBuffer) :
    Ends (align alignment offset) b
      (fun _ _ => ¬(alignment.isPowerOfTwo ∧ offsetSpace ≤ b.size + offset))
      (fun e _ => e.isViolation = true ↔
        alignment.isPowerOfTwo ∧ offsetSpace ≤ b.size + offset) := by
  have hpad : ∀ (p : Prop) (count : Nat), ¬p →
      Ends (pad count) b (fun _ _ => ¬p) (fun e _ => e.isViolation = true ↔ p) := by
    intro p count hp
    apply (safe_pad count b).mono
    · exact fun _ _ _ => hp
    · exact fun e _ he => by simp [he, hp]
  simp only [align, ends_bind, ends_get, ends_ite, ends_throw, isPowerOfTwo_iff]
  refine ⟨fun hno => ?_, fun hpower => ⟨fun hspace => ?_, fun hspace => ?_⟩⟩
  · simp [Failure.isViolation, hno]
  · simp only [Failure.isViolation, true_iff]
    exact ⟨hpower, hspace⟩
  · exact hpad _ _ fun h => hspace h.2

private theorem run_safe {operation : Operation}
    (h : ∀ alignment offset, operation ≠ .align alignment offset) : Safe operation.run := by
  have hplain : ∀ o : Operation, Safe (do
      checked o.precheck
      makeRoom
      let instructions ← checked (o.instructions (← get).size)
      putInstruction (encodeAll instructions)) := by
    intro o
    refine (safe_checked _).bind fun _ b => ?_
    rw [ends_bind]
    apply (makeRoom_ends b).mono
    · rintro - c ⟨-, room⟩
      simp only [ends_bind, ends_get]
      rw [ends_checked]
      refine ⟨fun instructions hinstructions => ?_, fun _ _ => rfl⟩
      apply (putInstruction_ends (Operation.length_encodeAll_le hinstructions) room).mono
      · exact fun _ _ _ => trivial
      · exact fun _ _ h => h.elim
    · exact fun _ _ h => Failure.isViolation_of_isMemory h.2
  cases operation with
  | align alignment offset => exact absurd rfl (h alignment offset)
  | bytes code => exact safe_append code
  | _ => exact hplain _

end X86

namespace A64

private theorem safe_emitWord (word : Word) : Safe (emitWord word) :=
  safe_emitInstruction (by simp [instructionGap])

private theorem safe_emitAll (encoders : List Encoder) : Safe (emitAll encoders) := by
  induction encoders with
  | nil => exact never_pure _
  | cons encoder rest ih =>
    exact never_get.bind fun _ => (safe_checked _).bind fun word =>
      (safe_emitWord word).bind fun _ => ih

private theorem safe_emitNops (count : Nat) : Safe (emitNops count) := by
  induction count with
  | zero => exact never_pure _
  | succ count ih => exact (safe_emitWord _).bind fun _ => ih

private theorem run_safe (operation : Operation) : Safe operation.run := by
  cases operation with
  | align alignment => exact never_get.bind fun _ => .ite (safe_checked _) (safe_emitNops _)
  | _ => exact safe_emitAll _

end A64

/-! ## Branches and bindings -/

/-- The heads of a label that the buffer may use lie in its code. -/
theorem Agrees.head_lt {labels : Labels} {a : Assembler} {ledger : Ledger}
    (h : Agrees labels a ledger) (htarget : a.target ≠ .bare) {name : String}
    (hfresh : (labels.get name).owner = none → (labels.get name).place = .unbound Heads.none)
    (hown : (labels.get name).owner = none ∨ (labels.get name).owner = some a.buffer.id)
    {heads : Heads} (hp : (labels.get name).place = .unbound heads) {chain : Chain} {head : Nat}
    (hhead : heads.get chain = some head) : head < a.buffer.size := by
  have hthread := h.threaded htarget hfresh hown heads hp
  rw [hthread.heads] at hhead
  exact h.stacked.site_lt (List.mem_of_head? hhead)

private theorem Agrees.rejected_safe {labels : Labels} {a : Assembler} {ledger : Ledger}
    (h : Agrees labels a ledger) (htarget : a.target ≠ .bare) {name : String}
    (hfresh : (labels.get name).owner = none → (labels.get name).place = .unbound Heads.none)
    {shape : Shape} {e : Failure} (he : Rejected shape ⟨a.buffer, labels.get name⟩ e) :
    e.isViolation = false := by
  cases he with
  | memory isMemory => exact Failure.isViolation_of_isMemory isMemory
  | foreign _ _ => rfl
  | outOfReach _ _ => rfl
  | outOfLink _ _ => rfl
  | disorder own place isHead beyond =>
    have hlt := h.head_lt htarget hfresh own place isHead
    have hle : a.buffer.size + shape.opcode.length ≤ _ := beyond
    omega

private theorem Unbindable.safe {ledger : Ledger} {name : String} {s : Linking} {e : Failure}
    (h : Unbindable ledger name s e) : e.isViolation = false := by
  cases h <;> rfl

/-! ## Requests -/

/-- The request asks for padding up to an offset that does not exist, or for bytes beyond the code.
The latter it asks of the buffer, past the assembler. -/
def Request.Overreaches (a : Assembler) : Request → Prop
  | .x86 (.align alignment offset) =>
    a.target = .x86 ∧ alignment.isPowerOfTwo ∧ offsetSpace ≤ a.buffer.size + offset
  | .loadByte offset => a.buffer.size < offset + 1
  | .loadWord offset | .loadSigned offset => a.buffer.size < offset + 4
  | _ => False

private theorem Request.align_of_overreaches {a : Assembler} {operation : X86.Operation}
    (h : (Request.x86 operation).Overreaches a) :
    a.target = .x86 ∧ ∃ alignment offset, operation = .align alignment offset := by
  cases operation with
  | align alignment offset => exact ⟨h.1, alignment, offset, rfl⟩
  | _ => exact h.elim

section

variable {target : Target} {buffer : CodeBuffer} {labels : Labels}

private theorem askAsserted_violates_iff {α : Type} {f : α → Int}
    (value : CodeBuffer → Except Violation α) :
    (askAsserted target buffer labels fun b => (value b).map f).2.2.isViolation = true ↔
      ∃ v, value buffer = .error v := by
  simp only [askAsserted]
  cases value buffer with
  | ok n =>
    refine ⟨fun h => ?_, fun h => ?_⟩
    · cases h
    · obtain ⟨v, hv⟩ := h
      cases hv
  | error v => exact ⟨fun _ => ⟨v, rfl⟩, fun _ => rfl⟩

private theorem onBuffer_violates_iff {work : Emit Reply} {p : Prop}
    (h : Ends work buffer (fun _ _ => ¬p) (fun e _ => e.isViolation = true ↔ p)) :
    (onBuffer target buffer labels work).2.2.isViolation = true ↔ p := by
  simp only [Ends] at h
  simp only [onBuffer]
  cases hresult : work buffer with
  | ok reply b =>
    rw [hresult] at h
    refine ⟨fun hv => ?_, fun hp => absurd hp h⟩
    cases hv
  | error e b =>
    rw [hresult] at h
    exact h

private theorem onBuffer_safe {work : Emit Reply} (h : Safe work) :
    (onBuffer target buffer labels work).2.2.isViolation = false := by
  rw [← Bool.not_eq_true, onBuffer_violates_iff (p := False) ?_]
  · exact id
  · apply (h buffer).mono
    · exact fun _ _ _ => id
    · exact fun e _ he => by simp [he]

private theorem onLabel_safe {name : String} {work : Link Unit} {ok : Unit → Linking → Prop}
    {err : Failure → Linking → Prop} (h : Ends work ⟨buffer, labels.get name⟩ ok err)
    (herr : ∀ e t, err e t → e.isViolation = false) :
    (onLabel target buffer labels name work).2.2.isViolation = false := by
  rcases onLabel_cases h target with ⟨_, t, -, hserved⟩ | ⟨e, t, he, hserved⟩
  · rw [hserved]
    rfl
  · rw [hserved]
    exact herr e t he

end

private theorem Assembler.serve_violates_iff {a : Assembler} {labels : Labels} {ledger : Ledger}
    (h : Agrees labels a ledger)
    (hfresh : ∀ name, (labels.get name).owner = none →
      (labels.get name).place = .unbound Heads.none) (htarget : a.target ≠ .bare)
    (request : Request) :
    (a.serve labels request).2.2.isViolation = true ↔ request.Overreaches a := by
  have hsafe : ∀ {outcome : Outcome}, outcome.isViolation = false →
      (outcome.isViolation = true ↔ False) := fun ho => by simp [ho]
  have hload := CodeBuffer.load_eq_error_iff h.granted
  have hrejected := fun name shape e => @h.rejected_safe _ _ _ htarget name (hfresh name) shape e
  obtain ⟨target, buffer⟩ := a
  cases request with
  | size => exact hsafe rfl
  | isEmpty => exact hsafe rfl
  | capacity => exact hsafe rfl
  | unresolved => exact hsafe rfl
  | bytes => exact hsafe rfl
  | unused => exact hsafe rfl
  | farBranches => cases target <;> exact hsafe rfl
  | loadByte offset => exact (askAsserted_violates_iff _).trans (hload 8 offset 1)
  | loadWord offset => exact (askAsserted_violates_iff _).trans (hload 32 offset 4)
  | loadSigned offset => exact (askAsserted_violates_iff _).trans (hload 32 offset 4)
  | copyOver destination => exact hsafe (onBuffer_safe (safe_copyOver destination).map)
  | handOver =>
    simp only [serve]
    cases buffer.handOver <;> exact hsafe rfl
  | bare write =>
    cases target with
    | bare => exact absurd rfl htarget
    | _ => exact hsafe rfl
  | x86 operation =>
    cases target with
    | x86 =>
      by_cases halign : ∃ alignment offset, operation = .align alignment offset
      · obtain ⟨alignment, offset, rfl⟩ := halign
        have hends := X86.align_violates_iff alignment offset buffer
        refine (onBuffer_violates_iff (ends_map.mpr hends)).trans ?_
        simp only [Request.Overreaches, true_and]
      · have hrun : Safe operation.run :=
          X86.run_safe fun alignment offset heq => halign ⟨alignment, offset, heq⟩
        refine (hsafe (onBuffer_safe hrun.map)).trans (iff_of_false id fun hover => ?_)
        exact halign (Request.align_of_overreaches hover).2
    | a64 far =>
      refine (hsafe rfl).trans (iff_of_false id fun hover => ?_)
      cases (Request.align_of_overreaches hover).1
    | bare => exact absurd rfl htarget
  | a64 operation =>
    cases target with
    | a64 far => exact hsafe (onBuffer_safe (A64.run_safe operation).map)
    | _ => exact hsafe rfl
  | x86Branch name branch =>
    cases target with
    | x86 =>
      refine hsafe (onLabel_safe (X86.branch_ends branch _) fun e _ he => ?_)
      exact hrejected name _ e he.2
    | _ => exact hsafe rfl
  | a64Branch name branch =>
    cases target with
    | a64 far =>
      refine hsafe (onLabel_safe (A64.branch_ends far branch _) fun e _ he => ?_)
      rcases he.2 with hreason | ⟨cause, -, rfl⟩
      · exact hrejected name _ e hreason
      · rfl
    | _ => exact hsafe rfl
  | bind name =>
    rcases serve_bind h hfresh htarget name with ⟨t, -, hserved⟩ | ⟨e, t, -, hreason, hserved⟩
    · rw [hserved]
      exact hsafe rfl
    · rw [hserved]
      exact hsafe hreason.safe

namespace Session

/-- In every state that a session can reach, no request of an assembler breaks an assertion, unless
it overreaches. -/
theorem violation_iff_overreaches (events : List Event) {i : Nat} {a : Assembler}
    (ha : (empty.run events).assembler? i = some a) (htarget : a.target ≠ .bare)
    (request : Request) :
    (answer events i request).isViolation = true ↔ request.Overreaches a := by
  have hconsistent := consistent_run events
  obtain ⟨-, hagrees⟩ := hconsistent.agrees i a ha
  rw [answer, step_eq ha]
  exact Assembler.serve_violates_iff hagrees hconsistent.fresh htarget request

private def crossedRun : List Event :=
  [.add 4096 .x86 { Options.standard with initialCapacity := 64 },
   .add 4096 .a64 { Options.standard with initialCapacity := 64 },
   .request 0 (.x86Branch "out" (.jump .always .near)),
   .request 1 (.a64Branch "out" (.jump false))]

/-- The greatest offset that padding may be counted from, and the next. -/
theorem crossedRun_overreaches :
    (answer crossedRun 0 (.x86 (.align 16 0xFFFFFFFFFFFFFFFD))).isViolation = false ∧
      (answer crossedRun 0 (.x86 (.align 16 0xFFFFFFFFFFFFFFFE))).isViolation = true := by
  obtain ⟨a, ha, hpair⟩ := Option.map_eq_some_iff.mp
    (show ((empty.run crossedRun).assembler? 0).map (fun a => (a.target, a.buffer.size)) =
      some (.x86, 2) by decide +kernel)
  obtain ⟨htarget, hsize⟩ := Prod.mk.inj hpair
  have hiff := violation_iff_overreaches crossedRun ha (by simp [htarget])
  rw [← Bool.not_eq_true, hiff, hiff]
  simp only [Request.Overreaches, htarget, hsize, offsetSpace]
  exact ⟨fun h => absurd h.2.2 (by decide), trivial, ⟨4, rfl⟩, by decide⟩

end Session

end MachineCode
