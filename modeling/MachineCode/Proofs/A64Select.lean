import MachineCode.Proofs.A64Core

/-!
# Executing conditional selects

The value that a conditional select leaves in its destination, for every condition and every state
of the flags. `cset` and `csetm` select between zero and what follows from it under the condition
whose code differs in the lowest bit. That is the opposite condition except for the two that always
hold: with one of these, `cset` and `csetm` leave zero.
-/

namespace MachineCode.A64

/-! ## Meaning -/

def Select.result (select : Select) (value : BitVec 64) : BitVec 64 :=
  match select with
  | .plain => value
  | .increment => value + 1#64
  | .invert => ~~~value
  | .negate => -value

namespace Core

/-- Executes a conditional select, or an instruction that `execute?` knows. -/
def choose? (m : Core) : DataInsn → Option Core
  | .conditionalSelect select width rd rn rm condition =>
    let value :=
      if m.conditionHolds condition.code then m.read rn else select.result (m.read rm)
    some ((m.write rd (width.keep value)).goTo (m.pc + 4))
  | insn => m.execute? insn

def stepChoosing (code : Array Byte) (m : Core) : Option Core := do
  let w ← fetch code m.pc
  let insn ← decodeData w
  m.choose? insn

end Core

/-- Unless memory runs out, the operation is refused exactly if the stack pointer is among its
registers. Otherwise it appends one word, and executing that leaves the value in the destination and
changes nothing else. -/
def Selects (operation : Operation) (registers : List Register) (rd : Register)
    (value : Core → BitVec 64) (b : CodeBuffer) : Prop :=
  Ends operation.run b
    (fun _ c => .sp ∉ registers ∧ ∃ w : Word, c.bytes = b.bytes ++ (littleEndian 4 w).toArray ∧
      ∀ m : Core, m.pc = b.size →
        m.stepChoosing c.bytes = some ((m.write rd (value m)).goTo c.size))
    (fun e _ => e.isMemory = true ∨ .sp ∈ registers)

/-! ## The word of a select -/

theorem Register.exists_slot_zero_iff {r : Register} :
    (∃ n, r.slot .zero = some n) ↔ r ≠ .sp := by
  cases r <;> simp [slot]

section

variable {select : Select} {rd rn rm : Register} {condition : Condition}

private theorem conditionalSelect_ok_iff {offset : Nat} :
    (∃ w, conditionalSelect select rd rn rm condition offset = .ok w) ↔ .sp ∉ [rd, rn, rm] := by
  have hregisters : .sp ∉ [rd, rn, rm] ↔ rd ≠ .sp ∧ rn ≠ .sp ∧ rm ≠ .sp := by
    simp [eq_comm]
  simp only [hregisters, ← Register.exists_slot_zero_iff, conditionalSelect, except_bind_eq_ok,
    registerField_ok_iff]
  constructor
  · rintro ⟨_, _, ⟨m, hm, -⟩, _, ⟨n, hn, -⟩, _, ⟨d, hd, -⟩, -⟩
    exact ⟨⟨d, hd⟩, ⟨n, hn⟩, ⟨m, hm⟩⟩
  · rintro ⟨⟨d, hd⟩, ⟨n, hn⟩, ⟨m, hm⟩⟩
    exact ⟨_, _, ⟨m, hm, rfl⟩, _, ⟨n, hn, rfl⟩, _, ⟨d, hd, rfl⟩, rfl⟩

private theorem Core.choose?_conditionalSelect (m : Core) :
    m.choose? (.conditionalSelect select .x rd rn rm condition) =
      some ((m.write rd (if condition.holds m.toMachine then m.read rn
        else select.result (m.read rm))).goTo (m.pc + 4)) := by
  simp only [choose?, conditionHolds_code, Width.keep_x]

private theorem conditionalSelect_selects (select : Select) (rd rn rm : Register)
    (condition : Condition) (b : CodeBuffer) :
    Selects (.conditionalSelect select rd rn rm condition) [rd, rn, rm] rd
      (fun m => if condition.holds m.toMachine then m.read rn else select.result (m.read rm))
      b := by
  apply (emitAll_ends [conditionalSelect select rd rn rm condition] b).mono
  · rintro _ c ⟨words, hwords, happ⟩
    obtain ⟨w, rfl, hw⟩ := hwords.exists_word
    rw [List.flatMap_singleton] at happ
    have hsize : c.size = b.size + 4 := by simpa using happ.size
    refine ⟨conditionalSelect_ok_iff.mp ⟨w, hw⟩, w, happ.bytes, fun m hpc => ?_⟩
    have hfetch : fetch c.bytes b.size = some w := fetch_of_holds happ.holds
    simp only [Core.stepChoosing, hfetch, decode_conditionalSelect hw, Option.bind_eq_bind,
      Option.bind_some, Core.choose?_conditionalSelect, hpc, hsize]
    rfl
  · rintro e _ (hmemory | ⟨encoder, hencoder, offset, cause, hcause⟩)
    · exact .inl hmemory
    · right
      obtain rfl := List.mem_singleton.mp hencoder
      refine Decidable.byContradiction fun hregisters => ?_
      obtain ⟨w, hw⟩ := conditionalSelect_ok_iff.mpr hregisters
      rw [hw] at hcause
      cases hcause

end

/-! ## Selects under the inverted condition -/

/-- The condition holds, and is not one of the two that always do. -/
def Condition.holdsProperly (m : Machine) (condition : Condition) : Bool :=
  condition.holds m && condition ≠ .al && condition ≠ .nv

private theorem not_holds_invert (m : Machine) (condition : Condition) :
    (!condition.invert.holds m) = condition.holdsProperly m := by
  rw [Condition.holdsProperly]
  by_cases hal : condition = .al
  · rw [hal]
    rfl
  · by_cases hnv : condition = .nv
    · rw [hnv]
      rfl
    · rw [holds_invert hal hnv, Bool.not_not]
      simp [hal, hnv]

private theorem zeroSelect_selects (select : Select) (rd : Register) (condition : Condition)
    (b : CodeBuffer) :
    Selects (.conditionalSelect select rd .zr .zr condition.invert) [rd] rd
      (fun m => if condition.holdsProperly m.toMachine then select.result 0#64 else 0#64) b := by
  apply (conditionalSelect_selects select rd .zr .zr condition.invert b).mono
  · rintro _ c ⟨hregisters, w, hbytes, hstep⟩
    refine ⟨by simpa using hregisters, w, hbytes, fun m hpc => ?_⟩
    have hvalue : (if condition.invert.holds m.toMachine then m.read .zr
        else select.result (m.read .zr)) =
        if condition.holdsProperly m.toMachine then select.result 0#64 else 0#64 := by
      rw [← not_holds_invert]
      cases condition.invert.holds m.toMachine <;> rfl
    rw [hstep m hpc]
    exact congrArg (fun v => some ((m.write rd v).goTo c.size)) hvalue
  · rintro e _ (hmemory | hregisters)
    · exact .inl hmemory
    · right
      simpa using hregisters

/-- Conditional selects leave what they are named for: the first source if the condition holds, and
otherwise the second source, plain, incremented, inverted or negated. `cset` leaves one and `csetm`
all ones where the condition holds without holding always, and zero everywhere else. -/
theorem selects_leave_named (rd rn rm : Register) (condition : Condition) (b : CodeBuffer) :
    Selects (.conditionalSelect .plain rd rn rm condition) [rd, rn, rm] rd
      (fun m => if condition.holds m.toMachine then m.read rn else m.read rm) b ∧
    Selects (.conditionalSelect .increment rd rn rm condition) [rd, rn, rm] rd
      (fun m => if condition.holds m.toMachine then m.read rn else m.read rm + 1#64) b ∧
    Selects (.conditionalSelect .invert rd rn rm condition) [rd, rn, rm] rd
      (fun m => if condition.holds m.toMachine then m.read rn else ~~~m.read rm) b ∧
    Selects (.conditionalSelect .negate rd rn rm condition) [rd, rn, rm] rd
      (fun m => if condition.holds m.toMachine then m.read rn else -m.read rm) b ∧
    Selects (.cset rd condition) [rd] rd
      (fun m => if condition.holdsProperly m.toMachine then 1#64 else 0#64) b ∧
    Selects (.csetm rd condition) [rd] rd
      (fun m => if condition.holdsProperly m.toMachine then BitVec.allOnes 64 else 0#64) b :=
  ⟨conditionalSelect_selects .plain rd rn rm condition b,
    conditionalSelect_selects .increment rd rn rm condition b,
    conditionalSelect_selects .invert rd rn rm condition b,
    conditionalSelect_selects .negate rd rn rm condition b,
    zeroSelect_selects .increment rd condition b, zeroSelect_selects .invert rd condition b⟩

/-- A negation where the comparison was equal. -/
theorem csneg_equal_negates :
    ∃ (b c : CodeBuffer) (m m' : Core),
      (Operation.conditionalSelect .negate .lr .fp .lr .gt).run b = .ok () c ∧ m.pc = b.size ∧
      m.z = true ∧ m.read .lr = 5#64 ∧ m.stepChoosing c.bytes = some m' ∧
      m'.read .lr = 0xFFFFFFFFFFFFFFFB#64 := by
  obtain ⟨b, c, hrun⟩ :
      ∃ b c, (Operation.conditionalSelect .negate .lr .fp .lr .gt).run b = .ok () c :=
    Operation.exists_run (by decide +kernel)
  have hends := (selects_leave_named .lr .fp .lr .gt b).2.2.2.1
  rw [Selects, Ends, hrun] at hends
  obtain ⟨-, w, -, hstep⟩ := hends
  let m : Core := ⟨⟨b.size, false, true, true, false, fun _ => 5#64, 0#64⟩, 0#64⟩
  exact ⟨b, c, m, _, hrun, rfl, rfl, rfl, hstep m rfl, rfl⟩

/-- The condition always holds, and `cset` leaves zero. -/
theorem cset_always_leaves_zero :
    ∃ (b c : CodeBuffer) (m m' : Core), (Operation.cset .lr .al).run b = .ok () c ∧
      m.pc = b.size ∧ Condition.al.holds m.toMachine = true ∧
      m.stepChoosing c.bytes = some m' ∧ m'.read .lr = 0#64 := by
  obtain ⟨b, c, hrun⟩ : ∃ b c, (Operation.cset .lr .al).run b = .ok () c :=
    Operation.exists_run (by decide +kernel)
  have hends : Selects (.cset .lr .al) [.lr] .lr _ b := zeroSelect_selects .increment .lr .al b
  rw [Selects, Ends, hrun] at hends
  obtain ⟨-, w, -, hstep⟩ := hends
  let m : Core := ⟨⟨b.size, false, false, false, false, fun _ => 5#64, 0#64⟩, 0#64⟩
  exact ⟨b, c, m, _, hrun, rfl, rfl, hstep m rfl, rfl⟩

end MachineCode.A64
