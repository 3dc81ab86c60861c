import MachineCode.Proofs.PoolLoad

/-!
# What range and alignment errors say

A range error names a value and the bounds that it is outside of, and an alignment error a value and
the unit that it is not a multiple of. The checks that give these errors compare just these numbers,
with one exception: an offset that is within the bounds of a load or store and not a multiple of the
access size is said to be out of range. Loads from the object pool pass that error on.
-/

namespace MachineCode

open CodeBuffer

/-- What the error says of its value is so. -/
def EmitError.Truthful : EmitError → Prop
  | .immediateOverflow value min max => value < min ∨ max < value
  | .misalignedOffset value alignment => value % alignment ≠ 0
  | _ => True

instance (cause : EmitError) : Decidable cause.Truthful :=
  match cause with
  | .immediateOverflow .. => inferInstanceAs (Decidable (_ ∨ _))
  | .misalignedOffset .. => inferInstanceAs (Decidable (_ ≠ _))
  | .invalidOperands .. | .notEncodable .. | .branchOutOfRange .. | .labelAlreadyBound _
  | .foreignLabel | .unresolvedLabels _ | .outOfMemory _ | .capacityOverflow _
  | .destinationTooSmall .. => inferInstanceAs (Decidable True)

private theorem EmitError.truthful_of_isMemory {cause : EmitError} (h : cause.isMemory = true) :
    cause.Truthful := by
  cases cause <;> trivial

def Failure.misstates : Failure → Bool
  | .error cause => !decide cause.Truthful
  | .violation _ | .refused => false

private theorem Failure.misstates_error {cause : EmitError} :
    (Failure.error cause).misstates = false ↔ cause.Truthful := by
  simp [misstates]

/-! ## Checks -/

/-- If the check fails, its error is truthful. -/
structure Honest {α : Type} (result : Except EmitError α) : Prop where
  truthful : ∀ cause, result = .error cause → cause.Truthful

section

variable {α β : Type}

private theorem honest_ok (a : α) : Honest (.ok a) where
  truthful cause h := by cases h

private theorem honest_error {cause : EmitError} (h : cause.Truthful) :
    Honest (.error cause : Except EmitError α) where
  truthful cause' h' := by
    cases h'
    exact h

private theorem Honest.bind {result : Except EmitError β} {next : β → Except EmitError α}
    (h : Honest result) (hnext : ∀ b, Honest (next b)) : Honest (result >>= next) := by
  cases result with
  | ok b => exact hnext b
  | error cause => exact honest_error (h.truthful cause rfl)

private theorem Honest.ite {p : Prop} [Decidable p] {yes no : Except EmitError α}
    (hyes : p → Honest yes) (hno : ¬p → Honest no) : Honest (if p then yes else no) := by
  split
  · next h => exact hyes h
  · next h => exact hno h

private theorem DispField.honest_encode (f : DispField) (displacement : Int) (word : Word) :
    Honest (f.encode displacement word) :=
  .ite (fun h => honest_error h) fun _ => .ite (fun h => honest_error h) fun _ => honest_ok _

end

namespace A64

private theorem honest_refuse {α : Type} (misuse : Misuse) (offset : Nat) :
    Honest (refuse misuse offset : Except EmitError α) :=
  honest_error trivial

private theorem honest_registerField (lsb : Nat) (slot31 : Slot31) (register : Register)
    (offset : Nat) :
    Honest (registerField lsb slot31 register offset) := by
  rw [registerField]
  cases register.slot slot31 with
  | some number => exact honest_ok _
  | none => exact honest_refuse _ _

private theorem honest_unsignedField (bits value : Nat) : Honest (unsignedField bits value) := by
  refine .ite (fun _ => honest_ok _) fun h => honest_error (.inr ?_)
  omega

private theorem honest_checkAmount (width : Width) (amount : BitVec 8) :
    Honest (checkAmount width amount) := by
  refine .ite (fun _ => honest_ok _) fun h => honest_error (.inr ?_)
  omega

end A64

section

variable {α : Type} {offset : Nat}

private theorem Honest.register {lsb : Nat} {slot31 : A64.Slot31} {register : A64.Register}
    {next : Word → Except EmitError α} (h : ∀ word, Honest (next word)) :
    Honest (A64.registerField lsb slot31 register offset >>= next) :=
  (A64.honest_registerField ..).bind h

private theorem Honest.number {bits value : Nat} {next : BitVec bits → Except EmitError α}
    (h : ∀ field, Honest (next field)) : Honest (A64.unsignedField bits value >>= next) :=
  (A64.honest_unsignedField ..).bind h

private theorem Honest.refused {β : Type} {misuse : Misuse} {next : β → Except EmitError α} :
    Honest (A64.refuse misuse offset >>= next) :=
  honest_error trivial

end

namespace A64

private theorem Operand.honest_ofShifted (rm : Register) (shift : Shift) (amount : Nat) :
    Honest (ofShifted rm shift amount) := by
  refine .ite (fun h => honest_error (.inr ?_)) fun _ =>
    .ite (fun _ => honest_error trivial) fun _ => honest_ok _
  omega

private theorem Operand.honest_ofExtended (rm : Register) (extend : Extend) (amount : Nat) :
    Honest (ofExtended rm extend amount) := by
  refine .ite (fun h => honest_error (.inr ?_)) fun _ => honest_ok _
  omega

namespace Address

/-- The offset is within the bounds of a load or store, but not a multiple of the access size, and
nothing else about the address is wrong. -/
def Misaligned (rn : Register) (offset : Int) (mode : AddressMode) (size : AccessSize) : Prop :=
  mode = .offset ∧ rn ≠ .zr ∧ 256 ≤ offset ∧ offset ≤ 4095 * size.bytes ∧ offset % size.bytes ≠ 0

instance (rn : Register) (offset : Int) (mode : AddressMode) (size : AccessSize) :
    Decidable (Misaligned rn offset mode size) :=
  inferInstanceAs (Decidable (_ ∧ _ ∧ _ ∧ _ ∧ _))

private theorem honest_baseBits (rn : Register) : Honest (baseBits rn) := by
  rw [baseBits]
  cases rn.slot .stackPointer with
  | some slot => exact honest_ok _
  | none => exact honest_error trivial

private theorem isAligned_iff {offset : Int} {size : AccessSize} :
    IsAligned offset size.log2 ↔ offset % size.bytes = 0 :=
  Iff.rfl

private theorem isScaled_iff {offset : Int} {size : AccessSize} :
    IsScaled offset size.log2 ↔
      0 ≤ offset ∧ offset < 4096 * size.bytes ∧ offset % size.bytes = 0 := by
  have hcount : (1 <<< (12 + size.log2) : Nat) = 4096 * size.bytes := by
    cases size <;> rfl
  simp only [IsScaled, IsUint, isAligned_iff, hcount]
  omega

private theorem isInt_pair_iff {offset : Int} {size : AccessSize} :
    IsInt (7 + size.log2) offset ↔ -64 * size.bytes ≤ offset ∧ offset ≤ 64 * size.bytes - 1 := by
  have hcount : (1 <<< (7 + size.log2 - 1) : Nat) = 64 * size.bytes := by
    cases size <;> rfl
  simp only [IsInt, hcount]
  omega

private theorem isInt_nine_iff {offset : Int} : IsInt 9 offset ↔ -256 ≤ offset ∧ offset ≤ 255 := by
  have hcount : (1 <<< (9 - 1) : Nat) = 256 := rfl
  simp only [IsInt, hcount]
  omega

/-- The error of an offset that its mode does not take is truthful in all modes but one. -/
theorem truthful_offsetError_iff {offset : Int} {mode : AddressMode} {size : AccessSize}
    (hmode : ¬(mode = .index ∨ mode = .literal)) (h : takesOffset offset mode size = false) :
    (offsetError offset mode size).Truthful ↔
      ¬(mode = .offset ∧ 256 ≤ offset ∧ offset ≤ 4095 * size.bytes ∧
        offset % size.bytes ≠ 0) := by
  have hpos : 0 < size.bytes := by cases size <;> decide
  have hsingle : ¬IsInt 9 offset → offset < -256 ∨ 255 < offset := by
    rw [isInt_nine_iff]
    omega
  have hpair : ¬(IsInt (7 + size.log2) offset ∧ IsAligned offset size.log2) →
      EmitError.Truthful (if IsAligned offset size.log2 then
        .immediateOverflow offset (-64 * size.bytes) (63 * size.bytes)
      else .misalignedOffset offset size.bytes) := by
    intro hrefused
    split
    · next haligned =>
      have hrange := mt (And.intro · haligned) hrefused
      rw [isInt_pair_iff] at hrange
      change _ ∨ _
      omega
    · next hodd => exact hodd
  cases mode with
  | offset =>
    have hrefused := of_decide_eq_false h
    rw [isScaled_iff, isInt_nine_iff] at hrefused
    change (offset < -256 ∨ 4095 * (size.bytes : Int) < offset) ↔ _
    simp only [true_and]
    omega
  | preIndex => exact iff_of_true (hsingle (of_decide_eq_false h)) (by simp)
  | postIndex => exact iff_of_true (hsingle (of_decide_eq_false h)) (by simp)
  | pairOffset => exact iff_of_true (hpair (of_decide_eq_false h)) (by simp)
  | pairPreIndex => exact iff_of_true (hpair (of_decide_eq_false h)) (by simp)
  | pairPostIndex => exact iff_of_true (hpair (of_decide_eq_false h)) (by simp)
  | index => exact absurd (.inl rfl) hmode
  | literal => exact absurd (.inr rfl) hmode

private theorem ofOffset_truthful_iff {rn : Register} {offset : Int} {mode : AddressMode}
    {size : AccessSize} {cause : EmitError} (h : ofOffset rn offset mode size = .error cause) :
    cause.Truthful ↔ ¬Misaligned rn offset mode size := by
  rw [ofOffset] at h
  split at h
  · next hmode =>
    cases h
    refine iff_of_true trivial fun hmisaligned => ?_
    rw [hmisaligned.1] at hmode
    simp at hmode
  · next hmode =>
    by_cases hzero : rn = .zr
    · subst hzero
      cases h
      exact iff_of_true trivial fun hmisaligned => hmisaligned.2.1 rfl
    · obtain ⟨slot, hslot⟩ :=
        Option.ne_none_iff_exists'.mp (Register.slot_stackPointer_ne_none hzero)
      rw [baseBits, hslot, ok_bind] at h
      split at h
      · cases h
      · next hrefused =>
        cases h
        rw [truthful_offsetError_iff hmode (Bool.eq_false_iff.mpr hrefused)]
        simp only [Misaligned, ne_eq, hzero, not_false_eq_true, true_and]

private theorem ofOffset_of_misaligned {rn : Register} {offset : Int} {mode : AddressMode}
    {size : AccessSize} (h : Misaligned rn offset mode size) :
    ofOffset rn offset mode size =
      .error (.immediateOverflow offset (-256) (4095 * size.bytes)) := by
  obtain ⟨rfl, hzero, hfrom, -, hodd⟩ := h
  have hrefused : takesOffset offset .offset size = false := by
    apply decide_eq_false
    rw [isScaled_iff, isInt_nine_iff]
    omega
  obtain ⟨slot, hslot⟩ := Option.ne_none_iff_exists'.mp (Register.slot_stackPointer_ne_none hzero)
  simp only [ofOffset, reduceCtorEq, or_self, if_false, baseBits, hslot, hrefused,
    Bool.false_eq_true]
  rfl

private theorem honest_ofOffset_iff {rn : Register} {offset : Int} {mode : AddressMode}
    {size : AccessSize} :
    Honest (ofOffset rn offset mode size) ↔ ¬Misaligned rn offset mode size := by
  constructor
  · intro hhonest hmisaligned
    have hcause := ofOffset_of_misaligned hmisaligned
    exact (ofOffset_truthful_iff hcause).mp (hhonest.truthful _ hcause) hmisaligned
  · exact fun h => ⟨fun _ hcause => (ofOffset_truthful_iff hcause).mpr h⟩

private theorem honest_ofIndexed (rn rm : Register) (extend : Extend) (scaled : Bool) :
    Honest (ofIndexed rn rm extend scaled) := by
  refine (honest_baseBits rn).bind fun base => ?_
  cases rm.slot .zero with
  | none => exact honest_error trivial
  | some index =>
    exact .ite (fun _ => honest_error trivial) fun _ =>
      .ite (fun _ => honest_error trivial) fun _ => honest_ok _

private theorem honest_ofLiteral (offset : Int) : Honest (ofLiteral offset) :=
  (DispField.honest_encode ..).bind fun _ => honest_ok _

end Address

/-! ## Encoders -/

private theorem honest_one {encoder : Encoder} (h : ∀ offset, Honest (encoder offset)) :
    ∀ e ∈ [encoder], ∀ offset, Honest (e offset) :=
  List.forall_mem_singleton.mpr h

section

variable (rd rn rm : Register) (offset : Nat)

private theorem honest_addSub (op : AddSub) (width : Width) (setFlags : Bool) (operand : Operand) :
    Honest (addSub op width setFlags rd rn operand offset) := by
  cases operand with
  | immediate imm12 raised => exact .register fun _ => .register fun _ => honest_ok _
  | shifted rm shift amount =>
    exact .ite (fun _ => .refused) fun _ => (honest_checkAmount ..).bind fun _ =>
      .register fun _ => .register fun _ => .register fun _ => honest_ok _
  | extended rm extend amount =>
    exact .register fun _ => .register fun _ => .register fun _ => honest_ok _
  | bitmask imm => exact honest_refuse ..

private theorem honest_logicalImmediate (op : LogicalOp) (width : Width) (value : BitVec 64) :
    Honest (logicalImmediate op width rd rn value offset) := by
  rw [logicalImmediate]
  cases width.bitmask? value with
  | none => exact honest_error trivial
  | some imm => exact .register fun _ => .register fun _ => honest_ok _

private theorem honest_logicalRegister (op : LogicalOp) (negate : Bool) (operand : Operand) :
    Honest (logicalRegister op negate rd rn operand offset) := by
  cases operand with
  | shifted rm shift amount =>
    exact (honest_checkAmount ..).bind fun _ => .register fun _ => .register fun _ =>
      .register fun _ => honest_ok _
  | _ => exact honest_refuse ..

private theorem honest_moveWide (move : MoveWide) (imm : BitVec 16) (position : Nat) :
    Honest (moveWide move rd imm position offset) :=
  .number fun _ => .register fun _ => honest_ok _

private theorem honest_loadConstant (value : BitVec 64) :
    ∀ encoder ∈ loadConstant rd value, ∀ offset, Honest (encoder offset) := by
  rw [loadConstant]
  split
  · exact honest_one fun _ => honest_refuse ..
  · split
    · exact honest_one fun _ => honest_logicalImmediate ..
    · rw [List.forall_mem_map]
      exact fun _ _ _ => honest_moveWide ..

private theorem honest_bitfieldMove (signed : Bool) (immR immS : Nat) :
    Honest (bitfieldMove signed rd rn immR immS offset) :=
  .number fun _ => .number fun _ => .register fun _ => .register fun _ => honest_ok _

private theorem honest_conditionalSelect (select : Select) (condition : Condition) :
    Honest (conditionalSelect select rd rn rm condition offset) :=
  .register fun _ => .register fun _ => .register fun _ => honest_ok _

private theorem honest_multiplyAdd (subtract : Bool) (ra : Register) :
    Honest (multiplyAdd subtract rd rn rm ra offset) :=
  .register fun _ => .register fun _ => .register fun _ => .register fun _ => honest_ok _

private theorem honest_divide (signed : Bool) : Honest (divide signed rd rn rm offset) :=
  .register fun _ => .register fun _ => .register fun _ => honest_ok _

private theorem honest_adr (displacement : Int) : Honest (adr rd displacement offset) := by
  refine .ite (fun h => honest_error (h.imp_right ?_)) fun _ => .register fun _ => honest_ok _
  omega

private theorem honest_singleBits (address : Address) (size : AccessSize) (opc : BitVec 2) :
    Honest (singleBits address size opc offset) :=
  .ite (fun _ => .refused) fun _ => honest_ok _

private theorem honest_load (address : Address) (size : AccessSize) :
    Honest (load rd address size offset) := by
  refine .register fun _ => .ite (fun _ => ?_) fun _ =>
    (honest_singleBits ..).bind fun _ => honest_ok _
  cases literalOpcode size with
  | some opcode => exact honest_ok _
  | none => exact honest_refuse ..

private theorem honest_store (address : Address) (size : AccessSize) :
    Honest (store rd address size offset) :=
  .register fun _ => .ite (fun _ => honest_refuse ..) fun _ =>
    (honest_singleBits ..).bind fun _ => honest_ok _

private theorem honest_transferPair (isLoad : Bool) (address : Address) (size : AccessSize) :
    Honest (transferPair isLoad rd rn address size offset) := by
  refine .ite (fun _ => .refused) fun _ => ?_
  cases pairSize isLoad size with
  | none => exact honest_refuse ..
  | some opc => exact .register fun _ => .register fun _ => honest_ok _

private theorem honest_onStack {displacement : Int} {mode : AddressMode}
    {access : Address → Encoder} (hmode : mode ≠ .offset)
    (haccess : ∀ address, Honest (access address offset)) :
    Honest (onStack displacement mode access offset) :=
  (Address.honest_ofOffset_iff.mpr fun h => hmode h.1).bind haccess

private theorem honest_branchOffset (link : Bool) (displacement : Int) :
    Honest (branchOffset link displacement offset) :=
  .ite (fun _ => honest_error trivial) fun _ => DispField.honest_encode ..

end

private theorem Operation.honest_encoders {operation : Operation}
    (h : ∀ dst pp position, operation ≠ .loadFromPool dst pp position) :
    ∀ encoder ∈ operation.encoders, ∀ offset, Honest (encoder offset) := by
  cases operation with
  | word w => exact honest_one fun _ => honest_ok w
  | nop => exact honest_one fun _ => honest_ok _
  | align alignment =>
    intro encoder hmem
    cases hmem
  | addSub op width setFlags rd rn operand =>
    exact honest_one fun _ => honest_addSub ..
  | logicalImmediate op width rd rn value =>
    exact honest_one fun _ => honest_logicalImmediate ..
  | logicalRegister op negate rd rn operand =>
    exact honest_one fun _ => honest_logicalRegister ..
  | moveWide move rd imm position => exact honest_one fun _ => honest_moveWide ..
  | loadConstant rd value => exact honest_loadConstant rd value
  | bitfieldMove signed rd rn immR immS =>
    exact honest_one fun _ => honest_bitfieldMove ..
  | shiftLeft rd rn amount =>
    exact honest_one fun _ => .number fun _ => honest_bitfieldMove ..
  | conditionalSelect select rd rn rm condition =>
    exact honest_one fun _ => honest_conditionalSelect ..
  | multiplyAdd subtract rd rn rm ra =>
    exact honest_one fun _ => honest_multiplyAdd ..
  | divide signed rd rn rm => exact honest_one fun _ => honest_divide ..
  | adr rd displacement => exact honest_one fun _ => honest_adr ..
  | load rt address size => exact honest_one fun _ => honest_load ..
  | store rt address size => exact honest_one fun _ => honest_store ..
  | transferPair isLoad rt rt2 address size =>
    exact honest_one fun _ => honest_transferPair ..
  | push register =>
    exact honest_one fun _ =>
      honest_onStack _ (by decide) fun _ => honest_store ..
  | pop register =>
    exact honest_one fun _ =>
      honest_onStack _ (by decide) fun _ => honest_load ..
  | pushPair low high =>
    exact honest_one fun _ =>
      honest_onStack _ (by decide) fun _ => honest_transferPair ..
  | popPair low high =>
    exact honest_one fun _ =>
      honest_onStack _ (by decide) fun _ => honest_transferPair ..
  | loadFromPool dst pp position => exact absurd rfl (h dst pp position)
  | branchOffset link displacement =>
    exact honest_one fun _ => honest_branchOffset ..
  | branchRegister branch rn =>
    exact honest_one fun _ => .register fun _ => honest_ok _
  | raise exception number => exact honest_one fun _ => honest_ok _

private theorem honest_branch (branch : Branch) (start : Nat) : Honest (branch.encoder start) := by
  cases branch with
  | jump link => exact honest_ok _
  | onCondition condition =>
    cases condition with
    | nv => exact honest_refuse ..
    | _ => exact honest_ok _
  | compare nonzero rt width => exact .register fun _ => honest_ok _
  | test set rt bit => exact .number fun _ => .register fun _ => honest_ok _

end A64

/-! ## Operations -/

private theorem Failure.misstates_of_sure {failure : Failure} (h : failure.isObjection = false) :
    failure.misstates = false := by
  cases failure with
  | error cause =>
    have hmemory : cause.isMemory = true := by simpa [isObjection] using h
    exact misstates_error.mpr (cause.truthful_of_isMemory hmemory)
  | violation v => rfl
  | refused => rfl

section

variable {σ α : Type}

private theorem Sure.never_misstates {work : EStateM Failure σ α} (h : Sure work) :
    Never Failure.misstates work := by
  intro s
  apply (h s).mono
  · exact fun _ _ _ => trivial
  · exact fun _ _ hsure => Failure.misstates_of_sure hsure

private theorem Honest.never_misstates {result : Except EmitError α} (h : Honest result) :
    Never Failure.misstates (checked result : EStateM Failure σ α) := by
  intro s
  exact ends_checked.mpr ⟨fun _ _ => trivial,
    fun cause hcause => Failure.misstates_error.mpr (h.truthful cause hcause)⟩

end

namespace A64

private theorem emitAll_never_misstates {encoders : List Encoder}
    (h : ∀ encoder ∈ encoders, ∀ offset, Honest (encoder offset)) :
    Never Failure.misstates (emitAll encoders) := by
  induction encoders with
  | nil => exact never_pure _
  | cons encoder rest ih =>
    rw [List.forall_mem_cons] at h
    exact never_get.bind fun b => (h.1 b.size).never_misstates.bind fun word =>
      (sure_emitWord word).never_misstates.bind fun _ => ih h.2

/-- A load of which the last instruction is left with an offset that is not a multiple of its
access size. -/
def MisstatedLoad (dst pp : Register) (offset : Nat) : Prop :=
  dst ≠ pp ∧ dst ≠ .zr ∧ pp ≠ .zr ∧ offset < 0x1000000 ∧ 256 ≤ offset % 4096 ∧ offset % 8 ≠ 0

instance (dst pp : Register) (offset : Nat) : Decidable (MisstatedLoad dst pp offset) :=
  inferInstanceAs (Decidable (_ ∧ _ ∧ _ ∧ _ ∧ _ ∧ _))

section

variable {dst pp base : Register} {position : BitVec 32}

private theorem honest_loadAt {displacement : Int} {offset : Nat}
    (h : ¬Address.Misaligned base displacement .offset .doubleWord) :
    Honest (loadAt dst base displacement offset) :=
  (Address.honest_ofOffset_iff.mpr h).bind fun _ => honest_load ..

private theorem honest_loadIndexed (index : Register) (offset : Nat) :
    Honest (loadIndexed dst base index offset) :=
  (Address.honest_ofIndexed ..).bind fun _ => honest_load ..

private theorem loadFromPool_misstates (h : MisstatedLoad dst pp position.toNat) (b : CodeBuffer) :
    Ends (emitAll (loadFromPool dst pp position)) b (fun _ _ => False)
      (fun e _ => e.isMemory = true ∨
        e = .error (.immediateOverflow (position.toNat % 4096 : Nat) (-256) 32760)) := by
  obtain ⟨hne, hdst, hpp, hlt, hfrom, hodd⟩ := h
  have htakes : Address.takesOffset position.toNat .offset .doubleWord = false := by
    rw [Bool.eq_false_iff, ne_eq, takesOffset_iff]
    omega
  have hlast : Address.Misaligned dst (position.toNat % 4096 : Nat) .offset .doubleWord := by
    refine ⟨rfl, hdst, by omega, ?_, ?_⟩
    · change _ ≤ (4095 * 8 : Int)
      omega
    · change _ % (8 : Int) ≠ 0
      omega
  obtain ⟨imm12, raised, hupper⟩ := ofImmediate?_upper hlt
  have hload : loadFromPool dst pp position =
      [addSub .add .x false dst pp (.immediate imm12 raised),
        loadAt dst dst (position.toNat % 4096 : Nat)] := by
    simp only [loadFromPool, if_neg hne, htakes, Bool.false_eq_true, if_false, hupper]
    rfl
  obtain ⟨word, hword⟩ := addSub_total imm12 raised hpp hdst b.size
  have hoffset : ∀ offset, loadAt dst dst (position.toNat % 4096 : Nat) offset =
      .error (.immediateOverflow (position.toNat % 4096 : Nat) (-256) 32760) := by
    intro offset
    rw [loadAt, Address.ofOffset_of_misaligned hlast]
    rfl
  rw [hload, emitAll, ends_bind, ends_get, ends_bind, hword]
  change Ends (emitWord word >>= _) b _ _
  rw [ends_bind]
  apply (emitWord_ends word b).mono
  · intro _ c _
    rw [emitAll, ends_bind, ends_get, ends_bind, hoffset]
    exact .inr rfl
  · exact fun _ _ hmemory => .inl hmemory.2

private theorem loadFromPool_never_misstates (h : ¬MisstatedLoad dst pp position.toNat) :
    Never Failure.misstates (emitAll (loadFromPool dst pp position)) := by
  simp only [loadFromPool]
  by_cases hne : dst = pp
  · rw [if_pos hne]
    exact emitAll_never_misstates (honest_one fun _ => honest_refuse ..)
  rw [if_neg hne]
  cases htakes : Address.takesOffset position.toNat .offset .doubleWord with
  | true =>
    rw [if_pos rfl]
    refine emitAll_never_misstates (honest_one fun _ => honest_loadAt ?_)
    intro hmisaligned
    obtain ⟨-, -, hfrom, -, hodd⟩ := hmisaligned
    change (position.toNat : Int) % 8 ≠ 0 at hodd
    rw [takesOffset_iff] at htakes
    omega
  | false =>
    rw [if_neg Bool.false_ne_true]
    by_cases hlt : position.toNat < 0x1000000
    · obtain ⟨imm12, raised, hupper⟩ := ofImmediate?_upper hlt
      have hlower : (position.toNat : Int) % 4096 = (position.toNat % 4096 : Nat) := by omega
      simp only [hupper]
      rw [hlower]
      by_cases hpp : pp = .zr
      · subst hpp
        intro b
        rw [emitAll, ends_bind, ends_get, ends_bind]
        rfl
      · refine emitAll_never_misstates ?_
        rw [List.forall_mem_cons, List.forall_mem_singleton]
        refine ⟨fun _ => honest_addSub .., fun _ => honest_loadAt fun hmisaligned => h ?_⟩
        obtain ⟨-, hdst, hfrom, -, hodd⟩ := hmisaligned
        change ((position.toNat % 4096 : Nat) : Int) % 8 ≠ 0 at hodd
        exact ⟨hne, hdst, hpp, hlt, by omega, by omega⟩
    · simp only [ofImmediate?_beyond (Nat.le_of_not_lt hlt)]
      refine emitAll_never_misstates ?_
      rw [List.forall_mem_cons, List.forall_mem_append, List.forall_mem_singleton]
      refine ⟨fun _ => honest_moveWide .., ?_, fun _ => honest_loadIndexed ..⟩
      split
      · exact honest_one fun _ => honest_moveWide ..
      · intro encoder hmem
        cases hmem

end

private theorem run_never_misstates {operation : Operation}
    (h : ∀ dst pp position, operation = .loadFromPool dst pp position →
      ¬MisstatedLoad dst pp position.toNat) :
    Never Failure.misstates operation.run := by
  cases operation with
  | align alignment =>
    have hnops : ∀ count, Sure (emitNops count) := by
      intro count
      induction count with
      | zero => exact never_pure _
      | succ count ih => exact (sure_emitWord _).bind fun _ => ih
    exact never_get.bind fun _ =>
      .ite (honest_refuse ..).never_misstates (hnops _).never_misstates
  | loadFromPool dst pp position => exact loadFromPool_never_misstates (h dst pp position rfl)
  | _ => exact emitAll_never_misstates (Operation.honest_encoders (by simp))

end A64

namespace X86

private theorem honest_precheck {operation : Operation}
    (h : ∀ length, operation = .nop length → length < offsetSpace) :
    Honest operation.precheck := by
  cases operation with
  | nop length =>
    have hlength := h length rfl
    refine .ite (fun _ => honest_ok _) fun hrange => honest_error ?_
    change _ ∨ _
    rw [offsetSpace] at hlength
    rw [BitVec.toInt_eq_toNat_cond, BitVec.toNat_ofNat, Nat.mod_eq_of_lt hlength]
    split <;> omega
  | shiftImm op dst count =>
    refine .ite (fun _ => honest_ok _) fun hrange => honest_error (.inr ?_)
    omega
  | _ => exact honest_ok _

private theorem honest_aluConstant (op : AluOp) (dst : Operand) (imm : Int64) (offset : Nat) :
    Honest (aluConstant op dst imm offset) :=
  .ite (fun _ => honest_ok _) fun _ =>
    .ite (fun _ => .ite (fun _ => honest_ok _) fun _ => honest_ok _) fun _ =>
      .ite (fun _ => honest_error trivial) fun _ => honest_ok _

private theorem honest_instructions (operation : Operation) (offset : Nat) :
    Honest (operation.instructions offset) := by
  cases operation with
  | pushImm imm =>
    exact .ite (fun _ => honest_ok _) fun _ => .ite (fun _ => honest_ok _) fun _ => honest_ok _
  | drop count => exact .ite (fun _ => honest_ok _) fun _ => honest_aluConstant ..
  | aluImm op dst imm => exact honest_aluConstant ..
  | _ => exact honest_ok _

private theorem run_never_misstates {operation : Operation}
    (h : ∀ length, operation = .nop length → length < offsetSpace) :
    Never Failure.misstates operation.run := by
  have hplain : Never Failure.misstates (do
      checked operation.precheck
      makeRoom
      let instructions ← checked (operation.instructions (← get).size)
      putInstruction (encodeAll instructions)) :=
    (honest_precheck h).never_misstates.bind fun _ => sure_makeRoom.never_misstates.bind fun _ =>
      never_get.bind fun _ => (honest_instructions ..).never_misstates.bind fun _ =>
        (sure_putInstruction _).never_misstates
  cases operation with
  | align alignment offset =>
    have hpad : ∀ count, Never Failure.misstates (pad count) := fun count =>
      (sure_pad count).never_misstates
    exact never_get.bind fun _ => .ite (.bind (never_throw rfl) fun _ =>
      .ite (.bind (never_throw rfl) fun _ => hpad _) (hpad _))
      (.ite (.bind (never_throw rfl) fun _ => hpad _) (hpad _))
  | bytes code => exact (sure_append code).never_misstates
  | _ => exact hplain

end X86

/-! ## Requests -/

private theorem Rejected.misstates {shape : Shape} {s : Linking} {e : Failure}
    (h : Rejected shape s e) :
    e.misstates = false := by
  cases h with
  | memory isMemory => exact Failure.misstates_of_sure (Failure.isObjection_of_isMemory isMemory)
  | _ => rfl

private theorem Unbindable.misstates {ledger : Ledger} {name : String} {s : Linking} {e : Failure}
    (h : Unbindable ledger name s e) : e.misstates = false := by
  cases h <;> rfl

private theorem honest_checkResolved (b : CodeBuffer) : Honest b.checkResolved :=
  .ite (fun _ => honest_ok _) fun _ => honest_error trivial

private theorem copyOver_never_misstates (destination : Array Byte) :
    Never Failure.misstates (copyOver destination) :=
  copyOver_never (fun _ => rfl) (fun _ _ => rfl) destination

section

variable {target : Target} {buffer : CodeBuffer} {labels : Labels} {cause : EmitError}

private theorem onBuffer_truthful {work : Emit Reply} (h : Never Failure.misstates work)
    (hserved : (onBuffer target buffer labels work).2.2 = .failed (.error cause)) :
    cause.Truthful := by
  rcases onBuffer_cases (h buffer) target labels with ⟨reply, c, -, hcase⟩ | ⟨e, c, he, hcase⟩
  · rw [hcase] at hserved
    cases hserved
  · rw [hcase] at hserved
    cases hserved
    exact Failure.misstates_error.mp he

private theorem onLabel_truthful {name : String} {work : Link Unit}
    (h : Ends work ⟨buffer, labels.get name⟩ (fun _ _ => True) (fun e _ => e.misstates = false))
    (hserved : (onLabel target buffer labels name work).2.2 = .failed (.error cause)) :
    cause.Truthful := by
  rcases onLabel_cases h target with ⟨u, t, -, hcase⟩ | ⟨e, t, he, hcase⟩
  · rw [hcase] at hserved
    cases hserved
  · rw [hcase] at hserved
    cases hserved
    exact Failure.misstates_error.mp he

end

/-- The length of a `nop` is one that an offset can have. -/
def Request.InSpace : Request → Prop
  | .x86 (.nop length) => length < offsetSpace
  | _ => True

/-- A load from the object pool that fails for its offset and says that it is out of range. -/
def Request.Misstates (request : Request) : Prop :=
  ∃ dst pp position, request = .a64 (.loadFromPool dst pp position) ∧
    A64.MisstatedLoad dst pp position.toNat

/-- Every request but a misstated load has truthful errors. -/
theorem Assembler.serve_truthful {a : Assembler} {labels : Labels} {ledger : Ledger}
    (h : Agrees labels a ledger)
    (hfresh : ∀ name, (labels.get name).owner = none →
      (labels.get name).place = .unbound Heads.none) (htarget : a.target ≠ .bare)
    {request : Request} (hspace : request.InSpace) (hpool : ¬request.Misstates)
    {cause : EmitError} (hserved : (a.serve labels request).2.2 = .failed (.error cause)) :
    cause.Truthful := by
  have hbind := fun name => serve_bind h hfresh htarget name
  obtain ⟨target, buffer⟩ := a
  have hasked : ∀ value : CodeBuffer → Except Violation Int,
      (askAsserted target buffer labels value).2.2 = .failed (.error cause) → cause.Truthful := by
    intro value hvalue
    simp only [askAsserted] at hvalue
    cases hresult : value buffer <;> rw [hresult] at hvalue <;> cases hvalue
  cases request with
  | size => cases hserved
  | isEmpty => cases hserved
  | capacity => cases hserved
  | unresolved => cases hserved
  | bytes => cases hserved
  | unused => cases hserved
  | farBranches => cases target <;> cases hserved
  | loadByte offset => exact hasked _ hserved
  | loadWord offset => exact hasked _ hserved
  | loadSigned offset => exact hasked _ hserved
  | copyOver destination =>
    exact onBuffer_truthful (copyOver_never_misstates destination).map hserved
  | handOver =>
    have hresolved := honest_checkResolved buffer
    simp only [serve, handOver] at hserved
    cases hcheck : buffer.checkResolved with
    | ok u =>
      rw [hcheck] at hserved
      cases hserved
    | error e =>
      rw [hcheck] at hserved
      cases hserved
      exact hresolved.truthful _ hcheck
  | bare write =>
    cases target with
    | bare => exact absurd rfl htarget
    | _ => cases hserved
  | x86 operation =>
    cases target with
    | x86 =>
      refine onBuffer_truthful (X86.run_never_misstates ?_).map hserved
      intro length heq
      subst heq
      exact hspace
    | _ => cases hserved
  | a64 operation =>
    cases target with
    | a64 far =>
      refine onBuffer_truthful (A64.run_never_misstates ?_).map hserved
      intro dst pp position heq hload
      exact hpool ⟨dst, pp, position, by rw [heq], hload⟩
    | _ => cases hserved
  | x86Branch name branch =>
    cases target with
    | x86 =>
      refine onLabel_truthful ((X86.branch_ends branch _).mono ?_ ?_) hserved
      · exact fun _ _ _ => trivial
      · exact fun _ _ he => he.2.misstates
    | _ => cases hserved
  | a64Branch name branch =>
    cases target with
    | a64 far =>
      refine onLabel_truthful ((A64.branch_ends far branch _).mono ?_ ?_) hserved
      · exact fun _ _ _ => trivial
      · intro e t he
        rcases he.2 with hrejected | ⟨cause, hcause, rfl⟩
        · exact hrejected.misstates
        · exact Failure.misstates_error.mpr ((A64.honest_branch branch _).truthful cause hcause)
    | _ => cases hserved
  | bind name =>
    rcases hbind name with ⟨t, -, hcase⟩ | ⟨e, t, -, he, hcase⟩
    · rw [hcase] at hserved
      cases hserved
    · rw [hcase] at hserved
      cases hserved
      exact Failure.misstates_error.mp he.misstates

/-- A misstated load fails for want of memory or with an error that is not truthful. -/
theorem Assembler.serve_misstates {a : Assembler} {labels : Labels} {request : Request}
    (h : request.Misstates) {cause : EmitError}
    (hserved : (a.serve labels request).2.2 = .failed (.error cause))
    (hmemory : cause.isMemory = false) : ¬cause.Truthful := by
  obtain ⟨dst, pp, position, rfl, hload⟩ := h
  obtain ⟨target, buffer⟩ := a
  cases target with
  | a64 far =>
    have hends : Ends ((fun _ => Reply.done) <$> A64.emitAll (A64.loadFromPool dst pp position))
        buffer (fun _ _ => False) _ := ends_map.mpr (A64.loadFromPool_misstates hload buffer)
    rcases onBuffer_cases hends (.a64 far) labels with ⟨_, _, hfalse, -⟩ | ⟨e, c, he, hcase⟩
    · exact hfalse.elim
    · have hsame := hserved.symm.trans (congrArg (·.2.2) hcase)
      cases hsame
      rcases he with hfull | hoffset
      · exact absurd (hmemory.symm.trans hfull) Bool.false_ne_true
      · cases hoffset
        change ¬(_ ∨ _)
        omega
  | _ => cases hserved

open Session

/-- The errors of operands, addresses and displacement fields are truthful, and so are the errors of
all requests to an assembler in every state that a session can reach. The exceptions are an offset
that is within the bounds of a load or store and not a multiple of the access size, and a load from
the object pool that is left with such an offset. -/
theorem Session.range_errors_truthful_iff (events : List Event) (i : Nat) (request : Request) :
    (∀ rm shift amount, Honest (A64.Operand.ofShifted rm shift amount)) ∧
    (∀ rm extend amount, Honest (A64.Operand.ofExtended rm extend amount)) ∧
    (∀ rn offset mode size, Honest (A64.Address.ofOffset rn offset mode size) ↔
      ¬A64.Address.Misaligned rn offset mode size) ∧
    (∀ rn rm extend scaled, Honest (A64.Address.ofIndexed rn rm extend scaled)) ∧
    (∀ offset, Honest (A64.Address.ofLiteral offset)) ∧
    (∀ (f : DispField) displacement word, Honest (f.encode displacement word)) ∧
    ∀ a cause, (empty.run events).assembler? i = some a → a.target ≠ .bare → request.InSpace →
      answer events i request = .failed (.error cause) →
      (cause.Truthful ↔ (request.Misstates → cause.isMemory = true)) := by
  refine ⟨A64.Operand.honest_ofShifted, A64.Operand.honest_ofExtended,
    fun _ _ _ _ => A64.Address.honest_ofOffset_iff, A64.Address.honest_ofIndexed,
    A64.Address.honest_ofLiteral, DispField.honest_encode, ?_⟩
  intro a cause ha htarget hspace hfailed
  have hconsistent := consistent_run events
  obtain ⟨-, hagrees⟩ := hconsistent.agrees i a ha
  have hserved : (a.serve (empty.run events).labels request).2.2 = .failed (.error cause) := by
    rw [← hfailed, answer, step_eq ha]
  constructor
  · intro htruthful hmisstates
    cases hmemory : cause.isMemory with
    | true => rfl
    | false =>
      exact absurd htruthful (Assembler.serve_misstates hmisstates hserved hmemory)
  · intro hmisstates
    by_cases hmemory : cause.isMemory = true
    · exact cause.truthful_of_isMemory hmemory
    · exact Assembler.serve_truthful hagrees hconsistent.fresh htarget hspace
        (mt hmisstates hmemory) hserved

private def looseRun : List Event :=
  [.add 4096 .a64 { Options.standard with initialCapacity := 64 }]

/-- A branch to a place between instructions is misaligned, as its error says. A load from the pool
whose offset is 4353 is left with 257, which is within the bounds that its error names. -/
theorem Session.looseRun_misstates_offset :
    answer looseRun 0 (.a64 (.branchOffset false 6)) =
        .failed (.error (.misalignedOffset 6 4)) ∧
      (EmitError.misalignedOffset 6 4).Truthful ∧
      answer looseRun 0 (.a64 (.loadFromPool .tmp .pp 4353#32)) =
        .failed (.error (.immediateOverflow 257 (-256) 32760)) ∧
      ¬(EmitError.immediateOverflow 257 (-256) 32760).Truthful := by
  obtain ⟨a, ha, htarget⟩ := Option.map_eq_some_iff.mp
    (show ((empty.run looseRun).assembler? 0).map (·.target) = some (.a64 false) by
      decide +kernel)
  have hbare : a.target ≠ .bare := by simp [htarget]
  have hbranch : answer looseRun 0 (.a64 (.branchOffset false 6)) =
      .failed (.error (.misalignedOffset 6 4)) :=
    Outcome.eq_of_error? (by decide +kernel)
  have hload : answer looseRun 0 (.a64 (.loadFromPool .tmp .pp 4353#32)) =
      .failed (.error (.immediateOverflow 257 (-256) 32760)) :=
    Outcome.eq_of_error? (by decide +kernel)
  obtain ⟨-, -, -, -, -, -, hmisaligned⟩ :=
    Session.range_errors_truthful_iff looseRun 0 (.a64 (.branchOffset false 6))
  obtain ⟨-, -, -, -, -, -, hoverflow⟩ :=
    Session.range_errors_truthful_iff looseRun 0 (.a64 (.loadFromPool .tmp .pp 4353#32))
  refine ⟨hbranch, (hmisaligned a _ ha hbare trivial hbranch).mpr ?_, hload, fun h => ?_⟩
  · intro hmisstates
    obtain ⟨dst, pp, position, heq, -⟩ := hmisstates
    cases heq
  · have hmemory := (hoverflow a _ ha hbare trivial hload).mp h ⟨_, _, _, rfl, by decide⟩
    cases hmemory

/-- An offset that an error calls out of range is between the bounds that the error names. -/
theorem A64.Address.misaligned_offset_overflows :
    A64.Address.ofOffset .lr 257 .offset .doubleWord =
        .error (.immediateOverflow 257 (-256) 32760) ∧
      ¬(EmitError.immediateOverflow 257 (-256) 32760).Truthful := by
  exact ⟨rfl, by decide⟩

end MachineCode
