import MachineCode.Proofs.A64Select

/-!
# Executing shifts by a constant

There is no instruction that shifts by a constant: `lsl`, `lsr` and `asr` are bitfield moves. Such a
move rotates its source to the right, takes some of the bits and fills up with zeros or with copies
of a sign. What is taken and what is filled is said by two masks, and with the numbers that the
shifts put into the word these leave the source shifted, for every amount below the width.
-/

namespace MachineCode.A64

/-! ## Meaning -/

section

variable {w : Nat}

def lowestBits (w count : Nat) : BitVec w :=
  (BitVec.allOnes count).setWidth w

/-- The bits of the rotated source that a bitfield move takes. -/
def takenMask (w immR immS : Nat) : BitVec w :=
  (lowestBits w (immS + 1)).rotateRight immR

/-- The bits of the result up to the last one of the field; the others are filled. -/
def fieldMask (w immR immS : Nat) : BitVec w :=
  lowestBits w ((immS + w - immR) % w + 1)

/-- The result of a bitfield move. If it is signed, it is filled with the last bit of the field. -/
def bitfieldResult (signed : Bool) (source : BitVec w) (immR immS : Nat) : BitVec w :=
  let bottom := source.rotateRight immR &&& takenMask w immR immS
  let top := BitVec.fill w (signed && source.getLsbD immS)
  (top &&& ~~~fieldMask w immR immS) ||| (bottom &&& fieldMask w immR immS)

end

namespace Core

/-- Executes a bitfield move, or an instruction that `choose?` knows. -/
def moveBits? (m : Core) : DataInsn → Option Core
  | .bitfieldMove signed width rd rn immR immS =>
    let source := (m.read rn).setWidth width.bits
    some ((m.write rd ((bitfieldResult signed source immR immS).setWidth 64)).goTo (m.pc + 4))
  | insn => m.choose? insn

def stepMoving (code : Array Byte) (m : Core) : Option Core := do
  let w ← fetch code m.pc
  let insn ← decodeData w
  m.moveBits? insn

end Core

/-- The operation shifts the bits of one register into another. An amount of 64 or more is refused,
whatever the registers are. With a smaller one, and unless memory runs out, the operation is refused
exactly if one of the registers is the stack pointer. Otherwise it appends one word, and executing
that leaves the shifted value in the destination and changes nothing else. -/
def Shifts (operation : Operation) (rd rn : Register) (amount : Nat)
    (shifted : BitVec 64 → BitVec 64) (b : CodeBuffer) : Prop :=
  (64 ≤ amount →
    operation.run b = .error (.error (.immediateOverflow amount 0 63)) b) ∧
  (amount < 64 → Ends operation.run b
    (fun _ c => .sp ∉ [rd, rn] ∧ ∃ w : Word, c.bytes = b.bytes ++ (littleEndian 4 w).toArray ∧
      ∀ m : Core, m.pc = b.size →
        m.stepMoving c.bytes = some ((m.write rd (shifted (m.read rn))).goTo c.size))
    (fun e c => c.bytes = b.bytes ∧ (e.isMemory = true ∨ .sp ∈ [rd, rn])))

/-! ## Shifts as bitfield moves -/

section

variable {w : Nat}

private theorem getLsbD_lowestBits (count i : Nat) :
    (lowestBits w count).getLsbD i = decide (i < w ∧ i < count) := by
  simp [lowestBits, BitVec.getLsbD_setWidth]

private theorem getLsbD_rotated {amount : Nat} (h : amount < w) (source : BitVec w) {i : Nat}
    (hi : i < w) :
    (source.rotateRight amount).getLsbD i = source.getLsbD ((amount + i) % w) := by
  rw [BitVec.getLsbD_rotateRight, Nat.mod_eq_of_lt h]
  by_cases hlow : i < w - amount
  · rw [decide_eq_true hlow, cond_true, Nat.mod_eq_of_lt (by omega)]
  · have hwrap : (amount + i) % w = i - (w - amount) := by
      rw [show amount + i = i - (w - amount) + w by omega, Nat.add_mod_right,
        Nat.mod_eq_of_lt (by omega)]
    rw [decide_eq_false hlow, cond_false, hwrap, decide_eq_true hi, Bool.true_and]

private theorem getLsbD_takenMask {immR : Nat} (hr : immR < w) (immS : Nat) {i : Nat} (hi : i < w) :
    (takenMask w immR immS).getLsbD i = decide ((immR + i) % w ≤ immS) := by
  have hindex : (immR + i) % w < w := Nat.mod_lt _ (by omega)
  rw [takenMask, getLsbD_rotated hr _ hi, getLsbD_lowestBits]
  exact decide_eq_decide.mpr (by omega)

private theorem getLsbD_bitfieldResult (signed : Bool) (source : BitVec w) {immR : Nat}
    (hr : immR < w) (immS : Nat) {i : Nat} (hi : i < w) :
    (bitfieldResult signed source immR immS).getLsbD i =
      if i ≤ (immS + w - immR) % w then
        source.getLsbD ((immR + i) % w) && decide ((immR + i) % w ≤ immS)
      else signed && source.getLsbD immS := by
  have hfield : (fieldMask w immR immS).getLsbD i = decide (i ≤ (immS + w - immR) % w) := by
    rw [fieldMask, getLsbD_lowestBits]
    exact decide_eq_decide.mpr (by omega)
  simp only [bitfieldResult, BitVec.getLsbD_or, BitVec.getLsbD_and, BitVec.getLsbD_not, hfield,
    getLsbD_takenMask hr immS hi, getLsbD_rotated hr source hi, BitVec.getLsbD_fill, hi]
  by_cases hinside : i ≤ (immS + w - immR) % w
  · simp [hinside]
  · simp [hinside]

private theorem bitfieldResult_last (signed : Bool) (source : BitVec w) {amount : Nat}
    (h : amount < w) {i : Nat} (hi : i < w) :
    (bitfieldResult signed source amount (w - 1)).getLsbD i =
      if amount + i < w then source.getLsbD (amount + i) else signed && source.msb := by
  have hend : (w - 1 + w - amount) % w = w - 1 - amount := by
    rw [show w - 1 + w - amount = w - 1 - amount + w by omega, Nat.add_mod_right,
      Nat.mod_eq_of_lt (by omega)]
  rw [getLsbD_bitfieldResult signed source h _ hi, hend, BitVec.msb_eq_getLsbD_last]
  by_cases hinside : amount + i < w
  · rw [if_pos (by omega), if_pos hinside, Nat.mod_eq_of_lt hinside,
      decide_eq_true (by omega), Bool.and_true]
  · rw [if_neg (by omega), if_neg hinside]

private theorem bitfieldResult_lsr (source : BitVec w) {amount : Nat} (h : amount < w) :
    bitfieldResult false source amount (w - 1) = source >>> amount := by
  apply BitVec.eq_of_getLsbD_eq
  intro i hi
  rw [bitfieldResult_last false source h hi, BitVec.getLsbD_ushiftRight]
  split
  · rfl
  · rw [BitVec.getLsbD_of_ge _ _ (by omega), Bool.false_and]

private theorem bitfieldResult_asr (source : BitVec w) {amount : Nat} (h : amount < w) :
    bitfieldResult true source amount (w - 1) = source.sshiftRight amount := by
  apply BitVec.eq_of_getLsbD_eq
  intro i hi
  rw [bitfieldResult_last true source h hi, BitVec.getLsbD_sshiftRight]
  simp [Nat.not_le.mpr hi]

private theorem bitfieldResult_lsl (source : BitVec w) {amount : Nat} (h : amount < w) :
    bitfieldResult false source ((w - amount) % w) (w - 1 - amount) = source <<< amount := by
  have hr : (w - amount) % w < w := Nat.mod_lt _ (by omega)
  have hend : (w - 1 - amount + w - (w - amount) % w) % w = w - 1 := by
    by_cases hzero : amount = 0
    · subst hzero
      rw [Nat.sub_zero w, Nat.mod_self, Nat.sub_zero, Nat.sub_zero, Nat.add_mod_right,
        Nat.mod_eq_of_lt (by omega)]
    · rw [Nat.mod_eq_of_lt (show w - amount < w by omega),
        show w - 1 - amount + w - (w - amount) = w - 1 by omega, Nat.mod_eq_of_lt (by omega)]
  apply BitVec.eq_of_getLsbD_eq
  intro i hi
  have hindex : ((w - amount) % w + i) % w = if i < amount then w - amount + i else i - amount := by
    rw [Nat.mod_add_mod]
    split
    · exact Nat.mod_eq_of_lt (by omega)
    · rw [show w - amount + i = i - amount + w by omega, Nat.add_mod_right,
        Nat.mod_eq_of_lt (by omega)]
  rw [getLsbD_bitfieldResult false source hr _ hi, hend, if_pos (by omega), hindex,
    BitVec.getLsbD_shiftLeft]
  by_cases hlow : i < amount
  · rw [if_pos hlow, decide_eq_false (show ¬w - amount + i ≤ w - 1 - amount by omega)]
    simp [hlow]
  · rw [if_neg hlow, decide_eq_true (show i - amount ≤ w - 1 - amount by omega)]
    simp [hlow, hi]

end

/-! ## The word of a shift -/

private theorem emitOne_ends (encoder : Encoder) (b : CodeBuffer) :
    Ends (emitAll [encoder]) b
      (fun _ c => ∃ w, encoder b.size = .ok w ∧
        CodeBuffer.Appends (littleEndian 4 w).toArray b c)
      (fun e c => CodeBuffer.Appends #[] b c ∧
        (e.isMemory = true ∨ ∃ cause, encoder b.size = .error cause)) := by
  rw [emitAll, ends_bind, ends_get, ends_bind, ends_checked]
  refine ⟨fun w hw => ?_, fun cause hcause => ⟨.refl b, .inr ⟨cause, hcause⟩⟩⟩
  rw [ends_bind]
  apply (emitWord_ends w b).mono
  · intro _ c happ
    exact ⟨w, hw, happ⟩
  · intro e c h
    exact ⟨h.1, .inl h.2⟩

private theorem emitAll_eq_error {encoder : Encoder} {b : CodeBuffer} {cause : EmitError}
    (h : encoder b.size = .error cause) (rest : List Encoder) :
    emitAll (encoder :: rest) b = .error (.error cause) b := by
  have hchecked : emitAll (encoder :: rest) b = (checked (encoder b.size) >>= fun word =>
      emitWord word >>= fun _ => emitAll rest) b := rfl
  rw [hchecked, h]
  rfl

section

variable {signed : Bool} {rd rn : Register} {immR immS amount : Nat}

private theorem unsignedField_six (h : 64 ≤ amount) :
    unsignedField 6 amount = .error (.immediateOverflow amount 0 63) :=
  if_neg (Nat.not_lt.mpr h)

private theorem bitfieldMove_ok_iff {offset : Nat} :
    (∃ w, bitfieldMove signed rd rn immR immS offset = .ok w) ↔
      immR < 64 ∧ immS < 64 ∧ .sp ∉ [rd, rn] := by
  have hregisters : .sp ∉ [rd, rn] ↔ rd ≠ .sp ∧ rn ≠ .sp := by
    simp [eq_comm]
  have hfield : ∀ imm : Nat, imm < 1 <<< 6 ↔ imm < 64 := fun _ => Iff.rfl
  simp only [hregisters, ← Register.exists_slot_zero_iff, bitfieldMove, except_bind_eq_ok,
    registerField_ok_iff, unsignedField_ok_iff, hfield]
  constructor
  · rintro ⟨_, _, ⟨hr, -⟩, _, ⟨hs, -⟩, _, ⟨n, hn, -⟩, _, ⟨d, hd, -⟩, -⟩
    exact ⟨hr, hs, ⟨d, hd⟩, ⟨n, hn⟩⟩
  · rintro ⟨hr, hs, ⟨d, hd⟩, ⟨n, hn⟩⟩
    exact ⟨_, _, ⟨hr, rfl⟩, _, ⟨hs, rfl⟩, _, ⟨n, hn, rfl⟩, _, ⟨d, hd, rfl⟩, rfl⟩

private theorem Core.moveBits?_bitfieldMove (m : Core) :
    m.moveBits? (.bitfieldMove signed .x rd rn immR immS) =
      some ((m.write rd (bitfieldResult signed (m.read rn) immR immS)).goTo (m.pc + 4)) := by
  simp only [moveBits?, Width.bits, BitVec.setWidth_eq]

private theorem shifts_of_bitfieldMove (encoder : Encoder) (signed : Bool) (immR immS : Nat)
    {operation : Operation} {shifted : BitVec 64 → BitVec 64}
    (hrun : operation.run = emitAll [encoder])
    (hover : 64 ≤ amount → ∀ offset,
      encoder offset = .error (.immediateOverflow amount 0 63))
    (hencoder : amount < 64 → encoder = bitfieldMove signed rd rn immR immS)
    (hr : amount < 64 → immR < 64) (hs : amount < 64 → immS < 64)
    (hresult : amount < 64 → ∀ source : BitVec 64,
      bitfieldResult signed source immR immS = shifted source) (b : CodeBuffer) :
    Shifts operation rd rn amount shifted b := by
  constructor
  · intro hlarge
    rw [hrun]
    exact emitAll_eq_error (hover hlarge b.size) []
  · intro hsmall
    rw [hrun, hencoder hsmall]
    apply (emitOne_ends _ b).mono
    · intro _ c h
      obtain ⟨w, hw, happ⟩ := h
      have hsize : c.size = b.size + 4 := by simpa using happ.size
      have hfetch : fetch c.bytes b.size = some w := fetch_of_holds happ.holds
      refine ⟨(bitfieldMove_ok_iff.mp ⟨w, hw⟩).2.2, w, happ.bytes, fun m hpc => ?_⟩
      simp only [Core.stepMoving, hpc, hfetch, decode_bitfieldMove hw, Option.bind_eq_bind,
        Option.bind_some, Core.moveBits?_bitfieldMove, hresult hsmall, hsize]
      rfl
    · intro e c h
      obtain ⟨happ, hreason⟩ := h
      refine ⟨by simpa using happ.bytes, hreason.imp_right fun hrefused => ?_⟩
      obtain ⟨cause, hcause⟩ := hrefused
      refine Decidable.byContradiction fun hregisters => ?_
      obtain ⟨w, hw⟩ : ∃ w, bitfieldMove signed rd rn immR immS b.size = .ok w :=
        bitfieldMove_ok_iff.mpr ⟨hr hsmall, hs hsmall, hregisters⟩
      cases hw.symm.trans hcause

end

/-- `lsl`, `lsr` and `asr` by a constant shift to the left, to the right and to the right with
copies of the sign, by every amount below 64, and refuse every other amount. -/
theorem shifts_leave_shifted (rd rn : Register) (amount : Nat) (b : CodeBuffer) :
    Shifts (.shiftLeft rd rn amount) rd rn amount (fun value => value <<< amount) b ∧
    Shifts (.lsr rd rn amount) rd rn amount (fun value => value >>> amount) b ∧
    Shifts (.asr rd rn amount) rd rn amount (fun value => value.sshiftRight amount) b := by
  have hover : ∀ signed, 64 ≤ amount → ∀ offset, bitfieldMove signed rd rn amount 63 offset =
      .error (.immediateOverflow amount 0 63) := by
    intro signed hlarge offset
    rw [bitfieldMove, unsignedField_six hlarge]
    rfl
  refine ⟨?_, ?_, ?_⟩
  · apply shifts_of_bitfieldMove (shiftLeft rd rn amount) false ((64 - amount) % 64) (63 - amount)
      rfl
    · intro hlarge offset
      rw [shiftLeft, unsignedField_six hlarge]
      rfl
    · intro hsmall
      funext offset
      rw [shiftLeft, unsignedField_ok_iff.mpr ⟨hsmall, rfl⟩]
      rfl
    · exact fun _ => Nat.mod_lt _ (by decide)
    · exact fun _ => by omega
    · exact fun hsmall source => bitfieldResult_lsl source hsmall
  · apply shifts_of_bitfieldMove (bitfieldMove false rd rn amount 63) false amount 63 rfl
      (hover false) (fun _ => rfl) id (fun _ => by decide)
    exact fun hsmall source => bitfieldResult_lsr source hsmall
  · apply shifts_of_bitfieldMove (bitfieldMove true rd rn amount 63) true amount 63 rfl
      (hover true) (fun _ => rfl) id (fun _ => by decide)
    exact fun hsmall source => bitfieldResult_asr source hsmall

/-- A negative value keeps its sign, and a shift by the whole width is refused. -/
theorem asr_keeps_sign :
    ∃ (b c : CodeBuffer) (m m' : Core), (Operation.asr .lr .fp 60).run b = .ok () c ∧
      m.pc = b.size ∧ m.read .fp = 0x9000000000000000#64 ∧ m.stepMoving c.bytes = some m' ∧
      m'.read .lr = 0xFFFFFFFFFFFFFFF9#64 ∧
      (Operation.asr .lr .fp 64).run c = .error (.error (.immediateOverflow 64 0 63)) c := by
  obtain ⟨b, c, hrun⟩ : ∃ b c, (Operation.asr .lr .fp 60).run b = .ok () c :=
    Operation.exists_run (by decide +kernel)
  have hends := (shifts_leave_shifted .lr .fp 60 b).2.2.2 (by decide)
  rw [Ends, hrun] at hends
  obtain ⟨-, w, -, hstep⟩ := hends
  have hrefused := (shifts_leave_shifted .lr .fp 64 c).2.2.1 (by decide)
  let m : Core :=
    ⟨⟨b.size, false, false, false, false, fun _ => 0x9000000000000000#64, 0#64⟩, 0#64⟩
  exact ⟨b, c, m, _, hrun, rfl, rfl, hstep m rfl, rfl, hrefused⟩

end MachineCode.A64
