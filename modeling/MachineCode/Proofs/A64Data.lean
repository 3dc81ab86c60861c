import MachineCode.Proofs.A64Linking
import MachineCode.Proofs.Bitmask

/-!
# A64 data-processing words

The fields of a data-processing instruction, read from its word by their positions alone. Each word
that an assembler emits for such an instruction reads back as what was asked for.
-/

namespace MachineCode.A64

/-! ## Slices of a word -/

section

variable {n lo k lsb : Nat}

@[simp] theorem slice_field (v : BitVec n) (h : lsb + n ≤ 32) :
    (field lsb v).extractLsb' lsb n = v := by
  apply BitVec.eq_of_getLsbD_eq
  intro i hi
  rw [BitVec.getLsbD_extractLsb', getLsbD_field, decide_eq_true hi,
    decide_eq_true (show lsb + i < 32 by omega), decide_eq_true (Nat.le_add_right lsb i),
    Nat.add_sub_cancel_left]
  rfl

private theorem getLsbD_field_apart {i : Nat} (v : BitVec n) (h : i < lsb ∨ lsb + n ≤ i) :
    (field lsb v).getLsbD i = false := by
  rw [getLsbD_field]
  by_cases hle : lsb ≤ i
  · rw [BitVec.getLsbD_of_ge v _ (by omega), Bool.and_false]
  · simp [hle]

private theorem getLsbD_flag_apart {position i : Nat} (on : Bool) (h : i ≠ position) :
    (flag position on).getLsbD i = false := by
  rw [getLsbD_flag, decide_eq_false h, Bool.and_false]

@[simp] theorem slice_field_apart (v : BitVec n) (h : lo + k ≤ lsb ∨ lsb + n ≤ lo) :
    (field lsb v).extractLsb' lo k = 0#k := by
  apply BitVec.eq_of_getLsbD_eq
  intro i hi
  rw [BitVec.getLsbD_extractLsb', getLsbD_field_apart v (by omega), BitVec.getLsbD_zero,
    Bool.and_false]

@[simp] theorem slice_flag_apart {position : Nat} (on : Bool)
    (h : position < lo ∨ lo + k ≤ position) :
    (flag position on).extractLsb' lo k = 0#k := by
  apply BitVec.eq_of_getLsbD_eq
  intro i hi
  rw [BitVec.getLsbD_extractLsb', getLsbD_flag_apart on (by omega), BitVec.getLsbD_zero,
    Bool.and_false]

@[simp] theorem getElem_field_apart {i : Nat} (v : BitVec n) (hi : i < 32)
    (h : i < lsb ∨ lsb + n ≤ i) : (field lsb v)[i] = false :=
  getLsbD_field_apart v h

@[simp] theorem getElem_flag_apart {position i : Nat} (on : Bool) (hi : i < 32)
    (h : i ≠ position) : (flag position on)[i] = false :=
  getLsbD_flag_apart on h

@[simp] theorem getElem_flag {position : Nat} (on : Bool) (h : position < 32) :
    (flag position on)[position] = on := by
  cases on <;> simp [flag]

theorem field_setWidth {m : Nat} (v : BitVec n) (h : v.toNat < 1 <<< m) :
    field lsb v = field lsb (v.setWidth m) := by
  rw [Nat.one_shiftLeft] at h
  apply BitVec.eq_of_getLsbD_eq
  intro i hi
  rw [getLsbD_field, getLsbD_field, BitVec.getLsbD_setWidth]
  by_cases hm : i - lsb < m
  · rw [decide_eq_true hm, Bool.true_and]
  · have hhigh : v.getLsbD (i - lsb) = false :=
      Nat.testBit_lt_two_pow (Nat.lt_of_lt_of_le h (Nat.pow_le_pow_right (by decide) (by omega)))
    rw [hhigh, Bool.and_false, Bool.and_false, Bool.and_false]

end

/-! ## Instructions -/

inductive Source where
  /-- Twelve bits, moved up by twelve places if `raised`. -/
  | immediate (imm12 : Nat) (raised : Bool)
  | shifted (rm : Register) (shift : Shift) (amount : Nat)
  | extended (rm : Register) (extend : Extend) (amount : Nat)
  deriving DecidableEq, Repr

inductive DataInsn where
  | addSub (op : AddSub) (width : Width) (setFlags : Bool) (rd rn : Register) (source : Source)
  | logicalImmediate (op : LogicalOp) (width : Width) (rd rn : Register) (value : BitVec 64)
  | logicalRegister (op : LogicalOp) (negate : Bool) (width : Width) (rd rn rm : Register)
    (shift : Shift) (amount : Nat)
  | moveWide (move : MoveWide) (width : Width) (rd : Register) (imm : BitVec 16) (position : Nat)
  | bitfieldMove (signed : Bool) (width : Width) (rd rn : Register) (immR immS : Nat)
  | conditionalSelect (select : Select) (width : Width) (rd rn rm : Register)
    (condition : Condition)
  | multiplyAdd (subtract : Bool) (width : Width) (rd rn rm ra : Register)
  | divide (signed : Bool) (width : Width) (rd rn rm : Register)
  | adr (rd : Register) (displacement : Int)
  deriving DecidableEq, Repr

/-! ## Reading fields -/

/-- The register with a number, where 31 has the given meaning. -/
def Register.ofSlot (slot31 : Slot31) (number : BitVec 5) : Register :=
  if h : number.toNat < 31 then .x ⟨number.toNat, h⟩
  else match slot31 with
    | .zero => .zr
    | .stackPointer => .sp

def registerAt (w : Word) (lsb : Nat) (slot31 : Slot31) : Register :=
  .ofSlot slot31 (w.extractLsb' lsb 5)

def Width.ofBit (wide : Bool) : Width :=
  if wide then .x else .w

def AddSub.ofBit (subtract : Bool) : AddSub :=
  if subtract then .sub else .add

def Shift.ofCode (code : BitVec 2) : Shift :=
  match code.toNat with
  | 0 => .lsl
  | 1 => .lsr
  | 2 => .asr
  | _ => .ror

def Extend.ofCode (code : BitVec 3) : Extend :=
  match code.toNat with
  | 0 => .uxtb
  | 1 => .uxth
  | 2 => .uxtw
  | 3 => .uxtx
  | 4 => .sxtb
  | 5 => .sxth
  | 6 => .sxtw
  | _ => .sxtx

def LogicalOp.ofCode (code : BitVec 2) : LogicalOp :=
  match code.toNat with
  | 0 => .and
  | 1 => .orr
  | 2 => .eor
  | _ => .ands

def MoveWide.ofCode? (code : BitVec 2) : Option MoveWide :=
  match code.toNat with
  | 0 => some .invert
  | 2 => some .zero
  | 3 => some .keep
  | _ => none

/-- The value that the fields of a bitmask immediate stand for, unless they are reserved. A rotation
counts modulo the element size. -/
def maskValue? (width : Width) (n : BitVec 1) (immR immS : BitVec 6) : Option (BitVec 64) := do
  let imm : BitmaskImm := ⟨n.setWidth 32, immR.setWidth 32, immS.setWidth 32⟩
  let size ← imm.markedSize?
  if size ≤ width.bits ∧ imm.markedRun size < size then
    some (pattern width.bits size (imm.markedRun size) (immR.toNat % size))
  else
    none

/-! ## Reading words

The layout of each class from the highest bit down; `sf` is the width bit, and a small letter stands
for one bit.

    readAddSubImmediate    sf op S 10001 0 h imm12 Rn Rd
    readAddSubShifted      sf op S 01011 shift 0 Rm imm6 Rn Rd
    readAddSubExtended     sf op S 01011 00 1 Rm option imm3 Rn Rd
    readLogicalImmediate   sf opc 10010 0 N immr imms Rn Rd
    readLogicalRegister    sf opc 01010 shift N Rm imm6 Rn Rd
    readMoveWide           sf opc 10010 1 hw imm16 Rd
    readBitfieldMove       sf opc 10011 0 N immr imms Rn Rd
    readConditionalSelect  sf op 0 11010100 Rm cond 0 o Rn Rd
    readDivide             sf 0 0 11010110 Rm 00001 o Rn Rd
    readMultiplyAdd        sf 00 11011 000 Rm o Ra Rn Rd
    readAdr                0 immlo 10000 immhi Rd
-/

/-- An addition or subtraction. Bit 29 makes it set the flags; number 31 as the destination is then
the zero register in every form. -/
def readAddSub (w : Word) (sourceSlot targetSlot : Slot31) (source : Source) : DataInsn :=
  .addSub (.ofBit (w[30])) (.ofBit (w[31])) (w[29])
    (registerAt w 0 targetSlot) (registerAt w 5 sourceSlot) source

def readAddSubImmediate (w : Word) : Option DataInsn :=
  some (readAddSub w .stackPointer (if w[29] then .zero else .stackPointer)
    (.immediate (w.extractLsb' 10 12).toNat (w[22])))

def readAddSubShifted (w : Word) : Option DataInsn :=
  let shift := Shift.ofCode (w.extractLsb' 22 2)
  let amount := (w.extractLsb' 10 6).toNat
  if shift ≠ .ror ∧ amount < (Width.ofBit (w[31])).bits then
    some (readAddSub w .zero .zero (.shifted (registerAt w 16 .zero) shift amount))
  else
    none

def readAddSubExtended (w : Word) : Option DataInsn :=
  let amount := (w.extractLsb' 10 3).toNat
  if w.extractLsb' 22 2 = 0b00#2 ∧ amount ≤ 4 then
    some (readAddSub w .stackPointer (if w[29] then .zero else .stackPointer)
      (.extended (registerAt w 16 .zero) (.ofCode (w.extractLsb' 13 3)) amount))
  else
    none

def readLogicalImmediate (w : Word) : Option DataInsn := do
  let op := LogicalOp.ofCode (w.extractLsb' 29 2)
  let width := Width.ofBit (w[31])
  let value ← maskValue? width (w.extractLsb' 22 1) (w.extractLsb' 16 6) (w.extractLsb' 10 6)
  return .logicalImmediate op width
    (registerAt w 0 (if op = .ands then .zero else .stackPointer)) (registerAt w 5 .zero) value

def readLogicalRegister (w : Word) : Option DataInsn :=
  let width := Width.ofBit (w[31])
  let amount := (w.extractLsb' 10 6).toNat
  if amount < width.bits then
    some (.logicalRegister (.ofCode (w.extractLsb' 29 2)) (w[21]) width
      (registerAt w 0 .zero) (registerAt w 5 .zero) (registerAt w 16 .zero)
      (.ofCode (w.extractLsb' 22 2)) amount)
  else
    none

def readMoveWide (w : Word) : Option DataInsn := do
  let move ← MoveWide.ofCode? (w.extractLsb' 29 2)
  let width := Width.ofBit (w[31])
  let position := (w.extractLsb' 21 2).toNat
  if 16 * position < width.bits then
    some (.moveWide move width (registerAt w 0 .zero) (w.extractLsb' 5 16) position)
  else
    none

def readBitfieldMove (w : Word) : Option DataInsn :=
  let width := Width.ofBit (w[31])
  let immR := (w.extractLsb' 16 6).toNat
  let immS := (w.extractLsb' 10 6).toNat
  if w[22] = w[31] ∧ w[29] = false ∧ immR < width.bits ∧
      immS < width.bits then
    some (.bitfieldMove (!w[30]) width (registerAt w 0 .zero) (registerAt w 5 .zero) immR
      immS)
  else
    none

def readConditionalSelect (w : Word) : Option DataInsn :=
  if w[11] = false then
    let select :=
      match w[30], w[10] with
      | false, false => Select.plain
      | false, true => .increment
      | true, false => .invert
      | true, true => .negate
    some (.conditionalSelect select (.ofBit (w[31])) (registerAt w 0 .zero)
      (registerAt w 5 .zero) (registerAt w 16 .zero) (.ofCode (w.extractLsb' 12 4)))
  else
    none

def readDivide (w : Word) : Option DataInsn :=
  if w[30] = false ∧ w.extractLsb' 11 5 = 0b00001#5 then
    some (.divide (w[10]) (.ofBit (w[31])) (registerAt w 0 .zero)
      (registerAt w 5 .zero) (registerAt w 16 .zero))
  else
    none

def readMultiplyAdd (w : Word) : Option DataInsn :=
  if w.extractLsb' 29 2 = 0b00#2 ∧ w.extractLsb' 21 3 = 0b000#3 then
    some (.multiplyAdd (w[15]) (.ofBit (w[31])) (registerAt w 0 .zero)
      (registerAt w 5 .zero) (registerAt w 16 .zero) (registerAt w 10 .zero))
  else
    none

def readAdr (w : Word) : Option DataInsn :=
  if w[31] = false then
    some (.adr (registerAt w 0 .zero) (w.extractLsb' 5 19 ++ w.extractLsb' 29 2).toInt)
  else
    none

/-- The instruction of a word of a group, for the instructions above. -/
def readGroup (group : BitVec 5) (w : Word) : Option DataInsn :=
  match group.toNat with
  | 0b10000 => readAdr w
  | 0b10001 => if w[23] then none else readAddSubImmediate w
  | 0b10010 => if w[23] then readMoveWide w else readLogicalImmediate w
  | 0b10011 => if w[23] then none else readBitfieldMove w
  | 0b01010 => readLogicalRegister w
  | 0b01011 => if w[21] then readAddSubExtended w else readAddSubShifted w
  | 0b11010 =>
    if w[29] then none
    else
      match (w.extractLsb' 21 3).toNat with
      | 0b100 => readConditionalSelect w
      | 0b110 => readDivide w
      | _ => none
  | 0b11011 => readMultiplyAdd w
  | _ => none

/-- The instruction of a word. Bits 28 to 24 tell the groups apart. -/
def decodeData (w : Word) : Option DataInsn :=
  readGroup (w.extractLsb' 24 5) w

/-! ## Codes and registers read back -/

theorem registerField_ok_iff {lsb offset : Nat} {slot31 : Slot31} {r : Register} {bits : Word} :
    registerField lsb slot31 r offset = .ok bits ↔
      ∃ number, r.slot slot31 = some number ∧ bits = field lsb number := by
  rw [registerField]
  cases r.slot slot31 with
  | none => simp [refuse]
  | some number => simp [eq_comm]

theorem Register.ofSlot_slot {r : Register} {slot31 : Slot31} {number : BitVec 5}
    (h : r.slot slot31 = some number) : Register.ofSlot slot31 number = r := by
  cases r with
  | x index =>
    obtain rfl : BitVec.ofNat 5 index = number := Option.some.inj h
    have hlt : (BitVec.ofNat 5 index.val).toNat = index.val := by
      rw [BitVec.toNat_ofNat, Nat.mod_eq_of_lt (by omega)]
    have hindex : (BitVec.ofNat 5 index.val).toNat < 31 := by omega
    simp only [ofSlot, hindex, dif_pos]
    exact congrArg Register.x (Fin.ext hlt)
  | zr =>
    cases slot31 with
    | zero =>
      cases h
      rfl
    | stackPointer => cases h
  | sp =>
    cases slot31 with
    | zero => cases h
    | stackPointer =>
      cases h
      rfl

@[simp] theorem Shift.ofCode_code (shift : Shift) : Shift.ofCode shift.code = shift := by
  cases shift <;> rfl

@[simp] theorem Extend.ofCode_code (extend : Extend) : Extend.ofCode extend.code = extend := by
  cases extend <;> rfl

@[simp] theorem LogicalOp.ofCode_code (op : LogicalOp) : LogicalOp.ofCode op.code = op := by
  cases op <;> rfl

@[simp] theorem Width.ofBit_decide (width : Width) :
    Width.ofBit (decide (width = .x)) = width := by
  cases width <;> rfl

theorem unsignedField_ok_iff {bits value : Nat} {v : BitVec bits} :
    unsignedField bits value = .ok v ↔ value < 1 <<< bits ∧ v = BitVec.ofNat bits value := by
  simp only [unsignedField]
  split <;> simp [*, eq_comm]

private theorem checkAmount_ok_iff {width : Width} {amount : BitVec 8} {u : Unit} :
    checkAmount width amount = .ok u ↔ amount.toNat < width.bits := by
  rw [checkAmount]
  split <;> simp [*]

theorem Width.bits_le (width : Width) : width.bits ≤ 64 := by
  cases width <;> decide

@[simp] theorem AddSub.ofBit_decide (op : AddSub) : AddSub.ofBit (decide (op = .sub)) = op := by
  cases op <;> rfl

private theorem decodeData_eq {w : Word} (group : BitVec 5) (h : w.extractLsb' 24 5 = group) :
    decodeData w = readGroup group w := by
  rw [decodeData, h]

/-! ## Additions and subtractions -/

section

variable {op : AddSub} {width : Width} {setFlags : Bool} {rd rn : Register} {offset : Nat}
  {w : Word}

theorem decode_addSub_immediate {imm12 : BitVec 16} {raised : Bool} (hfits : imm12.toNat < 4096)
    (h : addSub op width setFlags rd rn (.immediate imm12 raised) offset = .ok w) :
    decodeData w =
      some (.addSub op width setFlags rd rn (.immediate imm12.toNat raised)) := by
  simp only [addSub, except_bind_eq_ok, registerField_ok_iff] at h
  obtain ⟨_, ⟨n, hn, rfl⟩, _, ⟨d, hd, rfl⟩, h⟩ := h
  obtain rfl := Except.ok.inj h
  rw [field_setWidth (m := 12) imm12 hfits, decodeData_eq 0b10001#5]
  · simp [readGroup, readAddSubImmediate, readAddSub, registerAt, Width.bit, hfits,
      BitVec.extractLsb'_or, Register.ofSlot_slot hn, Register.ofSlot_slot hd]
  · simp [Width.bit, BitVec.extractLsb'_or]

private theorem decode_addSub_shifted {rm : Register} {shift : Shift} {amount : BitVec 8}
    (h : addSub op width setFlags rd rn (.shifted rm shift amount) offset = .ok w) :
    decodeData w =
      some (.addSub op width setFlags rd rn (.shifted rm shift amount.toNat)) := by
  simp only [addSub] at h
  split at h
  · cases h
  next hshift =>
  simp only [except_bind_eq_ok, registerField_ok_iff, checkAmount_ok_iff] at h
  obtain ⟨_, hamount, _, ⟨m, hm, rfl⟩, _, ⟨n, hn, rfl⟩, _, ⟨d, hd, rfl⟩, h⟩ := h
  obtain rfl := Except.ok.inj h
  have hfits : amount.toNat < 64 := Nat.lt_of_lt_of_le hamount width.bits_le
  rw [field_setWidth (m := 6) amount hfits, decodeData_eq 0b01011#5]
  · simp [readGroup, readAddSubShifted, readAddSub, registerAt, Width.bit, hshift, hamount,
      BitVec.extractLsb'_or, Register.ofSlot_slot hm, Register.ofSlot_slot hn,
      Register.ofSlot_slot hd, Nat.mod_eq_of_lt hfits]
  · simp [Width.bit, BitVec.extractLsb'_or]

private theorem decode_addSub_extended {rm : Register} {extend : Extend} {amount : BitVec 8}
    (hfits : amount.toNat ≤ 4)
    (h : addSub op width setFlags rd rn (.extended rm extend amount) offset = .ok w) :
    decodeData w =
      some (.addSub op width setFlags rd rn (.extended rm extend amount.toNat)) := by
  simp only [addSub, except_bind_eq_ok, registerField_ok_iff] at h
  obtain ⟨_, ⟨m, hm, rfl⟩, _, ⟨n, hn, rfl⟩, _, ⟨d, hd, rfl⟩, h⟩ := h
  obtain rfl := Except.ok.inj h
  have hmod : amount.toNat % 8 = amount.toNat := Nat.mod_eq_of_lt (by omega)
  rw [field_setWidth (m := 3) amount (show amount.toNat < 8 by omega),
    decodeData_eq 0b01011#5]
  · simp [readGroup, readAddSubExtended, readAddSub, registerAt, Width.bit, hfits, hmod,
      BitVec.extractLsb'_or, Register.ofSlot_slot hm, Register.ofSlot_slot hn,
      Register.ofSlot_slot hd]
  · simp [Width.bit, BitVec.extractLsb'_or]

end

/-! ## Logical instructions -/

/-- The fields of an immediate in the word stand for its value. -/
theorem maskValue?_bitmask? {width : Width} {value : BitVec 64} {imm : BitmaskImm}
    (h : width.bitmask? value = some imm) :
    maskValue? width (imm.n.setWidth 1) (imm.immR.setWidth 6) (imm.immS.setWidth 6) =
      some value := by
  obtain ⟨e, hsize, rfl, rfl⟩ := bitmask?_eq_some_iff.mp h
  obtain ⟨hmarked, hrun, -, -, hn, hs, -⟩ := BitmaskImm.marks_fields e
  have hturn := BitmaskImm.toNat_immR_fields e
  have hle := e.size_le
  have hlt := e.turn_lt
  have hwiden : ∀ {k : Nat} (v : BitVec 32), v.toNat < 1 <<< k →
      (v.setWidth k).setWidth 32 = v := by
    intro k v hv
    rw [Nat.one_shiftLeft] at hv
    apply BitVec.eq_of_toNat_eq
    rw [BitVec.toNat_setWidth, BitVec.toNat_setWidth, Nat.mod_eq_of_lt hv,
      Nat.mod_eq_of_lt v.isLt]
  have hsame : (⟨(e.fields.n.setWidth 1).setWidth 32, (e.fields.immR.setWidth 6).setWidth 32,
      (e.fields.immS.setWidth 6).setWidth 32⟩ : BitmaskImm) = e.fields := by
    rw [hwiden _ (show e.fields.n.toNat < 2 by omega), hwiden _ (show _ < 64 by omega),
      hwiden _ (show _ < 64 from hs)]
  have hrotation : (e.fields.immR.setWidth 6).toNat % e.size = e.turn := by
    rw [BitVec.toNat_setWidth, hturn, Nat.mod_eq_of_lt (show e.turn < 2 ^ 6 by omega),
      Nat.mod_eq_of_lt hlt]
  simp only [maskValue?, hsame, hmarked, Option.bind_eq_bind, Option.bind_some, hrun, hrotation,
    hsize, e.run_lt, and_self, if_true]
  rfl

private theorem bits_bitmask? {width : Width} {value : BitVec 64} {imm : BitmaskImm}
    (h : width.bitmask? value = some imm) :
    imm.bits = field 22 (imm.n.setWidth 1) ||| field 16 (imm.immR.setWidth 6) |||
      field 10 (imm.immS.setWidth 6) := by
  obtain ⟨e, -, -, rfl⟩ := bitmask?_eq_some_iff.mp h
  obtain ⟨-, -, -, -, hn, hs, -⟩ := BitmaskImm.marks_fields e
  have hturn := BitmaskImm.toNat_immR_fields e
  have hle := e.size_le
  have hlt := e.turn_lt
  rw [← field_setWidth e.fields.n (show _ < 2 by omega),
    ← field_setWidth e.fields.immR (show _ < 64 by omega),
    ← field_setWidth e.fields.immS (show _ < 64 from hs)]
  simp only [BitmaskImm.bits, field, BitVec.setWidth_eq]

section

variable {op : LogicalOp} {width : Width} {rd rn : Register} {offset : Nat} {w : Word}

theorem decode_logicalImmediate {value : BitVec 64}
    (h : logicalImmediate op width rd rn value offset = .ok w) :
    decodeData w = some (.logicalImmediate op width rd rn value) := by
  simp only [logicalImmediate] at h
  split at h
  · cases h
  next imm himm =>
  simp only [except_bind_eq_ok, registerField_ok_iff] at h
  obtain ⟨_, ⟨n, hn, rfl⟩, _, ⟨d, hd, rfl⟩, h⟩ := h
  obtain rfl := Except.ok.inj h
  rw [bits_bitmask? himm, decodeData_eq 0b10010#5]
  · simp [readGroup, readLogicalImmediate, registerAt, Width.bit, BitVec.extractLsb'_or,
      maskValue?_bitmask? himm, Register.ofSlot_slot hn, Register.ofSlot_slot hd]
  · simp [Width.bit, BitVec.extractLsb'_or]

private theorem decode_logicalRegister {negate : Bool} {rm : Register} {shift : Shift}
    {amount : BitVec 8}
    (h : logicalRegister op negate rd rn (.shifted rm shift amount) offset = .ok w) :
    decodeData w = some (.logicalRegister op negate .x rd rn rm shift amount.toNat) := by
  simp only [logicalRegister, except_bind_eq_ok, registerField_ok_iff, checkAmount_ok_iff] at h
  obtain ⟨_, hamount, _, ⟨m, hm, rfl⟩, _, ⟨n, hn, rfl⟩, _, ⟨d, hd, rfl⟩, h⟩ := h
  obtain rfl := Except.ok.inj h
  have hfits : amount.toNat < 64 := hamount
  rw [field_setWidth (m := 6) amount hfits, decodeData_eq 0b01010#5]
  · simp [readGroup, readLogicalRegister, registerAt, Width.bit, Width.bits, Width.ofBit, hfits,
      BitVec.extractLsb'_or, Register.ofSlot_slot hm, Register.ofSlot_slot hn,
      Register.ofSlot_slot hd, Nat.mod_eq_of_lt hfits]
  · simp [Width.bit, BitVec.extractLsb'_or]

end

/-! ## Moves, selects, products and addresses -/

section

variable {rd rn rm ra : Register} {offset : Nat} {w : Word}

theorem decode_moveWide {move : MoveWide} {imm : BitVec 16} {position : Nat}
    (h : moveWide move rd imm position offset = .ok w) :
    decodeData w = some (.moveWide move .x rd imm position) := by
  simp only [moveWide, except_bind_eq_ok, registerField_ok_iff, unsignedField_ok_iff] at h
  obtain ⟨_, ⟨hposition, rfl⟩, _, ⟨d, hd, rfl⟩, h⟩ := h
  obtain rfl := Except.ok.inj h
  have hlt : position < 4 := hposition
  have hinside : 16 * position < 64 := by omega
  rw [decodeData_eq 0b10010#5]
  · cases move <;>
      simp [readGroup, readMoveWide, MoveWide.opcode, MoveWide.ofCode?, registerAt, Width.bit,
        Width.bits, Width.ofBit, BitVec.extractLsb'_or, Register.ofSlot_slot hd,
        Nat.mod_eq_of_lt hlt, hinside]
  · cases move <;> simp [MoveWide.opcode, Width.bit, BitVec.extractLsb'_or]

theorem decode_bitfieldMove {signed : Bool} {immR immS : Nat}
    (h : bitfieldMove signed rd rn immR immS offset = .ok w) :
    decodeData w = some (.bitfieldMove signed .x rd rn immR immS) := by
  simp only [bitfieldMove, except_bind_eq_ok, registerField_ok_iff, unsignedField_ok_iff] at h
  obtain ⟨_, ⟨hr, rfl⟩, _, ⟨hs, rfl⟩, _, ⟨n, hn, rfl⟩, _, ⟨d, hd, rfl⟩, h⟩ := h
  obtain rfl := Except.ok.inj h
  have hrotate : immR < 64 := hr
  have hlast : immS < 64 := hs
  rw [decodeData_eq 0b10011#5]
  · cases signed <;>
      simp [readGroup, readBitfieldMove, registerAt, Width.bit, Width.bits, Width.ofBit,
        BitVec.extractLsb'_or, Register.ofSlot_slot hn, Register.ofSlot_slot hd,
        Nat.mod_eq_of_lt hrotate, Nat.mod_eq_of_lt hlast, hrotate, hlast]
  · cases signed <;> simp [Width.bit, BitVec.extractLsb'_or]

theorem decode_conditionalSelect {select : Select} {condition : Condition}
    (h : conditionalSelect select rd rn rm condition offset = .ok w) :
    decodeData w = some (.conditionalSelect select .x rd rn rm condition) := by
  simp only [conditionalSelect, except_bind_eq_ok, registerField_ok_iff] at h
  obtain ⟨_, ⟨m, hm, rfl⟩, _, ⟨n, hn, rfl⟩, _, ⟨d, hd, rfl⟩, h⟩ := h
  obtain rfl := Except.ok.inj h
  rw [decodeData_eq 0b11010#5]
  · cases select <;>
      simp [readGroup, readConditionalSelect, Select.opcode, registerAt, Width.bit, Width.ofBit,
        BitVec.extractLsb'_or, Register.ofSlot_slot hm, Register.ofSlot_slot hn,
        Register.ofSlot_slot hd]
  · cases select <;> simp [Select.opcode, Width.bit, BitVec.extractLsb'_or]

private theorem decode_multiplyAdd {subtract : Bool}
    (h : multiplyAdd subtract rd rn rm ra offset = .ok w) :
    decodeData w = some (.multiplyAdd subtract .x rd rn rm ra) := by
  simp only [multiplyAdd, except_bind_eq_ok, registerField_ok_iff] at h
  obtain ⟨_, ⟨m, hm, rfl⟩, _, ⟨a, ha, rfl⟩, _, ⟨n, hn, rfl⟩, _, ⟨d, hd, rfl⟩, h⟩ := h
  obtain rfl := Except.ok.inj h
  rw [decodeData_eq 0b11011#5]
  · simp [readGroup, readMultiplyAdd, registerAt, Width.bit, Width.ofBit, BitVec.extractLsb'_or,
      Register.ofSlot_slot hm, Register.ofSlot_slot ha, Register.ofSlot_slot hn,
      Register.ofSlot_slot hd]
  · simp [Width.bit, BitVec.extractLsb'_or]

private theorem decode_divide {signed : Bool} (h : divide signed rd rn rm offset = .ok w) :
    decodeData w = some (.divide signed .x rd rn rm) := by
  simp only [divide, except_bind_eq_ok, registerField_ok_iff] at h
  obtain ⟨_, ⟨m, hm, rfl⟩, _, ⟨n, hn, rfl⟩, _, ⟨d, hd, rfl⟩, h⟩ := h
  obtain rfl := Except.ok.inj h
  rw [decodeData_eq 0b11010#5]
  · simp [readGroup, readDivide, registerAt, Width.bit, Width.ofBit, BitVec.extractLsb'_or,
      Register.ofSlot_slot hm, Register.ofSlot_slot hn, Register.ofSlot_slot hd]
  · simp [Width.bit, BitVec.extractLsb'_or]

private theorem decode_adr {displacement : Int} (h : adr rd displacement offset = .ok w) :
    decodeData w = some (.adr rd displacement) := by
  simp only [adr] at h
  split at h
  · cases h
  next hreach =>
  simp only [except_bind_eq_ok, registerField_ok_iff] at h
  obtain ⟨_, ⟨d, hd, rfl⟩, h⟩ := h
  obtain rfl := Except.ok.inj h
  have happend : ∀ imm : BitVec 21, imm.extractLsb' 2 19 ++ imm.extractLsb' 0 2 = imm := by
    intro imm
    apply BitVec.eq_of_getLsbD_eq
    intro i hi
    rw [BitVec.getLsbD_append, BitVec.getLsbD_extractLsb', BitVec.getLsbD_extractLsb']
    by_cases hlow : i < 2
    · simp [hlow]
    · simp [hlow, show i - 2 < 19 by omega, show 2 + (i - 2) = i by omega]
  have hvalue : (BitVec.ofInt 21 displacement).toInt = displacement := by
    rw [BitVec.toInt_ofInt]
    apply Int.bmod_eq_of_le <;> omega
  rw [decodeData_eq 0b10000#5]
  · simp [readGroup, readAdr, registerAt, BitVec.extractLsb'_or, happend, hvalue,
      Register.ofSlot_slot hd]
  · simp [BitVec.extractLsb'_or]

end

/-! ## What operations append -/

/-- The encoders give the words, each at its own offset. -/
def Encodes : List Encoder → Nat → List Word → Prop
  | [], _, [] => True
  | encoder :: encoders, offset, w :: words =>
    encoder offset = .ok w ∧ Encodes encoders (offset + 4) words
  | _, _, _ => False

theorem Encodes.exists_word {encoder : Encoder} {offset : Nat} {words : List Word}
    (h : Encodes [encoder] offset words) : ∃ w, words = [w] ∧ encoder offset = .ok w := by
  cases words with
  | nil => cases h
  | cons w rest =>
    cases rest with
    | nil => exact ⟨w, rfl, h.1⟩
    | cons _ _ => cases h.2

theorem length_flatMap_littleEndian (words : List Word) :
    (words.flatMap (littleEndian 4)).length = 4 * words.length := by
  induction words with
  | nil => rfl
  | cons w words ih =>
    rw [List.flatMap_cons, List.length_append, littleEndian_length, ih, List.length_cons]
    omega

theorem emitAll_ends (encoders : List Encoder) (b : CodeBuffer) :
    Ends (emitAll encoders) b
      (fun _ c => ∃ words, Encodes encoders b.size words ∧
        CodeBuffer.Appends (words.flatMap (littleEndian 4)).toArray b c)
      (fun e _ => e.isMemory = true ∨
        ∃ encoder ∈ encoders, ∃ offset cause, encoder offset = .error cause) := by
  induction encoders generalizing b with
  | nil => exact ⟨[], trivial, .refl b⟩
  | cons encoder rest ih =>
    rw [emitAll, ends_bind, ends_get, ends_bind, ends_checked]
    refine ⟨fun w hw => ?_, fun cause hcause => .inr ⟨encoder, .head _, _, cause, hcause⟩⟩
    rw [ends_bind]
    apply (emitWord_ends w b).mono
    · intro _ c happ
      apply (ih c).mono
      · rintro _ d ⟨words, hwords, hrest⟩
        have hsize : c.size = b.size + 4 := by simpa using happ.size
        refine ⟨w :: words, ⟨hw, hsize ▸ hwords⟩, ?_⟩
        rw [List.flatMap_cons, ← List.append_toArray]
        exact happ.trans hrest
      · rintro e d (hmemory | ⟨failing, hfailing, hcause⟩)
        · exact .inl hmemory
        · exact .inr ⟨failing, .tail _ hfailing, hcause⟩
    · exact fun _ _ h => .inl h.2

theorem emitOne_appends {encoder : Encoder} {b c : CodeBuffer}
    (h : emitAll [encoder] b = .ok () c) :
    ∃ w, encoder b.size = .ok w ∧ c.bytes = b.bytes ++ (littleEndian 4 w).toArray := by
  have hends := emitAll_ends [encoder] b
  rw [Ends, h] at hends
  obtain ⟨words, hwords, happ⟩ := hends
  obtain ⟨w, rfl, hw⟩ := hwords.exists_word
  exact ⟨w, hw, by rw [happ.bytes, List.flatMap_singleton]⟩

/-! ## Operands -/

/-- The value of twelve bits, moved up by twelve places if `raised`. -/
def Source.immediateValue (imm12 : Nat) (raised : Bool) : Int :=
  if raised then 4096 * imm12 else imm12

/-- The immediate that an addition of `value` takes, if there is one: the twelve bits stand at the
bottom wherever they can. -/
def Source.ofValue? (value : Int) : Option Source :=
  if 0 ≤ value ∧ value < 4096 then
    some (.immediate value.toNat false)
  else if 4096 ∣ value ∧ 0 ≤ value ∧ value < 0x1000000 then
    some (.immediate (value / 4096).toNat true)
  else
    none

inductive OperandCall where
  | reg (rm : Register)
  | shifted (rm : Register) (shift : Shift) (amount : Nat)
  | extended (rm : Register) (extend : Extend) (amount : Nat)
  | immediate (value : Int)
  | holding (value : Int) (width : Nat)
  deriving DecidableEq, Repr

namespace OperandCall

def operand? : OperandCall → Option Operand
  | .reg rm => some (.reg rm)
  | .shifted rm shift amount => (Operand.ofShifted rm shift amount).toOption
  | .extended rm extend amount => (Operand.ofExtended rm extend amount).toOption
  | .immediate value => Operand.ofImmediate? value
  | .holding value width => (Operand.holding? value width).toOption.join

/-- The second source that a call asks for, or none if only a mask holds the value. At 32 bits the
value counts modulo `0x100000000`. -/
def source? : OperandCall → Option Source
  | .reg rm => some (.shifted rm .lsl 0)
  | .shifted rm shift amount => some (.shifted rm shift amount)
  | .extended rm extend amount => some (.extended rm extend amount)
  | .immediate value => Source.ofValue? value
  | .holding value width => Source.ofValue? (if width = 32 then value % 0x100000000 else value)

end OperandCall

namespace Operand

def source? : Operand → Option Source
  | .immediate imm12 raised => some (.immediate imm12.toNat raised)
  | .shifted rm shift amount => some (.shifted rm shift amount.toNat)
  | .extended rm extend amount => some (.extended rm extend amount.toNat)
  | .bitmask _ => none

/-- Immediates and amounts of extended registers are within their fields. -/
def Fits : Operand → Prop
  | .immediate imm12 _ => imm12.toNat < 4096
  | .extended _ _ amount => amount.toNat ≤ 4
  | _ => True

private theorem holds_ofShifted {rm : Register} {shift : Shift} {amount : Nat} {operand : Operand}
    (h : ofShifted rm shift amount = .ok operand) :
    operand.source? = some (.shifted rm shift amount) ∧ operand.Fits := by
  rw [ofShifted] at h
  split at h
  · cases h
  split at h <;> cases h
  have hstored : (BitVec.ofNat 8 amount).toNat = amount := by
    rw [BitVec.toNat_ofNat]
    omega
  exact ⟨by rw [source?, hstored], trivial⟩

private theorem holds_ofExtended {rm : Register} {extend : Extend} {amount : Nat}
    {operand : Operand} (h : ofExtended rm extend amount = .ok operand) :
    operand.source? = some (.extended rm extend amount) ∧ operand.Fits := by
  rw [ofExtended] at h
  split at h <;> cases h
  have hstored : (BitVec.ofNat 8 amount).toNat = amount := by
    rw [BitVec.toNat_ofNat]
    omega
  refine ⟨by rw [source?, hstored], ?_⟩
  rw [Fits, hstored]
  omega

private theorem toNat_ofInt_part {part : Int} (hnonneg : 0 ≤ part) (hlt : part < 4096) :
    (BitVec.ofInt 16 part).toNat = part.toNat := by
  rw [BitVec.toNat_ofInt]
  omega

private theorem ofImmediate?_source (value : Int) :
    (ofImmediate? value).bind source? = Source.ofValue? value := by
  rw [ofImmediate?, Source.ofValue?]
  split
  next hlow => rw [Option.bind_some, source?, toNat_ofInt_part hlow.1 hlow.2]
  next =>
    by_cases hraised : value % 4096 = 0 ∧ 0 ≤ value / 4096 ∧ value / 4096 < 4096
    · rw [if_pos hraised, if_pos (by omega), Option.bind_some, source?,
        toNat_ofInt_part hraised.2.1 hraised.2.2]
    · rw [if_neg hraised, if_neg (by omega), Option.bind_none]

theorem ofImmediate?_eq_some {value : Int} {operand : Operand}
    (h : ofImmediate? value = some operand) :
    ∃ (imm12 : BitVec 16) (raised : Bool), operand = .immediate imm12 raised ∧
      imm12.toNat < 4096 ∧ value = Source.immediateValue imm12.toNat raised := by
  rw [ofImmediate?] at h
  split at h
  next hlow =>
    cases h
    have hstored := toNat_ofInt_part hlow.1 hlow.2
    refine ⟨_, false, rfl, by omega, ?_⟩
    rw [hstored, Source.immediateValue, if_neg (by decide)]
    omega
  next =>
    split at h
    next hraised =>
      cases h
      have hstored := toNat_ofInt_part hraised.2.1 hraised.2.2
      exact ⟨_, true, rfl, by omega, by rw [hstored, Source.immediateValue, if_pos rfl]; omega⟩
    next => cases h

private theorem fits_ofImmediate? {value : Int} {operand : Operand}
    (h : ofImmediate? value = some operand) : operand.Fits := by
  obtain ⟨imm12, raised, rfl, hfits, -⟩ := ofImmediate?_eq_some h
  exact hfits

theorem narrow?_eq_some {value reduced : Int} {width : Nat}
    (h : narrow? value width = some reduced) :
    reduced = if width = 32 then value % 0x100000000 else value := by
  rw [narrow?] at h
  split at h
  next hwidth =>
    rw [if_pos hwidth]
    split at h
    · cases h
      omega
    · split at h <;> cases h
      rfl
  next hwidth =>
    cases h
    rw [if_neg hwidth]

private theorem holds_holding? {value : Int} {width : Nat} {operand : Operand}
    (h : holding? value width = .ok (some operand)) :
    operand.source? = Source.ofValue? (if width = 32 then value % 0x100000000 else value) ∧
      operand.Fits := by
  rw [holding?] at h
  split at h
  · cases h
  next reduced hreduced =>
  rw [← narrow?_eq_some hreduced, ← ofImmediate?_source]
  split at h
  next himmediate =>
    cases h
    exact ⟨by rw [himmediate, Option.bind_some], fits_ofImmediate? himmediate⟩
  next hnone =>
    obtain ⟨imm, -, himm⟩ := except_bind_eq_ok.mp h
    obtain ⟨mask, -, rfl⟩ := Option.map_eq_some_iff.mp (Except.ok.inj himm)
    exact ⟨by rw [hnone, Option.bind_none, source?], trivial⟩

end Operand

private theorem eq_ok_of_toOption {ε α : Type} {x : Except ε α} {a : α}
    (h : x.toOption = some a) : x = .ok a := by
  cases x with
  | error e => cases h
  | ok value =>
    cases h
    rfl

private theorem OperandCall.held {call : OperandCall} {operand : Operand}
    (h : call.operand? = some operand) : operand.source? = call.source? ∧ operand.Fits := by
  cases call with
  | reg rm =>
    cases h
    exact ⟨rfl, trivial⟩
  | shifted rm shift amount => exact Operand.holds_ofShifted (eq_ok_of_toOption h)
  | extended rm extend amount => exact Operand.holds_ofExtended (eq_ok_of_toOption h)
  | immediate value =>
    refine ⟨?_, Operand.fits_ofImmediate? h⟩
    rw [source?, ← Operand.ofImmediate?_source, show Operand.ofImmediate? value = _ from h]
    rfl
  | holding value width =>
    have hmade := Option.join_eq_some_iff.mp h
    exact Operand.holds_holding? (eq_ok_of_toOption hmade)

/-! ## What is asked for is what the word says -/

/-- The logical instruction with a second source; only a shifted register can be one. -/
def Source.logical? (op : LogicalOp) (negate : Bool) (rd rn : Register) :
    Source → Option DataInsn
  | .shifted rm shift amount => some (.logicalRegister op negate .x rd rn rm shift amount)
  | _ => none

inductive DataCall where
  | addSub (op : AddSub) (width : Width) (setFlags : Bool) (rd rn : Register)
    (operand : OperandCall)
  | cmp (rn : Register) (operand : OperandCall)
  | cmn (rn : Register) (operand : OperandCall)
  | neg (rd rm : Register)
  | logicalImmediate (op : LogicalOp) (width : Width) (rd rn : Register) (value : BitVec 64)
  | testMask (rn : Register) (value : BitVec 64)
  | logicalRegister (op : LogicalOp) (negate : Bool) (rd rn : Register) (operand : OperandCall)
  | tst (rn : Register) (operand : OperandCall)
  | mov (rd rm : Register)
  | mvn (rd rm : Register)
  | moveWide (move : MoveWide) (rd : Register) (imm : BitVec 16) (position : Nat)
  | bitfieldMove (signed : Bool) (rd rn : Register) (immR immS : Nat)
  | conditionalSelect (select : Select) (rd rn rm : Register) (condition : Condition)
  | multiplyAdd (subtract : Bool) (rd rn rm ra : Register)
  | mul (rd rn rm : Register)
  | divide (signed : Bool) (rd rn rm : Register)
  | adr (rd : Register) (displacement : Int)
  deriving DecidableEq, Repr

namespace DataCall

/-- The operation of a call, once its operand is made. -/
def operation? : DataCall → Option Operation
  | .addSub op width setFlags rd rn operand =>
    operand.operand?.map (Operation.addSub op width setFlags rd rn)
  | .cmp rn operand => operand.operand?.map (Operation.cmp rn)
  | .cmn rn operand => operand.operand?.map (Operation.cmn rn)
  | .neg rd rm => some (.neg rd rm)
  | .logicalImmediate op width rd rn value => some (.logicalImmediate op width rd rn value)
  | .testMask rn value => some (.testMask rn value)
  | .logicalRegister op negate rd rn operand =>
    operand.operand?.map (Operation.logicalRegister op negate rd rn)
  | .tst rn operand => operand.operand?.map (Operation.tst rn)
  | .mov rd rm => some (.mov rd rm)
  | .mvn rd rm => some (.mvn rd rm)
  | .moveWide move rd imm position => some (.moveWide move rd imm position)
  | .bitfieldMove signed rd rn immR immS => some (.bitfieldMove signed rd rn immR immS)
  | .conditionalSelect select rd rn rm condition =>
    some (.conditionalSelect select rd rn rm condition)
  | .multiplyAdd subtract rd rn rm ra => some (.multiplyAdd subtract rd rn rm ra)
  | .mul rd rn rm => some (.mul rd rn rm)
  | .divide signed rd rn rm => some (.divide signed rd rn rm)
  | .adr rd displacement => some (.adr rd displacement)

/-- The instruction that a call asks for, an alias as its base instruction. Only additions,
subtractions and logical instructions with an immediate come in both widths. -/
def instruction? : DataCall → Option DataInsn
  | .addSub op width setFlags rd rn operand =>
    operand.source?.map (DataInsn.addSub op width setFlags rd rn)
  | .cmp rn operand => operand.source?.map (DataInsn.addSub .sub .x true .zr rn)
  | .cmn rn operand => operand.source?.map (DataInsn.addSub .add .x true .zr rn)
  | .neg rd rm => some (.addSub .sub .x false rd .zr (.shifted rm .lsl 0))
  | .logicalImmediate op width rd rn value => some (.logicalImmediate op width rd rn value)
  | .testMask rn value => some (.logicalImmediate .ands .x .zr rn value)
  | .logicalRegister op negate rd rn operand =>
    operand.source?.bind (Source.logical? op negate rd rn)
  | .tst rn operand => operand.source?.bind (Source.logical? .ands false .zr rn)
  | .mov rd rm =>
    if rd = .sp ∨ rm = .sp then some (.addSub .add .x false rd rm (.immediate 0 false))
    else some (.logicalRegister .orr false .x rd .zr rm .lsl 0)
  | .mvn rd rm => some (.logicalRegister .orr true .x rd .zr rm .lsl 0)
  | .moveWide move rd imm position => some (.moveWide move .x rd imm position)
  | .bitfieldMove signed rd rn immR immS => some (.bitfieldMove signed .x rd rn immR immS)
  | .conditionalSelect select rd rn rm condition =>
    some (.conditionalSelect select .x rd rn rm condition)
  | .multiplyAdd subtract rd rn rm ra => some (.multiplyAdd subtract .x rd rn rm ra)
  | .mul rd rn rm => some (.multiplyAdd false .x rd rn rm .zr)
  | .divide signed rd rn rm => some (.divide signed .x rd rn rm)
  | .adr rd displacement => some (.adr rd displacement)

end DataCall

/-- The operation has a single encoder. It gives words only if an instruction is asked for, and they
read as that instruction. -/
def Operation.Reads (operation : Operation) (asked : Option DataInsn) : Prop :=
  ∃ encoder, operation.run = emitAll [encoder] ∧
    ∀ offset w, encoder offset = .ok w → ∃ insn, asked = some insn ∧ decodeData w = some insn

private theorem addSub_reads (op : AddSub) (width : Width) (setFlags : Bool) (rd rn : Register)
    (call : OperandCall) {operation : Operation}
    (h : call.operand?.map (Operation.addSub op width setFlags rd rn) = some operation) :
    operation.Reads (call.source?.map (DataInsn.addSub op width setFlags rd rn)) := by
  obtain ⟨operand, hoperand, rfl⟩ := Option.map_eq_some_iff.mp h
  obtain ⟨hsource, hfits⟩ := OperandCall.held hoperand
  refine ⟨_, rfl, fun offset w hw => ?_⟩
  rw [← hsource]
  cases operand with
  | immediate imm12 raised => exact ⟨_, rfl, decode_addSub_immediate hfits hw⟩
  | shifted rm shift amount => exact ⟨_, rfl, decode_addSub_shifted hw⟩
  | extended rm extend amount => exact ⟨_, rfl, decode_addSub_extended hfits hw⟩
  | bitmask imm => cases hw

private theorem logicalRegister_reads (op : LogicalOp) (negate : Bool) (rd rn : Register)
    (call : OperandCall) {operation : Operation}
    (h : call.operand?.map (Operation.logicalRegister op negate rd rn) = some operation) :
    operation.Reads (call.source?.bind (Source.logical? op negate rd rn)) := by
  obtain ⟨operand, hoperand, rfl⟩ := Option.map_eq_some_iff.mp h
  refine ⟨_, rfl, fun offset w hw => ?_⟩
  rw [← (OperandCall.held hoperand).1]
  cases operand with
  | shifted rm shift amount => exact ⟨_, rfl, decode_logicalRegister hw⟩
  | _ => cases hw

private theorem mov_reads (rd rm : Register) :
    (Operation.mov rd rm).Reads (DataCall.mov rd rm).instruction? := by
  rw [Operation.mov, DataCall.instruction?]
  split
  · exact addSub_reads .add .x false rd rm (.immediate 0) (by rfl)
  · exact logicalRegister_reads .orr false rd .zr (.reg rm) rfl

private theorem DataCall.reads {call : DataCall} {operation : Operation}
    (h : call.operation? = some operation) : operation.Reads call.instruction? := by
  cases call with
  | addSub op width setFlags rd rn operand => exact addSub_reads op width setFlags rd rn operand h
  | cmp rn operand => exact addSub_reads .sub .x true .zr rn operand h
  | cmn rn operand => exact addSub_reads .add .x true .zr rn operand h
  | neg rd rm => exact addSub_reads .sub .x false rd .zr (.reg rm) h
  | logicalRegister op negate rd rn operand => exact logicalRegister_reads op negate rd rn operand h
  | tst rn operand => exact logicalRegister_reads .ands false .zr rn operand h
  | mvn rd rm => exact logicalRegister_reads .orr true rd .zr (.reg rm) h
  | mov rd rm =>
    cases h
    exact mov_reads rd rm
  | logicalImmediate | testMask =>
    cases h
    exact ⟨_, rfl, fun _ _ hw => ⟨_, rfl, decode_logicalImmediate hw⟩⟩
  | moveWide =>
    cases h
    exact ⟨_, rfl, fun _ _ hw => ⟨_, rfl, decode_moveWide hw⟩⟩
  | bitfieldMove =>
    cases h
    exact ⟨_, rfl, fun _ _ hw => ⟨_, rfl, decode_bitfieldMove hw⟩⟩
  | conditionalSelect =>
    cases h
    exact ⟨_, rfl, fun _ _ hw => ⟨_, rfl, decode_conditionalSelect hw⟩⟩
  | multiplyAdd | mul =>
    cases h
    exact ⟨_, rfl, fun _ _ hw => ⟨_, rfl, decode_multiplyAdd hw⟩⟩
  | divide =>
    cases h
    exact ⟨_, rfl, fun _ _ hw => ⟨_, rfl, decode_divide hw⟩⟩
  | adr =>
    cases h
    exact ⟨_, rfl, fun _ _ hw => ⟨_, rfl, decode_adr hw⟩⟩

/-- Every call for a data-processing instruction whose operand is made and that succeeds appends one
word. The word reads as the instruction that was asked for, an alias as its base instruction, down
to each register and each part of the operand. -/
theorem data_word_reads_back {call : DataCall} {operation : Operation}
    (hcall : call.operation? = some operation) {b c : CodeBuffer}
    (hrun : operation.run b = .ok () c) :
    ∃ w insn, c.bytes = b.bytes ++ (littleEndian 4 w).toArray ∧
      call.instruction? = some insn ∧ decodeData w = some insn := by
  obtain ⟨encoder, hencoder, hreads⟩ := DataCall.reads hcall
  obtain ⟨w, hw, hbytes⟩ := emitOne_appends (hencoder ▸ hrun)
  obtain ⟨insn, hasked, hdecode⟩ := hreads b.size w hw
  exact ⟨w, insn, hbytes, hasked, hdecode⟩

/-- The operation succeeds on an empty buffer with room for a few instructions. -/
def Operation.runsFresh (operation : Operation) : Bool :=
  match CodeBuffer.create 0 4096 { Options.standard with initialCapacity := 64 } trapPattern with
  | .error _ => false
  | .ok b =>
    match operation.run b with
    | .error _ _ => false
    | .ok _ _ => true

theorem Operation.exists_run {operation : Operation} (h : operation.runsFresh = true) :
    ∃ b c, operation.run b = .ok () c := by
  rw [runsFresh] at h
  split at h
  · cases h
  next b _ =>
  split at h
  · cases h
  next c hc => exact ⟨b, c, hc⟩

/-- The call succeeds on some buffer with one word that reads as the instruction. -/
def DataCall.CanRead (call : DataCall) (insn : DataInsn) : Prop :=
  ∃ operation b c w, call.operation? = some operation ∧ operation.run b = .ok () c ∧
    c.bytes = b.bytes ++ (littleEndian 4 w).toArray ∧ decodeData w = some insn

/-- Number 31 is the stack pointer as a source of the comparisons and the zero register as their
destination. A move to the stack pointer is an addition; a move to the zero register is not. -/
theorem slot31_reads_back :
    (DataCall.cmp .sp (.extended .lr .sxtw 2)).CanRead
      (.addSub .sub .x true .zr .sp (.extended .lr .sxtw 2)) ∧
    (DataCall.cmn .sp (.holding (-4294955008) 32)).CanRead
      (.addSub .add .x true .zr .sp (.immediate 3 true)) ∧
    (DataCall.tst .lr (.shifted .zr .ror 63)).CanRead
      (.logicalRegister .ands false .x .zr .lr .zr .ror 63) ∧
    (DataCall.mov .sp .lr).CanRead (.addSub .add .x false .sp .lr (.immediate 0 false)) ∧
    (DataCall.mov .zr .lr).CanRead (.logicalRegister .orr false .x .zr .zr .lr .lsl 0) := by
  have hread : ∀ {call : DataCall} {operation : Operation} {asked : DataInsn},
      call.operation? = some operation → operation.runsFresh = true →
      call.instruction? = some asked → call.CanRead asked := by
    intro call operation asked hcall hruns hasked
    obtain ⟨b, c, hrun⟩ := Operation.exists_run hruns
    obtain ⟨w, insn, hbytes, hinsn, hdecode⟩ := data_word_reads_back hcall hrun
    obtain rfl := Option.some.inj (hasked.symm.trans hinsn)
    exact ⟨operation, b, c, w, hcall, hrun, hbytes, hdecode⟩
  exact ⟨hread rfl (by decide +kernel) rfl, hread rfl (by decide +kernel) rfl,
    hread rfl (by decide +kernel) rfl, hread rfl (by decide +kernel) rfl,
    hread rfl (by decide +kernel) rfl⟩

end MachineCode.A64
