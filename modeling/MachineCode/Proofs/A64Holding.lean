import MachineCode.Proofs.A64Data

/-!
# Operands that hold a value

A value is held by an operand of 32 or 64 bits if its lower bits are those of an immediate. At 64
bits the operand then stands for the value. At 32 bits it stands for a value with the same lower
half, which is another one if the upper half is all ones over a lower half without a sign bit.
-/

namespace MachineCode.A64

/-! ## What an operand stands for -/

/-- The bits of a value that an operand of the given width has. -/
def Width.low (width : Width) (imm : Int64) : BitVec width.bits :=
  imm.toBitVec.setWidth width.bits

/-- The value is the bits with zeros or with copies of their sign above them. -/
def Extends {n : Nat} (bits : BitVec n) (imm : Int64) : Prop :=
  imm.toBitVec = bits.setWidth 64 ∨ imm.toBitVec = bits.signExtend 64

/-- The number is an immediate of an addition: twelve bits, at the bottom or raised. -/
def IsAddend (n : Nat) : Prop :=
  n < 4096 ∨ n % 4096 = 0 ∧ n < 0x1000000

/-- The bits are those of an immediate of an addition or of a mask. -/
def IsImmediate (width : Width) (bits : BitVec width.bits) : Prop :=
  IsAddend bits.toNat ∨
    ∃ e : Element, e.size ≤ width.bits ∧ bits.setWidth 64 = e.fill width.bits

section

variable (imm : Int64)

private theorem toInt_cases :
    imm.toBitVec.toNat < 0x8000000000000000 ∧ imm.toInt = imm.toBitVec.toNat ∨
      0x8000000000000000 ≤ imm.toBitVec.toNat ∧
        imm.toInt = imm.toBitVec.toNat - 0x10000000000000000 := by
  have hcond := BitVec.toInt_eq_toNat_cond imm.toBitVec
  have hlt := imm.toBitVec.isLt
  rw [show imm.toInt = imm.toBitVec.toInt from rfl]
  split at hcond <;> omega

private theorem toNat_low (width : Width) :
    (width.low imm).toNat = imm.toBitVec.toNat % (1 <<< width.bits) := by
  rw [Width.low, BitVec.toNat_setWidth, Nat.one_shiftLeft]

end

namespace Operand

/-- The bits that an immediate operand stands for, by the fields of its instruction. -/
def bits? (width : Width) : Operand → Option (BitVec width.bits)
  | .immediate imm12 raised =>
    some (BitVec.ofInt width.bits (Source.immediateValue imm12.toNat raised))
  | .bitmask imm =>
    (maskValue? width (imm.n.setWidth 1) (imm.immR.setWidth 6) (imm.immS.setWidth 6)).map
      (·.setWidth width.bits)
  | _ => none

/-- The lower bits of the value are looked for: always at 64 bits, and at 32 bits if the upper half
is all zeros or all ones. -/
def Sought (imm : Int64) (width : Width) : Prop :=
  width = .x ∨ -0x100000000 ≤ imm.toInt ∧ imm.toInt < 0x100000000

/-! ## The number that is looked for -/

section

variable {imm : Int64} {width : Width} {value : Int}

private theorem isSome_narrow? :
    (narrow? imm.toInt width.bits).isSome = true ↔ Sought imm width := by
  cases width with
  | w =>
    rw [narrow?, if_pos (show Width.w.bits = 32 from rfl), Sought]
    simp only [reduceCtorEq, false_or]
    split
    · exact iff_of_true rfl (by omega)
    · split
      · exact iff_of_true rfl (by omega)
      · exact iff_of_false Bool.false_ne_true (by omega)
  | x => simp [narrow?, Width.bits, Sought]

private theorem ofInt_narrow? (h : narrow? imm.toInt width.bits = some value) :
    BitVec.ofInt 64 value = (width.low imm).setWidth 64 ∧
      (value = (width.low imm).toNat ∨ value < 0 ∧ 0x1000000 ≤ (width.low imm).toNat) := by
  have hsign := toInt_cases imm
  cases width with
  | w =>
    have hlow : (Width.w.low imm).toNat = imm.toBitVec.toNat % 0x100000000 := toNat_low imm .w
    have hvalue : value = (Width.w.low imm).toNat := by
      have hreduced := narrow?_eq_some h
      rw [if_pos (show Width.w.bits = 32 from rfl)] at hreduced
      omega
    rw [hvalue, BitVec.ofInt_natCast, BitVec.ofNat_toNat]
    exact ⟨rfl, .inl rfl⟩
  | x =>
    obtain rfl := Option.some.inj h
    have hlow : (Width.x.low imm).toNat = imm.toBitVec.toNat % 0x10000000000000000 :=
      toNat_low imm .x
    constructor
    · rw [Width.low, BitVec.setWidth_setWidth_of_le _ (by decide), BitVec.setWidth_eq]
      exact BitVec.ofInt_toInt
    · omega

private theorem isSome_ofImmediate? (value : Int) :
    (ofImmediate? value).isSome = true ↔ 0 ≤ value ∧ IsAddend value.toNat := by
  rw [ofImmediate?, IsAddend]
  split
  · exact iff_of_true rfl (by omega)
  · split
    · exact iff_of_true rfl (by omega)
    · exact iff_of_false Bool.false_ne_true (by omega)

/-! ## The operand that is found -/

/-- The operand for a value at the width of a register, the immediate of an addition first. -/
def found? (imm : Int64) (width : Width) : Option Operand :=
  (narrow? imm.toInt width.bits).bind fun value =>
    (ofImmediate? value).or ((width.bitmask? (BitVec.ofInt 64 value)).map .bitmask)

private theorem holding?_eq (imm : Int64) (width : Width) :
    holding? imm.toInt width.bits = .ok (found? imm width) := by
  rw [holding?, found?]
  cases narrow? imm.toInt width.bits with
  | none => rfl
  | some value =>
    simp only [BitmaskImm.encode_eq, Option.bind_some]
    cases ofImmediate? value <;> rfl

/-- An operand is found exactly if the lower bits of the value are looked for and are those of an
immediate. -/
theorem isSome_found_iff :
    (found? imm width).isSome = true ↔
      Sought imm width ∧ IsImmediate width (width.low imm) := by
  rw [found?]
  cases hnarrow : narrow? imm.toInt width.bits with
  | none =>
    have hsought : ¬Sought imm width := by
      rw [← isSome_narrow?, hnarrow]
      decide
    simp [hsought]
  | some value =>
    have hsought : Sought imm width := isSome_narrow?.mp (by rw [hnarrow]; rfl)
    obtain ⟨hbits, hnumber⟩ := ofInt_narrow? hnarrow
    have haddend : (ofImmediate? value).isSome = true ↔ IsAddend (width.low imm).toNat := by
      rw [isSome_ofImmediate?, IsAddend, IsAddend]
      omega
    have hmask : (width.bitmask? (BitVec.ofInt 64 value)).isSome = true ↔
        ∃ e : Element, e.size ≤ width.bits ∧ (width.low imm).setWidth 64 = e.fill width.bits := by
      simp only [hbits, Option.isSome_iff_exists, bitmask?_eq_some_iff]
      constructor
      · rintro ⟨_, e, hsize, hfill, -⟩
        exact ⟨e, hsize, hfill⟩
      · rintro ⟨e, hsize, hfill⟩
        exact ⟨_, e, hsize, hfill, rfl⟩
    rw [Option.bind_some, Option.isSome_or, Option.isSome_map, Bool.or_eq_true, haddend, hmask,
      IsImmediate, and_iff_right hsought]

private theorem bits?_found {operand : Operand} (h : found? imm width = some operand) :
    operand.bits? width = some (width.low imm) := by
  obtain ⟨value, hnarrow, hfound⟩ := Option.bind_eq_some_iff.mp h
  obtain ⟨hbits, hnumber⟩ := ofInt_narrow? hnarrow
  rcases Option.or_eq_some_iff.mp hfound with himmediate | ⟨-, hmask⟩
  · obtain ⟨imm12, raised, rfl, -, hvalue⟩ := ofImmediate?_eq_some himmediate
    have hnonneg : 0 ≤ value := by
      rw [hvalue, Source.immediateValue]
      split <;> omega
    have hlow : value = (width.low imm).toNat := by omega
    rw [bits?, ← hvalue, hlow, BitVec.ofInt_natCast, BitVec.ofNat_toNat, BitVec.setWidth_eq]
  · obtain ⟨mask, hencoded, rfl⟩ := Option.map_eq_some_iff.mp hmask
    rw [bits?, maskValue?_bitmask? hencoded, Option.map_some, hbits,
      BitVec.setWidth_setWidth_of_le _ width.bits_le, BitVec.setWidth_eq]

end

end Operand

/-! ## Values that extend their lower bits -/

section

variable {imm : Int64} {width : Width}

private theorem Extends.eq_low {bits : BitVec width.bits} (h : Extends bits imm) :
    bits = width.low imm := by
  rcases h with h | h
  · rw [Width.low, h, BitVec.setWidth_setWidth_of_le _ width.bits_le, BitVec.setWidth_eq]
  · apply BitVec.eq_of_getLsbD_eq
    intro i hi
    have hlt : i < 64 := Nat.lt_of_lt_of_le hi width.bits_le
    rw [Width.low, h, BitVec.getLsbD_setWidth, BitVec.getLsbD_signExtend, decide_eq_true hi,
      decide_eq_true hlt, if_pos hi, Bool.true_and, Bool.true_and]

private theorem extends_low_iff :
    Extends (width.low imm) imm ↔
      width = .x ∨ -0x80000000 ≤ imm.toInt ∧ imm.toInt < 0x100000000 := by
  cases width with
  | w =>
    have hlow : (Width.w.low imm).toNat = imm.toBitVec.toNat % 0x100000000 :=
      toNat_low imm .w
    have hlt := imm.toBitVec.isLt
    have hsign := toInt_cases imm
    have hzeros : imm.toBitVec = (Width.w.low imm).setWidth 64 ↔
        imm.toBitVec.toNat < 0x100000000 := by
      rw [← BitVec.toNat_inj, BitVec.toNat_setWidth]
      omega
    have hsigns : imm.toBitVec = (Width.w.low imm).signExtend 64 ↔
        -0x80000000 ≤ imm.toInt ∧ imm.toInt < 0x80000000 := by
      have hvalue : (Width.w.low imm).toInt =
          if 2 * (Width.w.low imm).toNat < 0x100000000 then ((Width.w.low imm).toNat : Int)
          else (Width.w.low imm).toNat - (0x100000000 : Nat) := BitVec.toInt_eq_toNat_cond _
      rw [← BitVec.toInt_inj, BitVec.toInt_signExtend_of_le (by decide),
        show imm.toBitVec.toInt = imm.toInt from rfl]
      split at hvalue <;> omega
    rw [Extends, hzeros, hsigns]
    simp only [reduceCtorEq, false_or]
    omega
  | x =>
    have hsame : imm.toBitVec = (Width.x.low imm).setWidth 64 := by
      rw [Width.low, BitVec.setWidth_setWidth_of_le _ (by decide), BitVec.setWidth_eq]
    exact ⟨fun _ => .inl rfl, fun _ => .inl hsame⟩

/-- At 32 bits the lower half is also looked for where it has no sign bit below an upper half of
ones, and there the value does not extend it. -/
private theorem sought_of_not_extends_iff :
    Operand.Sought imm width ∧ ¬Extends (width.low imm) imm ↔
      width = .w ∧ -0x100000000 ≤ imm.toInt ∧ imm.toInt < -0x80000000 := by
  rw [extends_low_iff, Operand.Sought]
  cases width with
  | w =>
    simp only [reduceCtorEq, false_or, true_and]
    omega
  | x => simp

private theorem exists_extends_iff {p : BitVec width.bits → Prop} :
    (∃ bits, Extends bits imm ∧ p bits) ↔ Extends (width.low imm) imm ∧ p (width.low imm) := by
  constructor
  · rintro ⟨bits, hextends, hp⟩
    obtain rfl := hextends.eq_low
    exact ⟨hextends, hp⟩
  · exact fun h => ⟨_, h⟩

end

/-- What was found is an operand exactly if the value extends the bits of an immediate, and the
operand stands for bits that the value extends. -/
def FoundFaithfully (imm : Int64) (width : Width) (found : Option Operand) : Prop :=
  (found.isSome = true ↔ ∃ bits, Extends bits imm ∧ IsImmediate width bits) ∧
    ∀ operand, found = some operand →
      ∃ bits, operand.bits? width = some bits ∧ Extends bits imm

/-- An operand is found exactly if the lower bits of the value are looked for and are those of an
immediate, and it stands for these bits. That is faithful to the value unless the operand has 32
bits, the value lies below all that 32 bits can extend to, and its lower half is an immediate all
the same. -/
theorem found_faithfully_iff (imm : Int64) (width : Width) :
    ((∃ bits : BitVec width.bits, Extends bits imm) ↔
      width = .x ∨ -0x80000000 ≤ imm.toInt ∧ imm.toInt < 0x100000000) ∧
    ∃ found, Operand.holding? imm.toInt width.bits = .ok found ∧
      (found.isSome = true ↔ Operand.Sought imm width ∧ IsImmediate width (width.low imm)) ∧
      (∀ operand, found = some operand → operand.bits? width = some (width.low imm)) ∧
      (FoundFaithfully imm width found ↔
        ¬(width = .w ∧ (-0x100000000 ≤ imm.toInt ∧ imm.toInt < -0x80000000) ∧
          IsImmediate width (width.low imm))) := by
  constructor
  · simpa only [and_true, extends_low_iff] using exists_extends_iff (p := fun _ => True)
  · refine ⟨_, Operand.holding?_eq imm width, Operand.isSome_found_iff,
      fun operand => Operand.bits?_found, ?_⟩
    rw [FoundFaithfully, Operand.isSome_found_iff, exists_extends_iff, ← and_assoc,
      ← sought_of_not_extends_iff]
    have hsought : Extends (width.low imm) imm → Operand.Sought imm width := by
      rw [extends_low_iff, Operand.Sought]
      exact Or.imp_right fun h => ⟨by omega, h.2⟩
    constructor
    · rintro ⟨hiff, -⟩ ⟨⟨hlooked, hapart⟩, himmediate⟩
      exact hapart (hiff.mp ⟨hlooked, himmediate⟩).1
    · intro hnone
      have hextends : Operand.Sought imm width ∧ IsImmediate width (width.low imm) →
          Extends (width.low imm) imm := by
        rintro ⟨hlooked, himmediate⟩
        exact Classical.not_not.mp fun hapart => hnone ⟨⟨hlooked, hapart⟩, himmediate⟩
      refine ⟨⟨fun h => ⟨hextends h, h.2⟩, fun h => ⟨hsought h.1, h.2⟩⟩, fun operand hfound => ?_⟩
      have hsome := Operand.isSome_found_iff.mp (Option.isSome_of_eq_some hfound)
      exact ⟨_, Operand.bits?_found hfound, hextends hsome⟩

/-- A negative number whose lower half is a run of ones. -/
theorem minus_sixteen_found :
    ∃ operand, Operand.holding? (-16) 32 = .ok (some operand) ∧
      operand.bits? .w = some 0xFFFFFFF0#32 ∧ FoundFaithfully (-16) .w (some operand) := by
  obtain ⟨-, found, hfound, hsome, hbits, hfaithful⟩ := found_faithfully_iff (-16) .w
  have hmask : IsImmediate .w (Width.w.low (-16)) :=
    .inr ⟨⟨32, 28, 28, by decide, by decide, by decide, by decide⟩, by decide, by decide⟩
  obtain ⟨operand, rfl⟩ := Option.isSome_iff_exists.mp (hsome.mpr ⟨.inr (by decide), hmask⟩)
  refine ⟨operand, hfound, hbits operand rfl, hfaithful.mpr ?_⟩
  rintro ⟨-, ⟨-, hbelow⟩, -⟩
  revert hbelow
  decide

/-- Ones above a lower half of zeros are held as zero, which no half of zeros extends to. -/
theorem ones_above_zero_found :
    Operand.holding? (-0x100000000) 32 = .ok (some (.immediate 0#16 false)) ∧
      (Operand.immediate 0#16 false).bits? .w = some 0#32 ∧
      ¬∃ bits : BitVec 32, Extends bits (-0x100000000 : Int64) := by
  refine ⟨rfl, rfl, ?_⟩
  rintro ⟨bits, hbits⟩
  have hbits' : ∃ bits : BitVec Width.w.bits, Extends bits (-0x100000000) ∧ True :=
    ⟨bits, hbits, trivial⟩
  have hrange := extends_low_iff.mp (exists_extends_iff.mp hbits').1
  revert hrange
  decide

end MachineCode.A64
