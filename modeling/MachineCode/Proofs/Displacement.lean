import MachineCode.Displacement

/-!
# Reading back displacement fields

A displacement that fits its field is read back from it, and putting one in touches no bit outside
the field. What any word holds in the field fits it, and putting that back changes nothing.
-/

namespace MachineCode.DispField

private theorem shift_add_bits_le (f : DispField) : f.shift + f.bits ≤ 32 := by
  cases f <;> decide

theorem getLsbD_mask (f : DispField) (i : Nat) :
    f.mask.getLsbD i = (decide (f.shift ≤ i) && decide (i < f.shift + f.bits)) := by
  have hw := f.shift_add_bits_le
  simp only [mask, BitVec.getLsbD_shiftLeft, BitVec.getLsbD_setWidth, BitVec.getLsbD_allOnes]
  by_cases hi : f.shift ≤ i <;> by_cases hj : i < f.shift + f.bits <;> simp [hi, hj] <;> omega

/-- Inside the field stand the bits of the displacement, outside it those of the word. -/
theorem getLsbD_insert (f : DispField) (displacement : Int) (word : Word) (i : Nat) :
    (f.insert displacement word).getLsbD i =
      if f.shift ≤ i ∧ i < f.shift + f.bits then
        (BitVec.ofInt 32 (displacement / f.unit)).getLsbD (i - f.shift)
      else word.getLsbD i := by
  have hw := f.shift_add_bits_le
  simp only [insert, BitVec.getLsbD_or, BitVec.getLsbD_and, BitVec.getLsbD_not, getLsbD_mask,
    BitVec.getLsbD_shiftLeft]
  by_cases hin : f.shift ≤ i ∧ i < f.shift + f.bits
  · have h32 : i < 32 := by omega
    simp [hin.1, hin.2, h32]
  · by_cases h32 : i < 32
    · have hmask : (decide (f.shift ≤ i) && decide (i < f.shift + f.bits)) = false := by
        simpa using hin
      simp [hin, hmask, h32]
    · simp [hin, h32, BitVec.getLsbD_of_ge _ _ (Nat.le_of_not_lt h32)]

theorem insert_insert (f : DispField) (new old : Int) (word : Word) :
    f.insert new (f.insert old word) = f.insert new word := by
  apply BitVec.eq_of_getLsbD_eq
  intro i _
  rw [getLsbD_insert, getLsbD_insert, getLsbD_insert]
  split <;> rfl

theorem insert_and {f : DispField} {other : Word} (apart : other &&& f.mask = 0#32)
    (displacement : Int) (word : Word) : f.insert displacement word &&& other = word &&& other := by
  apply BitVec.eq_of_getLsbD_eq
  intro i _
  have hi : (other &&& f.mask).getLsbD i = false := by rw [apart, BitVec.getLsbD_zero]
  rw [BitVec.getLsbD_and, getLsbD_mask] at hi
  rw [BitVec.getLsbD_and, BitVec.getLsbD_and, getLsbD_insert]
  split
  · next hin =>
    have ho : other.getLsbD i = false := by simpa [hin.1, hin.2] using hi
    rw [ho, Bool.and_false, Bool.and_false]
  · rfl

theorem insert_and_not_mask (f : DispField) (displacement : Int) (word : Word) :
    f.insert displacement word &&& ~~~f.mask = word &&& ~~~f.mask := by
  apply insert_and
  rw [BitVec.and_comm, BitVec.and_not_self]
  rfl

private theorem setWidth_ofInt {n : Nat} (hn : n ≤ 32) (x : Int) :
    (BitVec.ofInt 32 x).setWidth n = BitVec.ofInt n x := by
  apply BitVec.eq_of_toNat_eq
  have hdvd : ((2 ^ n : Nat) : Int) ∣ ((2 ^ 32 : Nat) : Int) :=
    Int.natCast_dvd_natCast.mpr (Nat.pow_dvd_pow 2 hn)
  have hpos : 0 ≤ x % ((2 ^ 32 : Nat) : Int) := Int.emod_nonneg _ (by decide)
  rw [BitVec.toNat_setWidth, BitVec.toNat_ofInt, BitVec.toNat_ofInt, ← Int.emod_emod_of_dvd x hdvd,
    Int.toNat_emod hpos (Int.natCast_nonneg _), Int.toNat_natCast]

private theorem extractLsb'_insert (f : DispField) (displacement : Int) (word : Word) :
    (f.insert displacement word).extractLsb' f.shift f.bits =
      BitVec.ofInt f.bits (displacement / f.unit) := by
  have hw := f.shift_add_bits_le
  apply BitVec.eq_of_getLsbD_eq
  intro i hi
  have hin : f.shift ≤ f.shift + i ∧ f.shift + i < f.shift + f.bits := by omega
  rw [BitVec.getLsbD_extractLsb', getLsbD_insert, if_pos hin, Nat.add_sub_cancel_left,
    ← setWidth_ofInt (show f.bits ≤ 32 by omega), BitVec.getLsbD_setWidth]

theorem extractLsb'_insert_of_apart (f : DispField) (lo n : Nat)
    (apart : lo + n ≤ f.shift ∨ f.shift + f.bits ≤ lo) (displacement : Int) (word : Word) :
    (f.insert displacement word).extractLsb' lo n = word.extractLsb' lo n := by
  apply BitVec.eq_of_getLsbD_eq
  intro i hi
  rw [BitVec.getLsbD_extractLsb', BitVec.getLsbD_extractLsb', getLsbD_insert, if_neg]
  omega

private theorem toInt_ofInt_of_fits {f : DispField} {displacement : Int} (h : f.Fits displacement) :
    (BitVec.ofInt f.bits (displacement / f.unit)).toInt = displacement / f.unit := by
  obtain ⟨_, hmin, hmax⟩ := h
  rw [BitVec.toInt_ofInt]
  cases f <;>
    simp only [min, max, reach, unit, bits, scale, Nat.reduceShiftLeft] at hmin hmax ⊢ <;>
    apply Int.bmod_eq_of_le <;> omega

/-- A displacement that fits is read back. -/
theorem decode_insert {f : DispField} {displacement : Int} (h : f.Fits displacement)
    (word : Word) : f.decode (f.insert displacement word) = displacement := by
  rw [decode, extractLsb'_insert, toInt_ofInt_of_fits h]
  exact Int.ediv_mul_cancel (Int.dvd_of_emod_eq_zero h.1)

private theorem embed_eq_ok {f : DispField} {displacement : Int} {word result : Word} :
    f.embed displacement word = .ok result ↔
      f.Fits displacement ∧ result = f.insert displacement word := by
  unfold embed
  split <;> simp [*, eq_comm]

theorem embed_of_fits {f : DispField} {displacement : Int} (h : f.Fits displacement)
    (word : Word) : f.embed displacement word = .ok (f.insert displacement word) :=
  embed_eq_ok.mpr ⟨h, rfl⟩

theorem fits_rel8 {displacement : Int} :
    rel8.Fits displacement ↔ -128 ≤ displacement ∧ displacement ≤ 127 := by
  simp only [Fits, min, max, reach, unit, bits, scale, Nat.reduceShiftLeft]
  omega

theorem fits_imm26 {displacement : Int} :
    imm26.Fits displacement ↔
      displacement % 4 = 0 ∧ -0x8000000 ≤ displacement ∧ displacement ≤ 0x7FFFFFC :=
  Iff.rfl

theorem toInt_ofInt_rel8 {displacement : Int} (h : rel8.Fits displacement) :
    (BitVec.ofInt 8 displacement).toInt = displacement := by
  simpa [unit, scale, bits] using toInt_ofInt_of_fits h

theorem toInt_ofInt_rel32 {displacement : Int} (h : rel32.Fits displacement) :
    (BitVec.ofInt 32 displacement).toInt = displacement := by
  simpa [unit, scale, bits] using toInt_ofInt_of_fits h

/-! ## The codec -/

theorem fits_decode (f : DispField) (word : Word) : f.Fits (f.decode word) := by
  have hlow := (word.extractLsb' f.shift f.bits).le_two_mul_toInt
  have hhigh := (word.extractLsb' f.shift f.bits).two_mul_toInt_lt
  rw [decode]
  generalize (word.extractLsb' f.shift f.bits).toInt = content at hlow hhigh
  cases f <;>
    simp only [Fits, min, max, reach, unit, bits, scale, Nat.reduceShiftLeft] at hlow hhigh ⊢ <;>
    omega

private theorem decode_ediv_unit (f : DispField) (word : Word) :
    f.decode word / f.unit = (word.extractLsb' f.shift f.bits).toInt := by
  apply Int.mul_ediv_cancel
  cases f <;> decide

theorem insert_decode (f : DispField) (word : Word) : f.insert (f.decode word) word = word := by
  apply BitVec.eq_of_getLsbD_eq
  intro i hi
  rw [getLsbD_insert]
  split
  · next hin =>
    have hbit : i - f.shift < f.bits := by omega
    have hextended : BitVec.ofInt 32 (f.decode word / f.unit) =
        (word.extractLsb' f.shift f.bits).signExtend 32 := by
      rw [decode_ediv_unit]
      rfl
    rw [hextended, BitVec.getLsbD_signExtend, if_pos hbit, BitVec.getLsbD_extractLsb',
      decide_eq_true hbit, decide_eq_true (show i - f.shift < 32 by omega),
      Nat.add_sub_of_le hin.1]
    rfl
  · rfl

theorem encode_of_fits {f : DispField} {displacement : Int} (h : f.Fits displacement)
    (word : Word) : f.encode displacement word = .ok (f.insert displacement word) := by
  have hreach : ¬(displacement < f.min ∨ f.max < displacement) :=
    not_or.mpr ⟨Int.not_lt.mpr h.2.1, Int.not_lt.mpr h.2.2⟩
  rw [encode, if_neg (not_not_intro h.1), if_neg hreach]

private theorem encode_of_misaligned {f : DispField} {displacement : Int}
    (h : displacement % f.unit ≠ 0) (word : Word) :
    f.encode displacement word = .error (.misalignedOffset displacement f.unit) := by
  rw [encode, if_pos h]

private theorem encode_of_beyond {f : DispField} {displacement : Int}
    (h : displacement % f.unit = 0) (hreach : displacement < f.min ∨ f.max < displacement)
    (word : Word) :
    f.encode displacement word = .error (.immediateOverflow displacement f.min f.max) := by
  rw [encode, if_neg (not_not_intro h), if_pos hreach]

private theorem fits_or_refused (f : DispField) (displacement : Int) :
    f.Fits displacement ∨ displacement % f.unit ≠ 0 ∨
      displacement % f.unit = 0 ∧ (displacement < f.min ∨ f.max < displacement) := by
  simp only [Fits]
  omega

theorem encode_eq_ok {f : DispField} {displacement : Int} {word result : Word} :
    f.encode displacement word = .ok result ↔
      f.Fits displacement ∧ result = f.insert displacement word := by
  constructor
  · intro h
    rcases f.fits_or_refused displacement with hfits | hmisaligned | ⟨haligned, hreach⟩
    · rw [encode_of_fits hfits] at h
      exact ⟨hfits, (Except.ok.inj h).symm⟩
    · rw [encode_of_misaligned hmisaligned] at h
      cases h
    · rw [encode_of_beyond haligned hreach] at h
      cases h
  · rintro ⟨hfits, rfl⟩
    exact encode_of_fits hfits word

/-- A displacement is encoded exactly if it fits, and a refusal names what is wrong with it, the
alignment first. An encoded displacement is read back from a word that differs from the given one
inside the field only. Whatever a word holds in the field can be encoded, and gives the word again.
-/
theorem encode_decode_inverse (f : DispField) (displacement : Int) (word : Word) :
    ((∃ result, f.encode displacement word = .ok result) ↔ f.Fits displacement) ∧
    (f.encode displacement word = .error (.misalignedOffset displacement f.unit) ↔
      displacement % f.unit ≠ 0) ∧
    (f.encode displacement word = .error (.immediateOverflow displacement f.min f.max) ↔
      displacement % f.unit = 0 ∧ (displacement < f.min ∨ f.max < displacement)) ∧
    (∀ result, f.encode displacement word = .ok result →
      f.decode result = displacement ∧ result &&& ~~~f.mask = word &&& ~~~f.mask) ∧
    f.Fits (f.decode word) ∧ f.encode (f.decode word) word = .ok word := by
  refine ⟨?_, ?_, ?_, ?_, f.fits_decode word, ?_⟩
  · constructor
    · rintro ⟨result, h⟩
      exact (encode_eq_ok.mp h).1
    · exact fun h => ⟨_, encode_of_fits h word⟩
  · refine ⟨fun h => ?_, fun h => encode_of_misaligned h word⟩
    rcases f.fits_or_refused displacement with hfits | hmisaligned | ⟨haligned, hreach⟩
    · rw [encode_of_fits hfits] at h
      cases h
    · exact hmisaligned
    · rw [encode_of_beyond haligned hreach] at h
      cases h
  · refine ⟨fun h => ?_, fun h => encode_of_beyond h.1 h.2 word⟩
    rcases f.fits_or_refused displacement with hfits | hmisaligned | hbeyond
    · rw [encode_of_fits hfits] at h
      cases h
    · rw [encode_of_misaligned hmisaligned] at h
      cases h
    · exact hbeyond
  · intro result h
    obtain ⟨hfits, rfl⟩ := encode_eq_ok.mp h
    exact ⟨decode_insert hfits word, f.insert_and_not_mask displacement word⟩
  · rw [encode_of_fits (f.fits_decode word), f.insert_decode word]

/-- The least displacement of a conditional branch, put into a word of ones. -/
theorem farthest_back_inverse :
    ∃ result, imm19.encode (-0x100000) 0xFFFFFFFF#32 = .ok result ∧
      imm19.decode result = -0x100000 ∧
      result &&& ~~~imm19.mask = 0xFFFFFFFF#32 &&& ~~~imm19.mask := by
  have hcodec := encode_decode_inverse .imm19 (-0x100000) 0xFFFFFFFF#32
  obtain ⟨result, hresult⟩ := hcodec.1.mpr (by decide)
  exact ⟨result, hresult, hcodec.2.2.2.1 result hresult⟩

end MachineCode.DispField
