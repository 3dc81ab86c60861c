import MachineCode.A64.BranchWord
import MachineCode.Proofs.Displacement

/-!
# Branch words under rewriting

The bits that tell the family of a branch word are apart from its displacement and from the bit that
its inversion flips, so a site is recognised again after both.
-/

namespace MachineCode.A64

/-! ## Fields of a word -/

theorem getLsbD_field {n : Nat} (lsb : Nat) (v : BitVec n) (i : Nat) :
    (field lsb v).getLsbD i =
      (decide (i < 32) && decide (lsb ≤ i) && v.getLsbD (i - lsb)) := by
  simp only [field, BitVec.getLsbD_shiftLeft, BitVec.getLsbD_setWidth]
  by_cases hi : i < 32
  · by_cases hl : lsb ≤ i
    · simp [hi, hl, Nat.not_lt.mpr hl, show i - lsb < 32 by omega]
    · simp [hl, Nat.lt_of_not_le hl]
  · simp [hi]

theorem getLsbD_flag (position : Nat) (on : Bool) (i : Nat) :
    (flag position on).getLsbD i = (on && decide (i < 32) && decide (i = position)) := by
  cases on with
  | false => simp [flag]
  | true =>
    rw [flag, if_pos rfl, ← BitVec.twoPow_eq, BitVec.getLsbD_twoPow]
    by_cases hi : i = position
    · simp [hi]
    · simp [hi, Ne.symm hi]

theorem field_and {n lsb : Nat} {m : Word}
    (h : field lsb (BitVec.allOnes n) &&& m = 0#32) (v : BitVec n) :
    field lsb v &&& m = 0#32 := by
  apply BitVec.eq_of_getLsbD_eq
  intro i hi
  have hone : (field lsb (BitVec.allOnes n) &&& m).getLsbD i = false := by
    rw [h, BitVec.getLsbD_zero]
  rw [BitVec.getLsbD_and, getLsbD_field, BitVec.getLsbD_allOnes] at hone
  rw [BitVec.getLsbD_and, getLsbD_field, BitVec.getLsbD_zero]
  by_cases hn : i - lsb < n
  · rw [decide_eq_true hn, Bool.and_true] at hone
    rw [Bool.and_right_comm, hone, Bool.false_and]
  · rw [BitVec.getLsbD_of_ge v _ (Nat.le_of_not_lt hn), Bool.and_false, Bool.false_and]

theorem flag_and {position : Nat} {m : Word} (h : flag position true &&& m = 0#32) (on : Bool) :
    flag position on &&& m = 0#32 := by
  cases on with
  | true => exact h
  | false => exact BitVec.zero_and

/-! ## Families -/

namespace BranchKind

/-- The bits that tell a family apart. -/
def familyMask : BranchKind → Word
  | .unconditional => 0x7C000000#32
  | .conditional => 0xFF000010#32
  | .compareAndBranch | .testAndBranch => 0x7E000000#32

def familyBits : BranchKind → Word
  | .unconditional => wordB
  | .conditional => wordBCond
  | .compareAndBranch => wordCbz
  | .testAndBranch => wordTbz

/-- The bit that says on which outcome of the test the branch is taken. -/
def senseBit : BranchKind → Word
  | .unconditional => 0#32
  | .conditional => 1#32
  | .compareAndBranch | .testAndBranch => flag 24 true

private theorem eq_of_familyBits {k k' : BranchKind} {word : Word}
    (h : word &&& k.familyMask = k.familyBits) (h' : word &&& k'.familyMask = k'.familyBits) :
    k = k' := by
  have hboth : k.familyBits &&& k'.familyMask = k'.familyBits &&& k.familyMask := by
    rw [← h, ← h', BitVec.and_assoc, BitVec.and_assoc, BitVec.and_comm k.familyMask]
  revert hboth
  cases k <;> cases k' <;> decide

theorem ofWord?_eq_some_iff {word : Word} {k : BranchKind} :
    ofWord? word = some k ↔ word &&& k.familyMask = k.familyBits := by
  constructor
  · intro h
    simp only [ofWord?] at h
    split at h
    · obtain rfl := Option.some.inj h
      assumption
    · split at h
      · obtain rfl := Option.some.inj h
        assumption
      · split at h
        · obtain rfl := Option.some.inj h
          assumption
        · split at h
          · obtain rfl := Option.some.inj h
            assumption
          · cases h
  · intro h
    simp only [ofWord?]
    split
    · next hb => exact congrArg some (eq_of_familyBits (k := .unconditional) hb h)
    · split
      · next hb => exact congrArg some (eq_of_familyBits (k := .conditional) hb h)
      · split
        · next hb => exact congrArg some (eq_of_familyBits (k := .compareAndBranch) hb h)
        · split
          · next hb => exact congrArg some (eq_of_familyBits (k := .testAndBranch) hb h)
          · cases k <;> contradiction

theorem ofWord?_insert {word : Word} {k : BranchKind} (h : ofWord? word = some k)
    (displacement : Int) : ofWord? (k.field.insert displacement word) = some k := by
  rw [ofWord?_eq_some_iff] at h ⊢
  rw [DispField.insert_and (by cases k <;> decide), h]

private theorem ofWord?_xor {word : Word} {k : BranchKind} (h : ofWord? word = some k) :
    ofWord? (word ^^^ k.senseBit) = some k := by
  rw [ofWord?_eq_some_iff] at h ⊢
  have hsense : k.senseBit &&& k.familyMask = 0#32 := by cases k <;> decide
  rw [← h]
  apply BitVec.eq_of_getLsbD_eq
  intro i _
  have hi : (k.senseBit &&& k.familyMask).getLsbD i = false := by rw [hsense, BitVec.getLsbD_zero]
  rw [BitVec.getLsbD_and] at hi
  rw [BitVec.getLsbD_and, BitVec.getLsbD_and, BitVec.getLsbD_xor, Bool.and_xor_distrib_right, hi,
    Bool.xor_false]

end BranchKind

open BranchKind

/-! ## Inversion -/

private theorem flip_condition (word : Word) :
    (word &&& ~~~0xF#32) ||| (word.setWidth 4 ^^^ 1#4).setWidth 32 = word ^^^ 1#32 := by
  apply BitVec.eq_of_getLsbD_eq
  intro i hi
  have hlow : ∀ j < 32, (~~~0xF#32).getLsbD j = !decide (j < 4) := by decide
  have hone : ∀ j < 32, (1#32).getLsbD j = (1#4).getLsbD j := by decide
  rw [BitVec.getLsbD_or, BitVec.getLsbD_and, BitVec.getLsbD_setWidth, BitVec.getLsbD_xor,
    BitVec.getLsbD_setWidth, BitVec.getLsbD_xor, hlow i hi, hone i hi]
  by_cases h4 : i < 4
  · simp [h4, hi]
  · simp [h4, hi, BitVec.getLsbD_of_ge (1#4) i (by omega)]

theorem invertBranch_eq_xor {word : Word} {k : BranchKind} (h : ofWord? word = some k) :
    invertBranch word = word ^^^ k.senseBit := by
  simp only [invertBranch, h]
  cases k with
  | unconditional => simp only [senseBit, BitVec.xor_zero]
  | conditional => simp only [Condition.invert, Condition.code_ofCode, flip_condition, senseBit]
  | compareAndBranch => rfl
  | testAndBranch => rfl

theorem ofWord?_invertBranch {word : Word} {k : BranchKind} (h : ofWord? word = some k) :
    ofWord? (invertBranch word) = some k := by
  rw [invertBranch_eq_xor h]
  exact ofWord?_xor h

theorem invertBranch_invertBranch {word : Word} {k : BranchKind} (h : ofWord? word = some k) :
    invertBranch (invertBranch word) = word := by
  rw [invertBranch_eq_xor (ofWord?_invertBranch h), invertBranch_eq_xor h, BitVec.xor_assoc,
    BitVec.xor_self, BitVec.xor_zero]

theorem invertBranch_insert {word : Word} {k : BranchKind} (h : ofWord? word = some k)
    (displacement : Int) :
    invertBranch (k.field.insert displacement word) =
      k.field.insert displacement (invertBranch word) := by
  rw [invertBranch_eq_xor (ofWord?_insert h displacement), invertBranch_eq_xor h]
  have hsense : k.senseBit &&& k.field.mask = 0#32 := by cases k <;> decide
  apply BitVec.eq_of_getLsbD_eq
  intro i _
  have hi : (k.senseBit &&& k.field.mask).getLsbD i = false := by rw [hsense, BitVec.getLsbD_zero]
  rw [BitVec.getLsbD_and, DispField.getLsbD_mask] at hi
  rw [BitVec.getLsbD_xor, DispField.getLsbD_insert, DispField.getLsbD_insert, BitVec.getLsbD_xor]
  split
  · next hin =>
    have hs : k.senseBit.getLsbD i = false := by simpa [hin.1, hin.2] using hi
    rw [hs, Bool.xor_false]
  · rfl

/-- Inversion keeps the displacement: the word is itself with its displacement put in, and that
comes out of the inversion again. -/
theorem decode_invertBranch {word : Word} {k : BranchKind} (h : ofWord? word = some k) :
    k.field.decode (invertBranch word) = k.field.decode word := by
  have hsame := invertBranch_insert h (k.field.decode word)
  rw [DispField.insert_decode] at hsame
  rw [hsame]
  exact DispField.decode_insert (k.field.fits_decode word) _

/-- A family with a test has its sense in one bit, and inversion changes no other. -/
theorem invertBranch_changes_iff {word : Word} {k : BranchKind} (h : ofWord? word = some k)
    {position : Nat} (hposition : position < 32) (hsense : k.senseBit = flag position true)
    (i : Nat) : (invertBranch word).getLsbD i ≠ word.getLsbD i ↔ i = position := by
  rw [invertBranch_eq_xor h, hsense, BitVec.getLsbD_xor, getLsbD_flag]
  by_cases hi : i = position
  · simp [hi, hposition]
  · simp [hi]

private theorem invertBranch_of_none {word : Word} (h : ofWord? word = none) :
    invertBranch word = word := by
  simp only [invertBranch, h]

/-- A branch word is recognised again after a displacement was put into it and after its inversion,
and the two can be done in either order. Inversion undoes itself, keeps the displacement, and
changes the one bit that holds the sense of the test. Words that are no branch stay as they are. -/
theorem family_kept_by_rewriting (word : Word) :
    (∀ k, ofWord? word = some k →
      (∀ displacement, k.field.Fits displacement → ∃ result,
        k.field.encode displacement word = .ok result ∧ ofWord? result = some k ∧
        k.field.encode displacement (invertBranch word) = .ok (invertBranch result)) ∧
      ofWord? (invertBranch word) = some k ∧
      invertBranch (invertBranch word) = word ∧
      k.field.decode (invertBranch word) = k.field.decode word ∧
      (k = .conditional →
        ∀ i, (invertBranch word).getLsbD i ≠ word.getLsbD i ↔ i = 0) ∧
      (k = .compareAndBranch ∨ k = .testAndBranch →
        ∀ i, (invertBranch word).getLsbD i ≠ word.getLsbD i ↔ i = 24)) ∧
    (ofWord? word = none → invertBranch word = word) := by
  refine ⟨fun k hk => ⟨fun displacement hfits => ?_, ofWord?_invertBranch hk,
    invertBranch_invertBranch hk, decode_invertBranch hk, ?_, ?_⟩, invertBranch_of_none⟩
  · refine ⟨_, DispField.encode_of_fits hfits word, ofWord?_insert hk displacement, ?_⟩
    rw [DispField.encode_of_fits hfits, invertBranch_insert hk]
  · rintro rfl
    exact invertBranch_changes_iff hk (by decide) (by decide)
  · rintro (rfl | rfl)
    · exact invertBranch_changes_iff hk (by decide) rfl
    · exact invertBranch_changes_iff hk (by decide) rfl

/-- A `tbnz` on the highest bit of a register, whose bit number stands on both sides of the sense
bit, with the farthest displacement back; and a word that is no branch. -/
theorem tbnz_kept_by_rewriting :
    ofWord? 0xB7F80003#32 = some .testAndBranch ∧
      (∃ result, DispField.imm14.encode (-0x8000) 0xB7F80003#32 = .ok result ∧
        ofWord? result = some .testAndBranch ∧
        DispField.imm14.encode (-0x8000) (invertBranch 0xB7F80003#32) =
          .ok (invertBranch result)) ∧
      (∀ i, (invertBranch 0xB7F80003#32).getLsbD i ≠ (0xB7F80003#32).getLsbD i ↔ i = 24) ∧
      invertBranch wordNop = wordNop := by
  have hkind : ofWord? 0xB7F80003#32 = some .testAndBranch := by decide
  obtain ⟨hencode, -, -, -, -, hsense⟩ :=
    (family_kept_by_rewriting 0xB7F80003#32).1 .testAndBranch hkind
  exact ⟨hkind, hencode (-0x8000) (by decide), hsense (.inr rfl),
    (family_kept_by_rewriting wordNop).2 (by decide)⟩

end MachineCode.A64
