import MachineCode.Proofs.Run

/-!
# A64 branches lead to their labels

Without far branches, the word of a branch is, bit for bit, the one that was asked for with the way
to the final position of its label in the displacement field.
-/

namespace MachineCode.A64

open Session

/-! ## Words, bit by bit -/

namespace Branch

def Encodable : Branch → Prop
  | .jump _ => True
  | .onCondition condition => condition ≠ .nv
  | .compare _ rt _ => rt ≠ .sp
  | .test _ rt bit => rt ≠ .sp ∧ bit < 64

/-- The number of a register in a field that cannot name the stack pointer. -/
def number : Register → BitVec 5
  | .x number => BitVec.ofNat 5 number
  | .zr | .sp => 31#5

/-- The word of a branch from the highest bit down, with zeros for the displacement. -/
def frame : Branch → Word
  | .jump link => BitVec.ofBool link ++ 0b00101#5 ++ 0#26
  | .onCondition .al => 0b000101#6 ++ 0#26
  | .onCondition condition => 0b01010100#8 ++ 0#19 ++ 0#1 ++ condition.code
  | .compare nonzero rt width =>
    BitVec.ofBool (width = .doubleWord) ++ 0b011010#6 ++ BitVec.ofBool nonzero ++ 0#19 ++ number rt
  | .test set rt bit =>
    BitVec.ofBool (32 ≤ bit) ++ 0b011011#6 ++ BitVec.ofBool set ++ BitVec.ofNat 5 bit ++ 0#14 ++
      number rt

end Branch

private theorem append_or_field (high : BitVec 27) (rt : BitVec 5) :
    (high ++ 0#5 : Word) ||| field 0 rt = high ++ rt := by
  apply BitVec.eq_of_getLsbD_eq
  intro i hi
  rw [BitVec.getLsbD_or, BitVec.getLsbD_append, BitVec.getLsbD_append, getLsbD_field,
    BitVec.getLsbD_zero]
  by_cases h5 : i < 5
  · simp [h5, hi]
  · simp [h5, BitVec.getLsbD_of_ge rt i (Nat.le_of_not_lt h5)]

private theorem compare_frame (wide nonzero : Bool) (rt : BitVec 5) :
    wordCbz ||| flag 31 wide ||| flag 24 nonzero ||| field 0 rt =
      BitVec.ofBool wide ++ 0b011010#6 ++ BitVec.ofBool nonzero ++ 0#19 ++ rt := by
  have hhigh : ∀ wide nonzero : Bool, wordCbz ||| flag 31 wide ||| flag 24 nonzero =
      BitVec.ofBool wide ++ 0b011010#6 ++ BitVec.ofBool nonzero ++ 0#19 ++ 0#5 := by
    decide
  rw [hhigh]
  exact append_or_field _ rt

private theorem test_frame (bit : Fin 64) (set : Bool) (rt : BitVec 5) :
    wordTbz ||| field 31 ((BitVec.ofNat 6 bit).extractLsb' 5 1) ||| flag 24 set |||
      field 19 ((BitVec.ofNat 6 bit).extractLsb' 0 5) ||| field 0 rt =
      BitVec.ofBool (decide (32 ≤ bit.val)) ++ 0b011011#6 ++ BitVec.ofBool set ++
        BitVec.ofNat 5 bit ++ 0#14 ++ rt := by
  have hhigh : ∀ (bit : Fin 64) (set : Bool),
      wordTbz ||| field 31 ((BitVec.ofNat 6 bit).extractLsb' 5 1) ||| flag 24 set |||
        field 19 ((BitVec.ofNat 6 bit).extractLsb' 0 5) =
        BitVec.ofBool (decide (32 ≤ bit.val)) ++ 0b011011#6 ++ BitVec.ofBool set ++
          BitVec.ofNat 5 bit ++ 0#14 ++ 0#5 := by
    decide +kernel
  rw [hhigh]
  exact append_or_field _ rt

private theorem slot_eq_number {rt : Register} (h : rt ≠ .sp) :
    (rt.slot .zero).getD 0#5 = Branch.number rt := by
  cases rt with
  | x number => rfl
  | zr => rfl
  | sp => contradiction

theorem word_eq_frame {branch : Branch} (h : branch.Encodable) : branch.word = branch.frame := by
  cases branch with
  | jump link => cases link <;> decide
  | onCondition condition => cases condition <;> decide
  | compare nonzero rt width =>
    rw [Branch.word, slot_eq_number h]
    exact compare_frame _ nonzero _
  | test set rt bit =>
    rw [Branch.word, slot_eq_number h.1]
    exact test_frame ⟨bit, h.2⟩ set _

private theorem insert_and_not_mask {branch : Branch} (h : branch.Encodable) (displacement : Int) :
    branch.kind.field.insert displacement branch.word &&& ~~~branch.kind.field.mask =
      branch.frame := by
  have hzero := word_and_mask branch
  rw [DispField.insert_and_not_mask, ← word_eq_frame h]
  calc branch.word &&& ~~~branch.kind.field.mask
      = (branch.word &&& ~~~branch.kind.field.mask) |||
          (branch.word &&& branch.kind.field.mask) := by
        rw [hzero, BitVec.or_zero]
    _ = branch.word := by
        rw [← BitVec.and_or_distrib_left, BitVec.not_or_self, BitVec.and_allOnes]

/-! ## What is accepted -/

private theorem registerField_eq_ok {rt : Register} {offset : Nat} {word : Word}
    (h : registerField 0 .zero rt offset = .ok word) : rt ≠ .sp := by
  rintro rfl
  cases h

private theorem run_encodable (far : Bool) (branch : Branch) (s : Linking) :
    Ends (branch.run far) s (fun _ _ => branch.Encodable) (fun _ _ => True) := by
  cases branch with
  | jump link => exact ends_of_true trivial
  | onCondition condition =>
    by_cases hnv : condition = .nv
    · subst hnv
      exact trivial
    · exact ends_of_true hnv
  | compare nonzero rt width =>
    simp only [Branch.run, ends_bind, ends_size]
    rw [ends_checked]
    refine ⟨fun word hword => ends_of_true ?_, fun _ _ => trivial⟩
    simp only [compareWord, except_bind_eq_ok] at hword
    obtain ⟨slot, hslot, -⟩ := hword
    exact registerField_eq_ok hslot
  | test set rt bit =>
    simp only [Branch.run, ends_bind, ends_size]
    rw [ends_checked]
    refine ⟨fun word hword => ends_of_true ?_, fun _ _ => trivial⟩
    simp only [testWord, except_bind_eq_ok, unsignedField] at hword
    obtain ⟨number, hbit, slot, hslot, -⟩ := hword
    refine ⟨registerField_eq_ok hslot, ?_⟩
    split at hbit
    · assumption
    · cases hbit

theorem encodable_of_replied {events : List Event} {s : Session} {i : Nat} {a : Assembler}
    {name : String} {branch : Branch} (h : Replied events s i a (.a64Branch name branch)) :
    branch.Encodable := by
  obtain ⟨before, rest, -, rfl, ha, hreply⟩ := h
  rw [step_eq ha] at hreply
  obtain ⟨target, buffer⟩ := a
  cases target with
  | x86 => cases hreply
  | bare => cases hreply
  | a64 far =>
    have hends := run_encodable far branch ⟨buffer, (empty.run before).labels.get name⟩
    simp only [Assembler.serve, onLabel] at hreply
    simp only [Ends] at hends
    cases hrun : branch.run far ⟨buffer, (empty.run before).labels.get name⟩ with
    | ok u t =>
      rw [hrun] at hends
      exact hends
    | error failure t =>
      rw [hrun] at hreply
      cases hreply

/-! ## Resolution -/

/-- Without far branches, the word of a branch is of its family, leads to the final position of its
label, and is elsewhere as it was asked for. -/
theorem branch_word_resolved {events : List Event} {s : Session} {i : Nat} {a b : Assembler}
    {name : String} {branch : Branch} {p : Nat}
    (hmade : Replied events s i a (.a64Branch name branch)) (hnear : a.target = .a64 false)
    (hb : (empty.run events).assembler? i = some b)
    (hp : ((empty.run events).labels.get name).position? = some p) :
    ∃ word, b.buffer.loadWord a.buffer.size = .ok word ∧
      BranchKind.ofWord? word = some branch.kind ∧
      (a.buffer.size : Int) + branch.kind.field.decode word = p ∧
      word &&& ~~~branch.kind.field.mask = branch.frame := by
  have hissue : Request.issue? s.labels a (.a64Branch name branch) =
      some ⟨name, a.buffer.size, .single branch.word⟩ := by
    simp only [Request.issue?, hnear, Branch.shape, or_true, if_true]
  obtain ⟨hgranted, hreach, hholds⟩ := hmade.resolved hissue hb hp
  have hk := ofWord?_word branch
  simp only [Shape.Reaches, Shape.distance, Issue.site, Shape.opcode, List.length_nil,
    Nat.add_zero, fieldOf_eq hk] at hreach
  simp only [Shape.patch, Shape.distance, Issue.site, Shape.opcode, List.length_nil,
    Nat.add_zero, fieldOf_eq hk, List.nil_append] at hholds
  refine ⟨branch.kind.field.insert (p - a.buffer.size) branch.word,
    CodeBuffer.loadWord_eq_of_holds hgranted hholds, BranchKind.ofWord?_insert hk _, ?_,
    insert_and_not_mask (encodable_of_replied hmade) _⟩
  rw [DispField.decode_insert hreach]
  omega

/-- Branches of all families to one label, around a raw word that is a branch itself. -/
private def sampleRun : List Event :=
  [.add 4096 .a64 { Options.standard with initialCapacity := 64 },
   .request 0 (.a64Branch "out" (.test true .fp 37)),
   .request 0 (.a64Branch "out" (.jump true)),
   .request 0 (.a64 (.word 0x36000042#32)),
   .request 0 (.a64Branch "out" (.test false .sp 1)),
   .request 0 (.a64Branch "out" (.test false .zr 63)),
   .request 0 (.a64Branch "out" (.onCondition .hi)),
   .request 0 (.a64Branch "out" (.compare true .lr .doubleWord)),
   .request 0 (.bind "out")]

theorem sampleRun_word_resolved :
    ∃ s a b, Replied sampleRun s 0 a (.a64Branch "out" (.test false .zr 63)) ∧
      a.target = .a64 false ∧ (empty.run sampleRun).assembler? 0 = some b ∧
      ((empty.run sampleRun).labels.get "out").position? = some 24 ∧
      ∃ word, b.buffer.loadWord a.buffer.size = .ok word ∧
        BranchKind.ofWord? word = some .testAndBranch ∧
        (a.buffer.size : Int) + DispField.imm14.decode word = 24 ∧
        word &&& ~~~DispField.imm14.mask = 0xB6F8001F#32 := by
  obtain ⟨a, ha, hnear⟩ := Option.map_eq_some_iff.mp
    (show ((empty.run (sampleRun.take 5)).assembler? 0).map Assembler.target = some (.a64 false) by
      decide +kernel)
  obtain ⟨b, hb⟩ := Option.isSome_iff_exists.mp
    (show ((empty.run sampleRun).assembler? 0).isSome = true by decide +kernel)
  have hmade : Replied sampleRun (empty.run (sampleRun.take 5)) 0 a
      (.a64Branch "out" (.test false .zr 63)) :=
    ⟨sampleRun.take 5, sampleRun.drop 6, rfl, rfl, ha, by decide +kernel⟩
  have hp : ((empty.run sampleRun).labels.get "out").position? = some 24 := by decide +kernel
  exact ⟨_, a, b, hmade, hnear, hb, hp, branch_word_resolved hmade hnear hb hp⟩

end MachineCode.A64
