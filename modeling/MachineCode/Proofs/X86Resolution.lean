import MachineCode.Proofs.Run

/-!
# x86-64 branches lead to their labels

Whatever else happened in the session, a branch leads to the final position of its label, whether
the label was bound before or after the branch was emitted.
-/

namespace MachineCode.X86

open Session

/-- The opcode of a branch in the form with a displacement of one byte, or of four. -/
def opcodeOf (short : Bool) : Branch → List Byte
  | .jump .always _ => if short then [0xEB#8] else [0xE9#8]
  | .jump (.onCondition condition) _ =>
    if short then [0x70#8 + condition.code.setWidth 8]
    else [0x0F#8, 0x80#8 + condition.code.setWidth 8]
  | .call => [0xE8#8]

/-- The code at `start` is the branch in the given form, and its displacement, counted from the end
of the instruction, leads to `target`. -/
def LeadsTo (branch : Branch) (short : Bool) (code : Array Byte) (start target : Nat) : Prop :=
  if short then
    ∃ rel : BitVec 8, Holds code start (opcodeOf true branch ++ [rel]) ∧
      ((start + (opcodeOf true branch).length + 1 : Nat) : Int) + rel.toInt = target
  else
    ∃ rel : BitVec 32, Holds code start (opcodeOf false branch ++ littleEndian 4 rel) ∧
      ((start + (opcodeOf false branch).length + 4 : Nat) : Int) + rel.toInt = target

private theorem opcodeOf_short (jump : Jump) (distance : Distance) :
    opcodeOf true (.jump jump distance) = jump.shortOpcode := by
  cases jump with
  | always => rfl
  | onCondition condition => cases condition <;> rfl

private theorem opcodeOf_long (jump : Jump) (distance : Distance) :
    opcodeOf false (.jump jump distance) = jump.longOpcode := by
  cases jump with
  | always => rfl
  | onCondition condition => cases condition <;> rfl

private theorem leadsTo_short {branch : Branch} {name : String} {code : Array Byte}
    {start target : Nat}
    (h : Issue.Resolved ⟨name, start, .short (opcodeOf true branch)⟩ target code) :
    LeadsTo branch true code start target := by
  obtain ⟨hreach, hholds⟩ := h
  refine ⟨_, hholds, ?_⟩
  rw [DispField.toInt_ofInt_rel8 hreach]
  simp only [Shape.distance, Issue.site, Shape.opcode]
  omega

private theorem leadsTo_long {branch : Branch} {name : String} {code : Array Byte}
    {start target : Nat}
    (h : Issue.Resolved ⟨name, start, .long (opcodeOf false branch)⟩ target code) :
    LeadsTo branch false code start target := by
  obtain ⟨hreach, hholds⟩ := h
  refine ⟨_, hholds, ?_⟩
  rw [DispField.toInt_ofInt_rel32 hreach]
  simp only [Shape.distance, Issue.site, Shape.opcode]
  omega

/-- The form that a branch at `start` takes: a jump to a bound label is short if a byte reaches it,
one to an unbound label is what was asked for, and a call is never short. -/
def isShort (branch : Branch) (position : Option Nat) (start : Nat) : Bool :=
  match branch, position with
  | .jump _ _, some target =>
    -128 ≤ (target : Int) - (start + 2) ∧ (target : Int) - (start + 2) ≤ 127
  | .jump _ distance, none => distance = .near
  | .call, _ => false

private theorem shape_eq (branch : Branch) (position : Option Nat) (start : Nat) :
    branch.shape position start =
      if isShort branch position start then .short (opcodeOf true branch)
      else .long (opcodeOf false branch) := by
  cases branch with
  | call => rfl
  | jump j distance =>
    rw [opcodeOf_short, opcodeOf_long]
    cases position with
    | none => cases distance <;> rfl
    | some target =>
      have hfits : DispField.rel8.Fits (target - (start + j.shortOpcode.length + 1)) ↔
          -128 ≤ (target : Int) - (start + 2) ∧ (target : Int) - (start + 2) ≤ 127 := by
        rw [DispField.fits_rel8, length_shortOpcode]
        omega
      simp only [Branch.shape, isShort, hfits, decide_eq_true_eq]

/-- Every branch leads to the final position of its label, in the form that was due when it was
emitted. -/
theorem branch_leadsTo_label {events : List Event} {s : Session} {i : Nat} {a b : Assembler}
    {name : String} {branch : Branch} {p : Nat}
    (hmade : Replied events s i a (.x86Branch name branch))
    (hb : (empty.run events).assembler? i = some b)
    (hp : ((empty.run events).labels.get name).position? = some p) :
    LeadsTo branch (isShort branch (s.labels.get name).position? a.buffer.size) b.buffer.bytes
      a.buffer.size p := by
  obtain ⟨-, hresolved⟩ := hmade.resolved rfl hb hp
  rw [shape_eq] at hresolved
  cases hshort : isShort branch (s.labels.get name).position? a.buffer.size with
  | true =>
    rw [hshort] at hresolved
    exact leadsTo_short hresolved
  | false =>
    rw [hshort] at hresolved
    exact leadsTo_long hresolved

/-- Two jumps forward around raw bytes, a call, the binding and a jump back. -/
private def sampleRun : List Event :=
  [.add 4096 .x86 { Options.standard with initialCapacity := 64 },
   .request 0 (.x86Branch "out" (.jump .always .far)),
   .request 0 (.x86 (.bytes [0x0F#8, 0x1F#8, 0x00#8])),
   .request 0 (.x86Branch "out" (.jump (.onCondition .below) .near)),
   .request 0 (.bind "in"),
   .request 0 (.x86Branch "out" .call),
   .request 0 (.bind "out"),
   .request 0 (.x86Branch "in" (.jump .always .far))]

theorem sampleRun_leadsTo_out :
    ∃ s a b, Replied sampleRun s 0 a (.x86Branch "out" (.jump (.onCondition .below) .near)) ∧
      (empty.run sampleRun).assembler? 0 = some b ∧
      ((empty.run sampleRun).labels.get "out").position? = some 15 ∧
      LeadsTo (.jump (.onCondition .below) .near)
        (isShort (.jump (.onCondition .below) .near) (s.labels.get "out").position? a.buffer.size)
        b.buffer.bytes a.buffer.size 15 := by
  obtain ⟨a, ha⟩ := Option.isSome_iff_exists.mp
    (show ((empty.run (sampleRun.take 3)).assembler? 0).isSome = true by decide +kernel)
  obtain ⟨b, hb⟩ := Option.isSome_iff_exists.mp
    (show ((empty.run sampleRun).assembler? 0).isSome = true by decide +kernel)
  have hmade : Replied sampleRun (empty.run (sampleRun.take 3)) 0 a
      (.x86Branch "out" (.jump (.onCondition .below) .near)) :=
    ⟨sampleRun.take 3, sampleRun.drop 4, rfl, rfl, ha, by decide +kernel⟩
  have hp : ((empty.run sampleRun).labels.get "out").position? = some 15 := by decide +kernel
  exact ⟨_, a, b, hmade, hb, hp, branch_leadsTo_label hmade hb hp⟩

end MachineCode.X86
