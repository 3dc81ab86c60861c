import MachineCode.Violation

/-!
# Displacement fields

A branch keeps its displacement in a bit field: a whole byte or double word after an x86-64 opcode,
or a slice of an A64 word that counts in units of four bytes. Emission, the links of pending
branches and the patches of a bound label all go through `DispField.insert` and `DispField.decode`.
-/

namespace MachineCode

/-- The layout of a displacement field. -/
inductive DispField where
  /-- The byte after an x86-64 opcode. -/
  | rel8
  /-- The double word after an x86-64 opcode. -/
  | rel32
  /-- Bits 25 to 0 of an A64 `b` or `bl`. -/
  | imm26
  /-- Bits 23 to 5 of an A64 `b.cond`, `cbz`, `cbnz` or literal load. -/
  | imm19
  /-- Bits 18 to 5 of an A64 `tbz` or `tbnz`. -/
  | imm14
  deriving DecidableEq, Repr

namespace DispField

def bits : DispField → Nat
  | .rel8 => 8
  | .rel32 => 32
  | .imm26 => 26
  | .imm19 => 19
  | .imm14 => 14

def shift : DispField → Nat
  | .rel8 | .rel32 | .imm26 => 0
  | .imm19 | .imm14 => 5

/-- Logarithm to base two of the unit that the field counts in. -/
def scale : DispField → Nat
  | .rel8 | .rel32 => 0
  | .imm26 | .imm19 | .imm14 => 2

/-- The bits of the word that belong to the field. -/
def mask (f : DispField) : Word :=
  ((BitVec.allOnes f.bits).setWidth 32) <<< f.shift

def unit (f : DispField) : Nat :=
  1 <<< f.scale

/-- How far back displacements reach. -/
def reach (f : DispField) : Nat :=
  1 <<< (f.bits + f.scale - 1)

def min (f : DispField) : Int :=
  -f.reach

def max (f : DispField) : Int :=
  f.reach - f.unit

/-- The displacement is a multiple of the unit and within the field's reach. -/
def Fits (f : DispField) (displacement : Int) : Prop :=
  displacement % f.unit = 0 ∧ f.min ≤ displacement ∧ displacement ≤ f.max

instance (f : DispField) (displacement : Int) : Decidable (f.Fits displacement) :=
  inferInstanceAs (Decidable (_ ∧ _ ∧ _))

/-- Puts a displacement into the field and keeps every other bit of the word. -/
def insert (f : DispField) (displacement : Int) (word : Word) : Word :=
  (word &&& ~~~f.mask) ||| ((BitVec.ofInt 32 (displacement / f.unit) <<< f.shift) &&& f.mask)

/-- Puts a displacement that may not fit into the field. Alignment is checked before reach. -/
def encode (f : DispField) (displacement : Int) (word : Word) : Except EmitError Word :=
  if displacement % f.unit ≠ 0 then
    .error (.misalignedOffset displacement f.unit)
  else if displacement < f.min ∨ f.max < displacement then
    .error (.immediateOverflow displacement f.min f.max)
  else
    .ok (f.insert displacement word)

/-- Puts a displacement that is known to fit into the field. -/
def embed (f : DispField) (displacement : Int) (word : Word) : Except Violation Word :=
  if f.Fits displacement then
    .ok (f.insert displacement word)
  else
    .error (.displacementUnfit displacement)

/-- The displacement in bytes that the field holds. -/
def decode (f : DispField) (word : Word) : Int :=
  (word.extractLsb' f.shift f.bits).toInt * f.unit

end DispField

end MachineCode
