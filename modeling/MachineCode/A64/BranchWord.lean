import MachineCode.Displacement
import MachineCode.A64.Condition

/-!
# Branch words

A pending site is recognised from its word alone, so binding needs no record of what was emitted.
-/

namespace MachineCode.A64

def wordB : Word := 0x14000000#32

def wordBl : Word := 0x94000000#32

/-- `b.cond` with displacement zero; the condition is in the lowest four bits. -/
def wordBCond : Word := 0x54000000#32

/-- `cbz` with displacement zero; bit 24 makes it `cbnz`. -/
def wordCbz : Word := 0x34000000#32

/-- `tbz` with displacement zero; bit 24 makes it `tbnz`. -/
def wordTbz : Word := 0x36000000#32

def wordNop : Word := 0xD503201F#32

/-- The families of branches relative to the instruction. -/
inductive BranchKind where
  | unconditional
  | conditional
  | compareAndBranch
  | testAndBranch
  deriving DecidableEq, Repr

namespace BranchKind

def ofWord? (word : Word) : Option BranchKind :=
  if word &&& 0x7C000000#32 = wordB then some .unconditional
  else if word &&& 0xFF000010#32 = wordBCond then some .conditional
  else if word &&& 0x7E000000#32 = wordCbz then some .compareAndBranch
  else if word &&& 0x7E000000#32 = wordTbz then some .testAndBranch
  else none

def field : BranchKind → DispField
  | .unconditional => .imm26
  | .conditional | .compareAndBranch => .imm19
  | .testAndBranch => .imm14

end BranchKind

/-- The same branch on the opposite outcome of its test. Words without a test stay as they are. -/
def invertBranch (word : Word) : Word :=
  match BranchKind.ofWord? word with
  | some .conditional =>
    let condition := Condition.ofCode (word.setWidth 4)
    (word &&& ~~~0xF#32) ||| condition.invert.code.setWidth 32
  | some .compareAndBranch | some .testAndBranch => word ^^^ flag 24 true
  | _ => word

end MachineCode.A64
