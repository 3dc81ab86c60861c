/-!
# A64 condition codes

The sixteen codes come in pairs that differ in the lowest bit and negate each other, except that the
last pair holds always.
-/

namespace MachineCode.A64

inductive Condition where
  | eq | ne | cs | cc | mi | pl | vs | vc | hi | ls | ge | lt | gt | le | al | nv
  deriving DecidableEq, Repr

namespace Condition

def hs : Condition := .cs

def lo : Condition := .cc

/-- The four-bit code of a condition. -/
def code : Condition → BitVec 4
  | .eq => 0 | .ne => 1 | .cs => 2 | .cc => 3
  | .mi => 4 | .pl => 5 | .vs => 6 | .vc => 7
  | .hi => 8 | .ls => 9 | .ge => 10 | .lt => 11
  | .gt => 12 | .le => 13 | .al => 14 | .nv => 15

def ofCode (code : BitVec 4) : Condition :=
  match code.toNat with
  | 0 => .eq | 1 => .ne | 2 => .cs | 3 => .cc
  | 4 => .mi | 5 => .pl | 6 => .vs | 7 => .vc
  | 8 => .hi | 9 => .ls | 10 => .ge | 11 => .lt
  | 12 => .gt | 13 => .le | 14 => .al | _ => .nv

/-- The condition whose code differs in the lowest bit. -/
def invert (condition : Condition) : Condition :=
  ofCode (condition.code ^^^ 1#4)

@[simp] theorem ofCode_code (condition : Condition) : ofCode condition.code = condition := by
  cases condition <;> rfl

@[simp] theorem code_ofCode (code : BitVec 4) : (ofCode code).code = code := by
  revert code
  decide

@[simp] theorem invert_invert (condition : Condition) : condition.invert.invert = condition := by
  cases condition <;> rfl

end Condition

end MachineCode.A64
