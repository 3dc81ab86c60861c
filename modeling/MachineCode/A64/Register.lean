/-!
# A64 registers

Number 31 of a register field means the zero register or the stack pointer, depending on the
instruction. The two are different registers here, and `Register.slot` resolves them against the
meaning that an instruction gives to number 31.
-/

namespace MachineCode.A64

/-- A general register: `x0` to `x30`, the zero register or the stack pointer. -/
inductive Register where
  | x (number : Fin 31)
  | zr
  | sp
  deriving DecidableEq, Repr

/-- What number 31 of a register field stands for. -/
inductive Slot31 where
  | zero
  | stackPointer
  deriving DecidableEq, Repr

namespace Register

def lr : Register := .x 30

def fp : Register := .x 29

/-- The first register that a call may clobber on its way. -/
def ip0 : Register := .x 16

/-- The second register that a call may clobber on its way. -/
def ip1 : Register := .x 17

/-- The scratch register of sequences of several instructions. -/
def tmp : Register := ip0

def tmp2 : Register := ip1

/-- The base of the object pool. -/
def pp : Register := .x 27

/-- The numbered register `n`, for `n` up to 30. -/
def ofIndex? (n : Nat) : Option Register :=
  if h : n < 31 then some (.x ⟨n, h⟩) else none

/-- The register's number in a field that reads 31 as `slot31`; `none` for the register that such a
field cannot name. -/
def slot : Register → Slot31 → Option (BitVec 5)
  | .x number, _ => some (BitVec.ofNat 5 number)
  | .zr, .zero => some 31#5
  | .zr, .stackPointer => none
  | .sp, .stackPointer => some 31#5
  | .sp, .zero => none

def name : Register → String
  | .x number => "x" ++ toString number.val
  | .zr => "xzr"
  | .sp => "sp"

end Register

def Slot31.text : Slot31 → String
  | .zero => "zero register"
  | .stackPointer => "stack pointer"

end MachineCode.A64
