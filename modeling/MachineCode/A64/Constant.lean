import MachineCode.A64.Logical

/-!
# Constants in registers

A constant takes one logical instruction if it is a bitmask immediate, and otherwise a move that
sets the whole register followed by moves that replace single halfwords.
-/

namespace MachineCode.A64

/-- What a wide move does with the rest of the register. -/
inductive MoveWide where
  /-- Clears it. -/
  | zero
  /-- Sets it, and inverts the halfword. -/
  | invert
  | keep
  deriving DecidableEq, Repr

def MoveWide.opcode : MoveWide → Word
  | .zero => 0x52800000#32
  | .invert => 0x12800000#32
  | .keep => 0x72800000#32

/-- A move of sixteen bits to halfword `position` of the register. -/
def moveWide (move : MoveWide) (rd : Register) (imm : BitVec 16) (position : Nat) :
    Encoder := fun offset => do
  let hw ← unsignedField 2 position
  let d ← registerField 0 .zero rd offset
  return move.opcode ||| Width.x.bit ||| field 21 hw ||| field 5 imm ||| d

def halfword (value : BitVec 64) (i : Nat) : BitVec 16 :=
  value.extractLsb' (16 * i) 16

/-- Whether a constant is made by a logical instruction: it is a bitmask immediate and no immediate
of an addition. -/
def isMask (value : BitVec 64) : Bool :=
  (Operand.ofImmediate? value.toInt).isNone && (BitmaskImm.encode64 value).isSome

/-- The moves that make a constant which is not made by a logical instruction: from all ones if the
upper halfword is all ones, else from zero. -/
def constantMoves (value : BitVec 64) : List (MoveWide × BitVec 16 × Nat) :=
  let h := halfword value
  if h 3 = 0xFFFF#16 then
    if h 2 = 0xFFFF#16 then
      if h 1 = 0xFFFF#16 then [(.invert, ~~~h 0, 0)]
      else [(.invert, ~~~h 1, 1), (.keep, h 0, 0)]
    else
      (.invert, ~~~h 2, 2) ::
        ([1, 0].filter (fun i => h i ≠ 0xFFFF#16)).map (fun i => (.keep, h i, i))
  else
    match [0, 1, 2, 3].filter (fun i => h i ≠ 0#16) with
    | [] => [(.zero, 0#16, 0)]
    | first :: rest => (.zero, h first, first) :: rest.map (fun i => (.keep, h i, i))

/-- The instructions that leave a constant in a register. The destination is checked first. -/
def loadConstant (rd : Register) (value : BitVec 64) : List Encoder :=
  if rd.slot .zero = none then [refuse (.slot rd .zero)]
  else if isMask value then [logicalImmediate .orr .x rd .zr value]
  else (constantMoves value).map fun (move, imm, position) => moveWide move rd imm position

end MachineCode.A64
