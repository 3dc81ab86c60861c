import MachineCode.Violation

/-!
# Bitmask immediates

The immediate of an A64 logical instruction is a run of ones inside an element of 2, 4, 8, 16, 32
or 64 bits, rotated within the element and repeated to fill the register. Neither zero nor all ones
has this form.
-/

namespace MachineCode.A64

/-- The three fields of a bitmask immediate: `n` is set for an element of 64 bits only, `immR` is
the rotation to the right, `immS` marks the element size and holds the length of the run less one.
-/
structure BitmaskImm where
  n : BitVec 32
  immR : BitVec 32
  immS : BitVec 32
  deriving DecidableEq, Repr

namespace BitmaskImm

def ones (count : Nat) : BitVec 64 :=
  (1#64 <<< count) - 1#64

/-- An element of `size` bits rotated to the right by `r` places. -/
def rotate (element : BitVec 64) (r size : Nat) : BitVec 64 :=
  if r = 0 then element else ((element >>> r) ||| (element <<< (size - r))) &&& ones size

/-- Doubles a pattern of `filled` bits until it fills the register; six doublings fill it from a
single bit. -/
def spread (value : BitVec 64) (filled : Nat) : (doublings : Nat) → BitVec 64
  | 0 => value
  | doublings + 1 =>
    if filled < 64 then spread (value ||| (value <<< filled)) (2 * filled) doublings else value

/-- An element of `size` bits, repeated. -/
def replicate (element : BitVec 64) (size : Nat) : BitVec 64 :=
  spread element size 6

/-- Halves an element size, at most `halvings` times, while both halves of the element agree. -/
def elementSize (value : BitVec 64) (size : Nat) : (halvings : Nat) → Nat
  | 0 => size
  | halvings + 1 =>
    if value &&& ones (size / 2) = (value >>> (size / 2)) &&& ones (size / 2) then
      elementSize value (size / 2) halvings
    else
      size

def countOnes (value : BitVec 64) : (bits : Nat) → Nat
  | 0 => 0
  | bits + 1 => countOnes value bits + (value.getLsbD bits).toNat

def encode64 (value : BitVec 64) : Option BitmaskImm :=
  if value = 0#64 ∨ value = BitVec.allOnes 64 then
    none
  else
    let size := elementSize value 64 5
    let element := value &&& ones size
    let count := countOnes element 64
    match (List.range size).find? (fun r => rotate element r size = ones count) with
    | none => none
    | some r => some {
        n := if size = 64 then 1 else 0
        immR := BitVec.ofNat 32 ((size - r) % size)
        immS := (~~~(BitVec.ofNat 32 (2 * size - 1)) &&& 63#32) ||| BitVec.ofNat 32 (count - 1) }

/-- The immediate with a given 32-bit value, which must have nothing in its upper half. -/
def encode32 (value : BitVec 64) : Option BitmaskImm :=
  if value >>> 32 = 0#64 then encode64 (value ||| (value <<< 32)) else none

/-- The immediate with a given value of an operand of `width` bits, 32 or 64. -/
def encode (value : BitVec 64) (width : Nat) : Except Violation (Option BitmaskImm) :=
  if width = 32 then .ok (encode32 value)
  else if width = 64 then .ok (encode64 value)
  else .error .operandWidth

/-- The bits that give the element size: the size is two to the position of the highest one. -/
def sizeMark (imm : BitmaskImm) : BitVec 32 :=
  (imm.n <<< 6) ||| (~~~imm.immS &&& 63#32)

/-- The value in a register of 64 bits. Without a mark there is no element size, and an element of
more than 64 bits has a value only if neither its run nor its rotation leaves the register. -/
def decode64 (imm : BitmaskImm) : Except Violation (BitVec 64) :=
  if imm.sizeMark = 0#32 then
    .error .subtractOverflow
  else
    let size := 1 <<< imm.sizeMark.toNat.log2
    let run := imm.immS.toNat % size + 1
    let r := imm.immR.toNat % size
    if 64 < run then .error .shiftLeftOverflow
    else if 64 < size ∧ 64 ≤ r then .error .shiftRightOverflow
    else if 64 < size ∧ r ≠ 0 then .error .shiftLeftOverflow
    else .ok (replicate (rotate (ones run) r size) size)

/-- The value of an operand of `width` bits: an operand of 32 bits has the lower half only. -/
def decode (imm : BitmaskImm) (width : Nat) : Except Violation (BitVec 64) := do
  let value ← imm.decode64
  return if width = 32 then value &&& 0xFFFFFFFF#64 else value

def bits (imm : BitmaskImm) : Word :=
  (imm.n <<< 22) ||| (imm.immR <<< 16) ||| (imm.immS <<< 10)

end BitmaskImm

end MachineCode.A64
