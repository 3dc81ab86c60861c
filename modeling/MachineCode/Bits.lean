/-!
# Bytes, words and bit fields

Machine code is a sequence of bytes; A64 instructions are 32-bit words stored least significant byte
first. A word is put together from fields, each placed at its lowest bit.
-/

namespace MachineCode

abbrev Byte := BitVec 8

/-- An A64 instruction word, or the unit of a 32-bit patch. -/
abbrev Word := BitVec 32

/-- The word that holds `value` with its lowest bit at `lsb` and zeros elsewhere. -/
def field (lsb : Nat) {n : Nat} (value : BitVec n) : Word :=
  value.setWidth 32 <<< lsb

/-- The word with bit `position` set exactly when `on`. -/
def flag (position : Nat) (on : Bool) : Word :=
  if on then 1#32 <<< position else 0#32

/-- The lowest `count` bytes of a value, least significant byte first. -/
def littleEndian {w : Nat} : (count : Nat) → BitVec w → List Byte
  | 0, _ => []
  | count + 1, value => value.setWidth 8 :: littleEndian count (value >>> 8)

/-- The value whose bytes, least significant first, are the given ones. -/
def ofLittleEndian (w : Nat) : List Byte → BitVec w
  | [] => 0#w
  | byte :: rest => byte.setWidth w ||| (ofLittleEndian w rest <<< 8)

@[simp] theorem littleEndian_length {w : Nat} (count : Nat) (value : BitVec w) :
    (littleEndian count value).length = count := by
  induction count generalizing value with
  | zero => rfl
  | succ count ih => simp [littleEndian, ih]

/-- The number of bytes from `position` to the next multiple of `alignment`. -/
def padding (alignment position : Nat) : Nat :=
  (alignment - position % alignment) % alignment

def hexText (n : Nat) : String :=
  "0x" ++ String.ofList (Nat.toDigits 16 n)

end MachineCode
