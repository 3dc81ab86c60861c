import MachineCode.A64.Address
import MachineCode.A64.Arithmetic
import MachineCode.A64.Constant

/-!
# A64 loads and stores
-/

namespace MachineCode.A64

/-- The bits of a load or store of one register; `opc` tells stores and the two kinds of load
apart. -/
def singleBits (address : Address) (size : AccessSize) (opc : BitVec 2) :
    Encoder := fun offset => do
  if address.isPair then
    refuse .pairForSingle offset
  return field 30 (BitVec.ofNat 2 size.log2) ||| 0x38000000#32 ||| field 22 opc ||| address.encoding

def literalOpcode : AccessSize → Option Word
  | .word => some 0x98000000#32
  | .unsignedWord => some 0x18000000#32
  | .doubleWord => some 0x58000000#32
  | _ => none

/-- `ldr`; signed sizes extend the sign to 64 bits. -/
def load (rt : Register) (address : Address) (size : AccessSize) : Encoder := fun offset => do
  let t ← registerField 0 .zero rt offset
  if address.mode = .literal then
    match literalOpcode size with
    | some opcode => return opcode ||| address.encoding ||| t
    | none => refuse .literalSize offset
  else
    return (← singleBits address size (if size.isSigned then 2 else 1) offset) ||| t

def store (rt : Register) (address : Address) (size : AccessSize) : Encoder := fun offset => do
  let t ← registerField 0 .zero rt offset
  if address.mode = .literal then
    refuse .literalStore offset
  else
    return (← singleBits address size 0 offset) ||| t

/-- The size bits of a pair; only loads have a signed form. -/
def pairSize (isLoad : Bool) : AccessSize → Option (BitVec 2)
  | .unsignedWord => some 0
  | .word => if isLoad then some 1 else none
  | .doubleWord => some 2
  | _ => none

/-- `ldp`, or `stp` unless `isLoad`. -/
def transferPair (isLoad : Bool) (rt rt2 : Register) (address : Address) (size : AccessSize) :
    Encoder := fun offset => do
  if !address.isPair then
    refuse .singleForPair offset
  match pairSize isLoad size with
  | none => refuse .pairSize offset
  | some opc =>
    let t2 ← registerField 10 .zero rt2 offset
    let t ← registerField 0 .zero rt offset
    return field 30 opc ||| 0x28000000#32 ||| flag 22 isLoad ||| address.encoding ||| t2 ||| t

/-! ## The stack -/

/-- Base the stack pointer, an offset and a mode, then an access through that address. -/
def onStack (displacement : Int) (mode : AddressMode) (access : Address → Encoder) :
    Encoder := fun offset => do
  let address ← Address.ofOffset .sp displacement mode .doubleWord
  access address offset

def push (register : Register) : Encoder :=
  onStack (-8) .preIndex fun address => store register address .doubleWord

def pop (register : Register) : Encoder :=
  onStack 8 .postIndex fun address => load register address .doubleWord

def pushPair (low high : Register) : Encoder :=
  onStack (-16) .pairPreIndex fun address => transferPair false low high address .doubleWord

def popPair (low high : Register) : Encoder :=
  onStack 16 .pairPostIndex fun address => transferPair true low high address .doubleWord

/-! ## The object pool -/

def loadAt (dst base : Register) (displacement : Int) : Encoder := fun offset => do
  let address ← Address.ofOffset base displacement .offset .doubleWord
  load dst address .doubleWord offset

def loadIndexed (dst base index : Register) : Encoder := fun offset => do
  let address ← Address.ofIndexed base index .uxtx false
  load dst address .doubleWord offset

/-- The instructions that load the word at `position` of the pool based at `pp`: one load if it
takes the offset, else an addition of the upper part to the base, else the offset in the
destination as an index. -/
def loadFromPool (dst pp : Register) (position : BitVec 32) : List Encoder :=
  let displacement : Int := position.toNat
  if dst = pp then
    [refuse .poolDestination]
  else if Address.takesOffset displacement .offset .doubleWord then
    [loadAt dst pp displacement]
  else
    match Operand.ofImmediate? (displacement - displacement % 4096) with
    | some upper => [addSub .add .x false dst pp upper, loadAt dst dst (displacement % 4096)]
    | none =>
      let high := position.extractLsb' 16 16
      moveWide .zero dst (position.extractLsb' 0 16) 0 ::
        ((if high ≠ 0#16 then [moveWide .keep dst high 1] else []) ++ [loadIndexed dst pp dst])

end MachineCode.A64
