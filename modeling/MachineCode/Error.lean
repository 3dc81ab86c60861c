import MachineCode.Bits
import MachineCode.A64.Register

/-!
# Errors of code emission

An error is a cause. `EmitError.message` and `Misuse.text` are the only places that word it.
-/

namespace MachineCode

/-- Why a combination of operands is refused. -/
inductive Misuse where
  /-- A register that the instruction's field cannot name. -/
  | slot (register : A64.Register) (slot31 : A64.Slot31)
  | shiftedStackPointer
  | zeroBase
  | dedicatedMode
  | stackPointerIndex
  | indexExtend
  | scaledExtend
  | rotatedAddend
  | bitmaskAddend
  | unshiftedLogical
  | literalSize
  | literalStore
  | pairForSingle
  | singleForPair
  | pairSize
  | poolDestination
  | neverBranch
  | brokenChain
  | wordAlignment (alignment : Nat)
  | byteAlignment (alignment : Nat)
  | stackPointerScaled
  | scratchNeeded
  /-- A cause known by its wording only. -/
  | other (text : String)
  deriving DecidableEq, Repr

def Misuse.text : Misuse → String
  | .slot register slot31 =>
    s!"{register.name} cannot be used where slot 31 is the {slot31.text}"
  | .shiftedStackPointer => "shifted operand cannot be sp"
  | .zeroBase => "base register cannot be xzr"
  | .dedicatedMode => "mode needs a dedicated constructor"
  | .stackPointerIndex => "index register cannot be sp"
  | .indexExtend => "index extend must be uxtw, uxtx, sxtw or sxtx"
  | .scaledExtend => "scaled index requires uxtx"
  | .rotatedAddend => "ror is not a valid add/sub shift"
  | .bitmaskAddend => "bitmask immediate is not an add/sub operand"
  | .unshiftedLogical => "logical register form needs a shifted operand"
  | .literalSize => "literal loads are 32 or 64 bits"
  | .literalStore => "cannot store to a literal"
  | .pairForSingle => "pair address used with single load/store"
  | .singleForPair => "load/store pair needs a pair address"
  | .pairSize => "pairs are 32 or 64 bits"
  | .poolDestination => "pool load destination must differ from pool base"
  | .neverBranch => "nv is not a branch condition"
  | .brokenChain => "label chain entry is not a branch"
  | .wordAlignment alignment => s!"alignment {alignment} must be a power of two >= 4"
  | .byteAlignment alignment => s!"alignment {alignment} is not a power of two"
  | .stackPointerScaled => "rsp cannot be an index register"
  | .scratchNeeded => "wide immediate operand needs the scratch register"
  | .other text => text

/-- Why an emission failed. Offsets are byte offsets from the start of the code. -/
inductive EmitError where
  | invalidOperands (misuse : Misuse) (offset : Option Nat)
  | immediateOverflow (value min max : Int)
  | misalignedOffset (value : Int) (alignment : Nat)
  | notEncodable (value : BitVec 64) (width : Nat)
  | branchOutOfRange (displacement max : Int) (offset : Nat)
  | labelAlreadyBound (position : Nat)
  | foreignLabel
  | unresolvedLabels (count : Nat)
  | outOfMemory (requested : Nat)
  | capacityOverflow (capacity : Nat)
  | destinationTooSmall (needed available : Nat)
  deriving DecidableEq, Repr

/-- Whether an error is the caller's mistake or a limit that a correct caller can meet. -/
inductive Severity where
  | contract
  | range
  deriving DecidableEq, Repr

namespace EmitError

def severity : EmitError → Severity
  | .branchOutOfRange .. | .outOfMemory .. | .capacityOverflow .. => .range
  | _ => .contract

def message : EmitError → String
  | .invalidOperands misuse none => s!"invalid operand combination: {misuse.text}"
  | .invalidOperands misuse (some offset) =>
    s!"{hexText offset}: invalid operand combination: {misuse.text}"
  | .immediateOverflow value min max => s!"immediate value {value} out of range [{min}..{max}]"
  | .misalignedOffset value alignment => s!"offset {value} is not a multiple of {alignment}"
  | .notEncodable value width =>
    s!"{hexText value.toNat} is not encodable as a {width}-bit logical immediate"
  | .branchOutOfRange displacement max offset =>
    s!"{hexText offset}: branch target out of range (displacement={displacement}, max=±{max})"
  | .labelAlreadyBound position => s!"label already bound at {hexText position}"
  | .foreignLabel => "label belongs to a different code buffer"
  | .unresolvedLabels count => s!"{count} label(s) referenced but never bound"
  | .outOfMemory requested => s!"out of memory growing code buffer to {requested} bytes"
  | .capacityOverflow capacity => s!"code buffer capacity overflow at {capacity} bytes"
  | .destinationTooSmall needed available =>
    s!"destination too small: need {needed} bytes, have {available}"

/-- Whether the error comes from the allocator or from the growth rule. -/
def isMemory : EmitError → Bool
  | .outOfMemory .. | .capacityOverflow .. => true
  | _ => false

end EmitError

end MachineCode
