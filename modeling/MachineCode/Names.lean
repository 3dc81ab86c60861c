import MachineCode.A64.Address
import MachineCode.A64.BranchWord
import MachineCode.A64.Condition
import MachineCode.Options
import MachineCode.X86.Branch

/-!
# Names of values

The words by which values of the enumerated types are written and read, each type's in the order of
its codes.
-/

namespace MachineCode

abbrev Names (α : Type) := List (String × α)

def Names.nameOf? {α : Type} [DecidableEq α] (names : Names α) (a : α) : Option String :=
  (names.find? fun entry => entry.2 = a).map (·.1)

def a64Registers : Names A64.Register :=
  (List.finRange 31).map (fun n => ("R" ++ toString n.val, A64.Register.x n)) ++
    [("Zr", .zr), ("Csp", .sp)]

def a64Conditions : Names A64.Condition :=
  [("Eq", .eq), ("Ne", .ne), ("Cs", .cs), ("Cc", .cc), ("Mi", .mi), ("Pl", .pl), ("Vs", .vs),
   ("Vc", .vc), ("Hi", .hi), ("Ls", .ls), ("Ge", .ge), ("Lt", .lt), ("Gt", .gt), ("Le", .le),
   ("Al", .al), ("Nv", .nv)]

def a64Sizes : Names A64.AccessSize :=
  [("Byte", .byte), ("UnsignedByte", .unsignedByte), ("Halfword", .halfword),
   ("UnsignedHalfword", .unsignedHalfword), ("Word", .word), ("UnsignedWord", .unsignedWord),
   ("DoubleWord", .doubleWord)]

def a64Modes : Names A64.AddressMode :=
  [("Offset", .offset), ("PreIndex", .preIndex), ("PostIndex", .postIndex),
   ("PairOffset", .pairOffset), ("PairPreIndex", .pairPreIndex), ("PairPostIndex", .pairPostIndex),
   ("Reg", .index), ("PcOffset", .literal)]

def a64Shifts : Names A64.Shift :=
  [("Lsl", .lsl), ("Lsr", .lsr), ("Asr", .asr), ("Ror", .ror)]

def a64Extends : Names A64.Extend :=
  [("Uxtb", .uxtb), ("Uxth", .uxth), ("Uxtw", .uxtw), ("Uxtx", .uxtx), ("Sxtb", .sxtb),
   ("Sxth", .sxth), ("Sxtw", .sxtw), ("Sxtx", .sxtx)]

def a64Kinds : Names A64.BranchKind :=
  [("Unconditional", .unconditional), ("Conditional", .conditional),
   ("CompareAndBranch", .compareAndBranch), ("TestAndBranch", .testAndBranch)]

def fieldNames : Names DispField :=
  [("Rel8", .rel8), ("Rel32", .rel32), ("Imm26", .imm26), ("Imm19", .imm19), ("Imm14", .imm14)]

def architectures : Names Architecture :=
  [("X86_64", .x86), ("Aarch64", .a64)]

def x86Registers : Names X86.Register :=
  [("Rax", .rax), ("Rcx", .rcx), ("Rdx", .rdx), ("Rbx", .rbx), ("Rsp", .rsp), ("Rbp", .rbp),
   ("Rsi", .rsi), ("Rdi", .rdi), ("R8", .r8), ("R9", .r9), ("R10", .r10), ("R11", .r11),
   ("R12", .r12), ("R13", .r13), ("R14", .r14), ("R15", .r15)]

def x86Conditions : Names X86.Condition :=
  [("Overflow", .overflow), ("NoOverflow", .noOverflow), ("Below", .below),
   ("AboveEqual", .aboveEqual), ("Equal", .equal), ("NotEqual", .notEqual),
   ("BelowEqual", .belowEqual), ("Above", .above), ("Sign", .sign), ("NotSign", .notSign),
   ("ParityEven", .parityEven), ("ParityOdd", .parityOdd), ("Less", .less),
   ("GreaterEqual", .greaterEqual), ("LessEqual", .lessEqual), ("Greater", .greater)]

def x86Scales : Names X86.Scale :=
  [("Times1", .times1), ("Times2", .times2), ("Times4", .times4), ("Times8", .times8)]

def x86AluOps : Names X86.AluOp :=
  [("Add", .add), ("Or", .or), ("Adc", .adc), ("Sbb", .sbb), ("And", .and), ("Sub", .sub),
   ("Xor", .xor), ("Cmp", .cmp)]

def x86ShiftOps : Names X86.ShiftOp :=
  [("Rol", .rol), ("Ror", .ror), ("Shl", .shl), ("Shr", .shr), ("Sar", .sar)]

def x86Distances : Names X86.Distance :=
  [("Far", .far), ("Near", .near)]

def severityNames : Names Severity :=
  [("Contract", .contract), ("Range", .range)]

def EmitError.variant : EmitError → String
  | .invalidOperands .. => "InvalidOperands"
  | .immediateOverflow .. => "ImmediateOverflow"
  | .misalignedOffset .. => "MisalignedOffset"
  | .notEncodable .. => "NotEncodable"
  | .branchOutOfRange .. => "BranchOutOfRange"
  | .labelAlreadyBound .. => "LabelAlreadyBound"
  | .foreignLabel => "ForeignLabel"
  | .unresolvedLabels .. => "UnresolvedLabels"
  | .outOfMemory .. => "OutOfMemory"
  | .capacityOverflow .. => "CapacityOverflow"
  | .destinationTooSmall .. => "DestinationTooSmall"

end MachineCode
