import MachineCode.Proofs.Code
import MachineCode.X86.Operation

/-!
# Reading x86-64 code

A decoder for the instructions that the assembler knows, after the rules of the architecture: prefix
bytes, one or two opcode bytes, ModR/M, SIB, displacement and immediate. It accepts every form of
these instructions, whether the assembler would choose it or not. Read from the start of its own
bytes, an instruction is itself, and what follows does not matter.
-/

namespace MachineCode.X86

/-! ## Instructions as they are read -/

/-- The width of an operation. One on half a register clears the other half. -/
inductive Width where
  | dword
  | qword
  deriving DecidableEq, Repr

inductive Address where
  | sum (base : Option Register) (index : Option (Register × Scale)) (displacement : Int)
  /-- Relative to the end of the instruction. -/
  | rip (displacement : Int)
  deriving DecidableEq, Repr

inductive Location where
  | reg (register : Register)
  | mem (address : Address)
  deriving DecidableEq, Repr

inductive ByteLocation where
  | low (register : Register)
  /-- The second byte of one of the first four registers. -/
  | high (register : Register)
  | mem (address : Address)
  deriving DecidableEq, Repr

/-- An instruction apart from its encoding. -/
inductive Insn where
  | alu (op : AluOp) (width : Width) (dst : Location) (src : Register)
  | aluImm (op : AluOp) (width : Width) (dst : Location) (imm : Int)
  | mov (width : Width) (dst : Location) (src : Register)
  | load (width : Width) (dst : Register) (src : Location)
  | lea (width : Width) (dst : Register) (src : Address)
  | movImm (width : Width) (dst : Location) (imm : Int)
  | test (width : Width) (a : Location) (b : Register)
  | imul (width : Width) (dst : Register) (src : Location)
  | shift (op : ShiftOp) (width : Width) (dst : Location) (count : Nat)
  | shiftCl (op : ShiftOp) (width : Width) (dst : Location)
  | setcc (condition : Condition) (dst : ByteLocation)
  | push (src : Register)
  | pushImm (imm : Int)
  | pop (dst : Register)
  | callAt (target : Location)
  | jumpAt (target : Location)
  | jump (jump : Jump) (displacement : Int)
  | call (displacement : Int)
  | ret
  | int3
  | nop (length : Nat)
  deriving DecidableEq, Repr

/-! ## Prefix bytes -/

/-- What a REX byte says, and whether there is one. -/
structure Rex where
  isPresent : Bool
  w : Bool
  r : Bool
  x : Bool
  b : Bool

def Rex.absent : Rex :=
  ⟨false, false, false, false, false⟩

def Rex.width (rex : Rex) : Width :=
  if rex.w then .qword else .dword

/-- Whether the code starts with the prefix byte for narrow operands, and the code behind it. -/
def takeNarrow : List Byte → Bool × List Byte
  | [] => (false, [])
  | byte :: rest => if byte = 0x66#8 then (true, rest) else (false, byte :: rest)

def takeRex : List Byte → Rex × List Byte
  | [] => (.absent, [])
  | byte :: rest =>
    if byte.extractLsb' 4 4 = 4#4 then
      (⟨true, byte.getLsbD 3, byte.getLsbD 2, byte.getLsbD 1, byte.getLsbD 0⟩, rest)
    else (.absent, byte :: rest)

/-! ## Operands -/

def takeValue (count : Nat) (code : List Byte) : Option (BitVec (8 * count) × List Byte) :=
  if count ≤ code.length then
    some (ofLittleEndian (8 * count) (code.take count), code.drop count)
  else none

def takeSigned (count : Nat) (code : List Byte) : Option (Int × List Byte) := do
  let (value, rest) ← takeValue count code
  some (value.toInt, rest)

/-- The displacement behind a base register. -/
def takeDisplacement (mode : BitVec 2) (code : List Byte) : Option (Int × List Byte) :=
  if mode = 0#2 then some (0, code)
  else if mode = 1#2 then takeSigned 1 code
  else takeSigned 4 code

/-- The register whose number has the given fourth bit. -/
def extended (bit : Bool) (low : BitVec 3) : Register :=
  .ofNumber (BitVec.ofBool bit ++ low)

def Scale.ofCode (code : BitVec 2) : Scale :=
  match code.toNat with
  | 0 => .times1
  | 1 => .times2
  | 2 => .times4
  | _ => .times8

/-- The index of a SIB byte. The number of the stack pointer stands for none. -/
def indexOf (rex : Rex) (sib : Byte) : Option (Register × Scale) :=
  if BitVec.ofBool rex.x ++ sib.extractLsb' 3 3 = 4#4 then none
  else some (extended rex.x (sib.extractLsb' 3 3), .ofCode (sib.extractLsb' 6 2))

/-- The address that a ModR/M byte starts. The low bits 100 stand for a SIB byte; 101 without a
displacement stands for no base, and outside a SIB byte for the instruction pointer. -/
def takeAddress (rex : Rex) (mode : BitVec 2) (rm : BitVec 3) (code : List Byte) :
    Option (Address × List Byte) :=
  if rm = 4#3 then
    match code with
    | [] => none
    | sib :: code =>
      if mode = 0#2 ∧ sib.extractLsb' 0 3 = 5#3 then do
        let (displacement, rest) ← takeSigned 4 code
        some (.sum none (indexOf rex sib) displacement, rest)
      else do
        let (displacement, rest) ← takeDisplacement mode code
        some (.sum (extended rex.b (sib.extractLsb' 0 3)) (indexOf rex sib) displacement, rest)
  else if mode = 0#2 ∧ rm = 5#3 then do
    let (displacement, rest) ← takeSigned 4 code
    some (.rip displacement, rest)
  else do
    let (displacement, rest) ← takeDisplacement mode code
    some (.sum (extended rex.b rm) none displacement, rest)

/-- The number in the middle of a ModR/M byte and the operand that the byte starts. -/
def takeModRM (rex : Rex) : List Byte → Option (BitVec 4 × Location × List Byte)
  | [] => none
  | byte :: code =>
    let number := BitVec.ofBool rex.r ++ byte.extractLsb' 3 3
    if byte.extractLsb' 6 2 = 3#2 then
      some (number, .reg (extended rex.b (byte.extractLsb' 0 3)), code)
    else do
      let (address, rest) ← takeAddress rex (byte.extractLsb' 6 2) (byte.extractLsb' 0 3) code
      some (number, .mem address, rest)

/-- The operand of an operation on bytes. Without a REX byte, the numbers from four to seven stand
for the second bytes of the first four registers. -/
def Location.byte (rex : Rex) : Location → ByteLocation
  | .reg register =>
    if !rex.isPresent ∧ 4 ≤ register.number.toNat then .high (.ofNumber (register.number - 4#4))
    else .low register
  | .mem address => .mem address

/-! ## Opcodes -/

inductive ShiftCount where
  | once
  | byte
  | cl
  deriving DecidableEq, Repr

/-- What opcode bytes stand for; a size is the number of bytes of the immediate or displacement. -/
inductive Opcode where
  | alu (op : AluOp)
  | aluAccumulator (op : AluOp)
  | aluImm (size : Nat)
  | mov
  | load
  | lea
  | movShort (low : BitVec 3)
  | movImm
  | test
  | imul
  | shift (count : ShiftCount)
  | setcc (condition : Condition)
  | push (low : BitVec 3)
  | pop (low : BitVec 3)
  | pushImm (size : Nat)
  | indirect
  | jump (jump : Jump) (size : Nat)
  | call
  | ret
  | int3
  | nop
  | longNop
  deriving DecidableEq, Repr

def AluOp.ofDigit (digit : BitVec 3) : AluOp :=
  match digit.toNat with
  | 0 => .add
  | 1 => .or
  | 2 => .adc
  | 3 => .sbb
  | 4 => .and
  | 5 => .sub
  | 6 => .xor
  | _ => .cmp

/-- The shift of a number, unless it goes through the carry flag. -/
def ShiftOp.ofDigit? (digit : BitVec 3) : Option ShiftOp :=
  match digit.toNat with
  | 0 => some .rol
  | 1 => some .ror
  | 4 => some .shl
  | 5 => some .shr
  | 7 => some .sar
  | _ => none

namespace Opcode

def ofByte (byte : Byte) : Option Opcode :=
  let low := byte.extractLsb' 0 3
  if byte.extractLsb' 6 2 = 0#2 ∧ low = 1#3 then
    some (.alu (.ofDigit (byte.extractLsb' 3 3)))
  else if byte.extractLsb' 6 2 = 0#2 ∧ low = 5#3 then
    some (.aluAccumulator (.ofDigit (byte.extractLsb' 3 3)))
  else if byte.extractLsb' 3 5 = 0x0A#5 then some (.push low)
  else if byte.extractLsb' 3 5 = 0x0B#5 then some (.pop low)
  else if byte.extractLsb' 3 5 = 0x17#5 then some (.movShort low)
  else if byte.extractLsb' 4 4 = 7#4 then
    some (.jump (.onCondition (.ofCode (byte.extractLsb' 0 4))) 1)
  else
    match byte.toNat with
    | 0x68 => some (.pushImm 4)
    | 0x6A => some (.pushImm 1)
    | 0x81 => some (.aluImm 4)
    | 0x83 => some (.aluImm 1)
    | 0x85 => some .test
    | 0x89 => some .mov
    | 0x8B => some .load
    | 0x8D => some .lea
    | 0x90 => some .nop
    | 0xC1 => some (.shift .byte)
    | 0xC3 => some .ret
    | 0xC7 => some .movImm
    | 0xCC => some .int3
    | 0xD1 => some (.shift .once)
    | 0xD3 => some (.shift .cl)
    | 0xE8 => some .call
    | 0xE9 => some (.jump .always 4)
    | 0xEB => some (.jump .always 1)
    | 0xFF => some .indirect
    | _ => none

def ofSecond (byte : Byte) : Option Opcode :=
  if byte.extractLsb' 4 4 = 8#4 then
    some (.jump (.onCondition (.ofCode (byte.extractLsb' 0 4))) 4)
  else if byte.extractLsb' 4 4 = 9#4 then
    some (.setcc (.ofCode (byte.extractLsb' 0 4)))
  else
    match byte.toNat with
    | 0x1F => some .longNop
    | 0xAF => some .imul
    | _ => none

def take : List Byte → Option (Opcode × List Byte)
  | [] => none
  | first :: rest =>
    if first = 0x0F#8 then
      match rest with
      | [] => none
      | second :: rest => do
        let opcode ← ofSecond second
        some (opcode, rest)
    else do
      let opcode ← ofByte first
      some (opcode, rest)

def isNop : Opcode → Bool
  | .nop | .longNop => true
  | _ => false

/-- The instruction of an opcode with the operands in `code`. It starts `total` bytes before the end
of everything. -/
def read (rex : Rex) (total : Nat) (code : List Byte) : Opcode → Option (Insn × List Byte)
  | .alu op => do
    let (number, dst, rest) ← takeModRM rex code
    some (.alu op rex.width dst (.ofNumber number), rest)
  | .aluAccumulator op => do
    let (imm, rest) ← takeSigned 4 code
    some (.aluImm op rex.width (.reg .rax) imm, rest)
  | .aluImm size => do
    let (number, dst, rest) ← takeModRM rex code
    let (imm, rest) ← takeSigned size rest
    some (.aluImm (.ofDigit (number.setWidth 3)) rex.width dst imm, rest)
  | .mov => do
    let (number, dst, rest) ← takeModRM rex code
    some (.mov rex.width dst (.ofNumber number), rest)
  | .load => do
    let (number, src, rest) ← takeModRM rex code
    some (.load rex.width (.ofNumber number) src, rest)
  | .lea => do
    let (number, src, rest) ← takeModRM rex code
    match src with
    | .mem address => some (.lea rex.width (.ofNumber number) address, rest)
    | .reg _ => none
  | .movShort low =>
    if rex.w then do
      let (imm, rest) ← takeSigned 8 code
      some (.movImm .qword (.reg (extended rex.b low)) imm, rest)
    else do
      let (imm, rest) ← takeValue 4 code
      some (.movImm .dword (.reg (extended rex.b low)) imm.toNat, rest)
  | .movImm => do
    let (number, dst, rest) ← takeModRM rex code
    if number.setWidth 3 = 0#3 then
      let (imm, rest) ← takeValue 4 rest
      some (.movImm rex.width dst (if rex.w then imm.toInt else imm.toNat), rest)
    else none
  | .test => do
    let (number, a, rest) ← takeModRM rex code
    some (.test rex.width a (.ofNumber number), rest)
  | .imul => do
    let (number, src, rest) ← takeModRM rex code
    some (.imul rex.width (.ofNumber number) src, rest)
  | .shift count => do
    let (number, dst, rest) ← takeModRM rex code
    let op ← ShiftOp.ofDigit? (number.setWidth 3)
    match count with
    | .once => some (.shift op rex.width dst 1, rest)
    | .byte =>
      let (count, rest) ← takeValue 1 rest
      some (.shift op rex.width dst count.toNat, rest)
    | .cl => some (.shiftCl op rex.width dst, rest)
  | .setcc condition => do
    let (_, dst, rest) ← takeModRM rex code
    some (.setcc condition (dst.byte rex), rest)
  | .push low => some (.push (extended rex.b low), code)
  | .pop low => some (.pop (extended rex.b low), code)
  | .pushImm size => do
    let (imm, rest) ← takeSigned size code
    some (.pushImm imm, rest)
  | .indirect => do
    let (number, target, rest) ← takeModRM rex code
    if number.setWidth 3 = 2#3 then some (.callAt target, rest)
    else if number.setWidth 3 = 4#3 then some (.jumpAt target, rest)
    else none
  | .jump kind size => do
    let (displacement, rest) ← takeSigned size code
    some (.jump kind displacement, rest)
  | .call => do
    let (displacement, rest) ← takeSigned 4 code
    some (.call displacement, rest)
  | .ret => some (.ret, code)
  | .int3 => some (.int3, code)
  | .nop => if rex.b then none else some (.nop (total - code.length), code)
  | .longNop => do
    let (number, _, rest) ← takeModRM rex code
    if number.setWidth 3 = 0#3 then some (.nop (total - rest.length), rest) else none

end Opcode

/-- The first instruction of the code, and the code behind it. Narrow operands are known of `nop`
only. -/
def decode (code : List Byte) : Option (Insn × List Byte) := do
  let (isNarrow, rest) := takeNarrow code
  let (rex, rest) := takeRex rest
  let (opcode, rest) ← Opcode.take rest
  if isNarrow ∧ !opcode.isNop then none
  else opcode.read rex code.length rest

def disassemble (code : List Byte) : Option (List (Insn × Nat)) :=
  if code = [] then some []
  else
    match decode code with
    | none => none
    | some (insn, rest) =>
      if _h : rest.length < code.length then
        (disassemble rest).map ((insn, code.length - rest.length) :: ·)
      else none
termination_by code.length

def extent : List (Insn × Nat) → Nat
  | [] => 0
  | (_, length) :: rest => length + extent rest

/-! ## What an instruction says -/

def Memory.address : Memory → Address
  | .base register displacement => .sum register none displacement.toInt
  | .indexed register index scale displacement _ =>
    .sum register (index, scale) displacement.toInt
  | .rip displacement => .rip displacement.toInt

def Operand.location : Operand → Location
  | .reg register => .reg register
  | .mem memory => .mem memory.address

/-- The instruction apart from the form that was chosen for it. -/
def Instr.insn : Instr → Insn
  | .alu op dst src => .alu op .qword dst.location src
  | .aluImm8 op dst imm => .aluImm op .qword dst.location imm.toInt
  | .aluImm32 op dst imm => .aluImm op .qword dst.location imm.toInt
  | .aluAccumulator op imm => .aluImm op .qword (.reg .rax) imm.toInt
  | .mov dst src => .mov .qword dst.location src
  | .load dst src => .load .qword dst (.mem src.address)
  | .lea dst src => .lea .qword dst src.address
  | .movLow dst imm => .movImm .dword (.reg dst) imm.toNat
  | .movSigned dst imm => .movImm .qword (.reg dst) imm.toInt
  | .movFull dst imm => .movImm .qword (.reg dst) imm.toInt
  | .test a b => .test .qword (.reg a) b
  | .imul dst src => .imul .qword dst (.reg src)
  | .shiftOnce op dst => .shift op .qword (.reg dst) 1
  | .shift op dst count => .shift op .qword (.reg dst) count.toNat
  | .shiftCl op dst => .shiftCl op .qword (.reg dst)
  | .setcc condition dst => .setcc condition (.low dst)
  | .push src => .push src
  | .pushImm8 imm => .pushImm imm.toInt
  | .pushImm32 imm => .pushImm imm.toInt
  | .pop dst => .pop dst
  | .callReg target => .callAt (.reg target)
  | .jmpReg target => .jumpAt (.reg target)
  | .jumpShort jump displacement => .jump jump displacement.toInt
  | .jumpLong jump displacement => .jump jump displacement.toInt
  | .call displacement => .call displacement.toInt
  | .ret => .ret
  | .int3 => .int3
  | .nop extra => .nop (extra + 1)

/-! ## Fields of a byte -/

theorem modRM_fields : ∀ (mode : BitVec 2) (reg rm : BitVec 3),
    (modRM mode reg rm).extractLsb' 6 2 = mode ∧ (modRM mode reg rm).extractLsb' 3 3 = reg ∧
      (modRM mode reg rm).extractLsb' 0 3 = rm := by
  decide

theorem sib_fields : ∀ (scale : BitVec 2) (index base : BitVec 3),
    (sib scale index base).extractLsb' 6 2 = scale ∧
      (sib scale index base).extractLsb' 3 3 = index ∧
      (sib scale index base).extractLsb' 0 3 = base :=
  modRM_fields

private theorem rex_fields : ∀ w r x b : Bool, ∃ byte : Byte,
    rexPrefix w r x b = (if w || r || x || b then [byte] else []) ∧ byte ≠ 0x66#8 ∧
      byte.extractLsb' 4 4 = 4#4 ∧ byte.getLsbD 3 = w ∧ byte.getLsbD 2 = r ∧
      byte.getLsbD 1 = x ∧ byte.getLsbD 0 = b := by
  intro w r x b
  exact ⟨_, rfl, by revert w r x b; decide⟩

theorem ofBool_msb_append (number : BitVec 4) :
    BitVec.ofBool number.msb ++ number.setWidth 3 = number := by
  revert number
  decide

@[simp] theorem extended_low (register : Register) :
    extended register.isExtended register.low = register := by
  rw [extended, Register.isExtended, Register.low, ofBool_msb_append, Register.ofNumber_number]

@[simp] theorem Scale.ofCode_code (scale : Scale) : Scale.ofCode scale.code = scale := by
  cases scale <;> rfl

/-! ## Values -/

private theorem takeValue_littleEndian (count : Nat) (value : BitVec (8 * count))
    (rest : List Byte) :
    takeValue count (littleEndian count value ++ rest) = some (value, rest) := by
  have hlen : (littleEndian count value).length = count := littleEndian_length count value
  rw [takeValue, if_pos (by rw [List.length_append]; omega), List.take_left' hlen,
    List.drop_left' hlen, ofLittleEndian_littleEndian count value (Nat.le_refl _)]

private theorem takeValue_byte (value : Byte) (rest : List Byte) :
    takeValue 1 (value :: rest) = some (value, rest) := by
  have := takeValue_littleEndian 1 value rest
  rwa [littleEndian, littleEndian, BitVec.setWidth_eq, List.singleton_append] at this

private theorem takeSigned_littleEndian (count : Nat) (value : BitVec (8 * count))
    (rest : List Byte) :
    takeSigned count (littleEndian count value ++ rest) = some (value.toInt, rest) := by
  rw [takeSigned, takeValue_littleEndian]
  rfl

private theorem takeSigned_byte (value : Byte) (rest : List Byte) :
    takeSigned 1 (value :: rest) = some (value.toInt, rest) := by
  rw [takeSigned, takeValue_byte]
  rfl

private theorem toInt_setWidth_eq_bmod {v w : Nat} (hle : v ≤ w) (value : BitVec w) :
    (value.setWidth v).toInt = value.toInt.bmod (Nat.pow 2 v) := by
  rw [BitVec.toInt_setWidth, BitVec.toInt_eq_toNat_bmod]
  exact (Int.bmod_bmod_of_dvd (Nat.pow_dvd_pow 2 hle)).symm

theorem IsInt8.toInt_setWidth {w : Nat} (hw : 8 ≤ w) {value : BitVec w} (h : IsInt8 value.toInt) :
    (value.setWidth 8).toInt = value.toInt := by
  rw [toInt_setWidth_eq_bmod hw]
  exact Int.bmod_eq_of_le h.1 h.2

theorem IsInt32.toInt_setWidth {w : Nat} (hw : 32 ≤ w) {value : BitVec w}
    (h : IsInt32 value.toInt) : (value.setWidth 32).toInt = value.toInt := by
  rw [toInt_setWidth_eq_bmod hw]
  exact Int.bmod_eq_of_le h.1 h.2

theorem IsUint32.toNat_setWidth {value : BitVec 64} (h : IsUint32 value.toInt) :
    ((value.setWidth 32).toNat : Int) = value.toInt := by
  obtain ⟨hlow, hhigh⟩ := h
  rw [BitVec.toInt_eq_toNat_cond] at hlow hhigh ⊢
  rw [BitVec.toNat_setWidth]
  omega

/-! ## Operands -/

theorem dispWidth_eq_none {base : Register} {displacement : Int32}
    (h : (dispWidth base displacement).code = 0#2) : displacement = 0 ∧ base.low ≠ 5#3 := by
  simp only [dispWidth] at h
  split at h
  · assumption
  · split at h <;> exact absurd h (by decide)

theorem dispWidth_code_ne (base : Register) (displacement : Int32) :
    (dispWidth base displacement).code ≠ 3#2 := by
  cases dispWidth base displacement <;> decide

private theorem takeDisplacement_bytes (base : Register) (displacement : Int32) (rest : List Byte) :
    takeDisplacement (dispWidth base displacement).code
        ((dispWidth base displacement).bytes displacement ++ rest) =
      some (displacement.toInt, rest) := by
  simp only [dispWidth]
  split
  · next h =>
    rw [h.1]
    rfl
  · split
    · next h =>
      have hbyte := takeSigned_byte (displacement.toBitVec.setWidth 8) rest
      rw [IsInt8.toInt_setWidth (by decide) h] at hbyte
      exact hbyte
    · exact takeSigned_littleEndian 4 displacement.toBitVec rest

section

variable {rex : Rex}

private theorem takeAddress_base {register : Register} (hx : rex.x = false)
    (hb : rex.b = register.isExtended) (displacement : Int32) (rest : List Byte) :
    takeAddress rex (dispWidth register displacement).code register.low
        ((if register.low = 4#3 then [sib 0 4 4] else []) ++
          (dispWidth register displacement).bytes displacement ++ rest) =
      some ((Memory.base register displacement).address, rest) := by
  have hdisp := takeDisplacement_bytes register displacement rest
  obtain ⟨hscale, hindex, hbase⟩ := sib_fields 0 4 4
  by_cases hlow : register.low = 4#3
  · -- The low bits are taken for a SIB byte, which names the base again and no index.
    have hnone : indexOf rex (sib 0 4 4) = none := by
      rw [indexOf, hx, hindex]
      rfl
    have hfull : ¬((dispWidth register displacement).code = 0#2 ∧
        (sib 0 4 4).extractLsb' 0 3 = 5#3) := by
      rw [hbase]
      exact fun h => absurd h.2 (by decide)
    have hself : extended rex.b ((sib 0 4 4).extractLsb' 0 3) = register := by
      rw [hb, hbase, ← show register.low = 4 from hlow, extended_low]
    simp only [takeAddress, if_pos hlow, List.cons_append, List.nil_append, if_neg hfull, hdisp,
      hnone, hself]
    rfl
  · -- Low bits 101 without a displacement would be the instruction pointer.
    have hrip : ¬((dispWidth register displacement).code = 0#2 ∧ register.low = 5#3) :=
      fun h => (dispWidth_eq_none h.1).2 h.2
    simp only [takeAddress, if_neg hlow, List.nil_append, if_neg hrip, hdisp, hb, extended_low]
    rfl

private theorem takeAddress_indexed {register index : Register} (hx : rex.x = index.isExtended)
    (hb : rex.b = register.isExtended) (scale : Scale) (displacement : Int32)
    (hindex : index ≠ .rsp) (rest : List Byte) :
    takeAddress rex (dispWidth register displacement).code 4
        (sib scale.code index.low register.low ::
          (dispWidth register displacement).bytes displacement ++ rest) =
      some ((Memory.indexed register index scale displacement hindex).address, rest) := by
  have hdisp := takeDisplacement_bytes register displacement rest
  obtain ⟨hs, hi, hr⟩ := sib_fields scale.code index.low register.low
  have hsome : indexOf rex (sib scale.code index.low register.low) = some (index, scale) := by
    have hnumber : BitVec.ofBool index.isExtended ++ index.low = index.number :=
      ofBool_msb_append index.number
    have hne : index.number ≠ 4#4 := by
      intro h
      have := Register.ofNumber_number index
      rw [h] at this
      exact hindex this.symm
    rw [indexOf, hs, hi, hx, hnumber, if_neg hne, extended_low, Scale.ofCode_code]
  have hfull : ¬((dispWidth register displacement).code = 0#2 ∧ register.low = 5#3) :=
    fun h => (dispWidth_eq_none h.1).2 h.2
  simp only [takeAddress, if_pos (show (4 : BitVec 3) = 4#3 from rfl), List.cons_append, hr,
    if_neg hfull, hdisp, hsome, hb, extended_low]
  rfl

private theorem takeAddress_rip (displacement : Int32) (rest : List Byte) :
    takeAddress rex 0 5 (littleEndian 4 displacement.toBitVec ++ rest) =
      some ((Memory.rip displacement).address, rest) := by
  unfold takeAddress
  rw [if_neg (by decide), if_pos (by decide),
    takeSigned_littleEndian 4 displacement.toBitVec rest]
  rfl

private theorem takeModRM_encode {reg : BitVec 4} {rm : Operand} (hr : rex.r = reg.msb)
    (hx : rex.x = rm.extendsIndex) (hb : rex.b = rm.extendsBase) (rest : List Byte) :
    takeModRM rex (rm.encode (reg.setWidth 3) ++ rest) = some (reg, rm.location, rest) := by
  cases rm with
  | reg register =>
    obtain ⟨hm, hreg, hrm⟩ := modRM_fields 3 (reg.setWidth 3) register.low
    simp only [Operand.extendsBase] at hb
    simp only [Operand.encode, List.singleton_append, takeModRM, hm, hreg, hrm, hr, hb,
      ofBool_msb_append, extended_low]
    rfl
  | mem memory =>
    cases memory with
    | base register displacement =>
      obtain ⟨hm, hreg, hrm⟩ :=
        modRM_fields (dispWidth register displacement).code (reg.setWidth 3) register.low
      simp only [Operand.encode, Memory.encode, List.cons_append, takeModRM, hm, hreg, hrm, hr,
        ofBool_msb_append, if_neg (dispWidth_code_ne _ _), takeAddress_base hx hb]
      rfl
    | indexed register index scale displacement hindex =>
      obtain ⟨hm, hreg, hrm⟩ :=
        modRM_fields (dispWidth register displacement).code (reg.setWidth 3) 4
      have haddress := takeAddress_indexed hx hb scale displacement hindex rest
      simp only [List.cons_append] at haddress
      simp only [Operand.encode, Memory.encode, List.cons_append, takeModRM, hm, hreg, hrm, hr,
        ofBool_msb_append, if_neg (dispWidth_code_ne _ _), haddress]
      rfl
    | rip displacement =>
      obtain ⟨hm, hreg, hrm⟩ := modRM_fields 0 (reg.setWidth 3) 5
      simp only [Operand.encode, Memory.encode, List.cons_append, takeModRM, hm, hreg, hrm, hr,
        ofBool_msb_append, takeAddress_rip]
      rfl

end

/-! ## Reading an instruction -/

/-- The bytes are an opcode, and no prefix byte. -/
def Opcode.Written (opcode : Opcode) (bytes : List Byte) : Prop :=
  ∀ code, takeNarrow (bytes ++ code) = (false, bytes ++ code) ∧
    takeRex (bytes ++ code) = (.absent, bytes ++ code) ∧
    Opcode.take (bytes ++ code) = some (opcode, code)

/-- The bytes, which may be none, give the REX byte of the code behind them. -/
def Rex.Written (rex : Rex) (bytes : List Byte) : Prop :=
  ∀ code, takeNarrow code = (false, code) → takeRex code = (.absent, code) →
    takeNarrow (bytes ++ code) = (false, bytes ++ code) ∧ takeRex (bytes ++ code) = (rex, code)

private theorem written_rexPrefix (w r x b : Bool) :
    Rex.Written ⟨w || r || x || b, w, r, x, b⟩ (rexPrefix w r x b) := by
  intro code hnarrow hrex
  obtain ⟨byte, heq, hne, hhigh, rfl, rfl, rfl, rfl⟩ := rex_fields w r x b
  rw [heq]
  by_cases hany : (byte.getLsbD 3 || byte.getLsbD 2 || byte.getLsbD 1 || byte.getLsbD 0) = true
  · rw [if_pos hany, hany]
    exact ⟨if_neg hne, if_pos hhigh⟩
  · rw [if_neg hany]
    simp only [Bool.or_eq_true, not_or, Bool.not_eq_true] at hany
    simp only [hany]
    exact ⟨hnarrow, hrex⟩

private theorem decode_of_written {rex : Rex} {pre : List Byte} (hpre : rex.Written pre)
    {opcode : Opcode} {bytes : List Byte} (h : opcode.Written bytes) (code : List Byte) :
    decode (pre ++ (bytes ++ code)) =
      opcode.read rex (pre ++ (bytes ++ code)).length code := by
  obtain ⟨hnarrow, hrex, htake⟩ := h code
  obtain ⟨hnarrow, hrex⟩ := hpre _ hnarrow hrex
  rw [decode, hnarrow]
  simp only [hrex, htake]
  rfl

theorem decode_encodeOperand (opcode : Opcode) {bytes : List Byte} (h : opcode.Written bytes)
    {wide : Bool} {reg : BitVec 4} {rm : Operand} {code rest : List Byte} {insn : Insn}
    (hread : ∀ rex total operand, rex.w = wide →
      takeModRM rex operand = some (reg, rm.location, code) →
      opcode.read rex total operand = some (insn, rest)) :
    decode (encodeOperand wide bytes reg rm ++ code) = some (insn, rest) := by
  rw [encodeOperand, List.append_assoc, List.append_assoc,
    decode_of_written (written_rexPrefix _ _ _ _) h]
  exact hread _ _ _ rfl (takeModRM_encode rfl rfl rfl code)

private theorem decode_encodeShort {opcode : Opcode} {high : BitVec 5} {register : Register}
    (h : opcode.Written [(high ++ register.low : BitVec 8)]) {wide : Bool} {code rest : List Byte}
    {insn : Insn}
    (hread : ∀ rex total, rex.w = wide → rex.b = register.isExtended →
      opcode.read rex total code = some (insn, rest)) :
    decode (encodeShort wide high register ++ code) = some (insn, rest) := by
  rw [encodeShort, List.append_assoc, decode_of_written (written_rexPrefix _ _ _ _) h]
  exact hread _ _ rfl rfl

private theorem decode_plain (opcode : Opcode) (bytes : List Byte) (h : opcode.Written bytes)
    (code : List Byte) :
    decode (bytes ++ code) = opcode.read .absent (bytes ++ code).length code :=
  @decode_of_written .absent [] (fun _ hnarrow hrex => ⟨hnarrow, hrex⟩) opcode bytes h code

namespace Opcode

private theorem written_alu (op : AluOp) :
    (Opcode.alu op).Written [(0#2 ++ op.digit ++ 1#3 : BitVec 8)] := by
  cases op <;> exact fun code => ⟨rfl, rfl, rfl⟩

private theorem written_aluAccumulator (op : AluOp) :
    (Opcode.aluAccumulator op).Written [(0#2 ++ op.digit ++ 5#3 : BitVec 8)] := by
  cases op <;> exact fun code => ⟨rfl, rfl, rfl⟩

private theorem written_movShort (register : Register) :
    (Opcode.movShort register.low).Written [(0x17#5 ++ register.low : BitVec 8)] := by
  cases register <;> exact fun code => ⟨rfl, rfl, rfl⟩

private theorem written_push (register : Register) :
    (Opcode.push register.low).Written [(0x0A#5 ++ register.low : BitVec 8)] := by
  cases register <;> exact fun code => ⟨rfl, rfl, rfl⟩

private theorem written_pop (register : Register) :
    (Opcode.pop register.low).Written [(0x0B#5 ++ register.low : BitVec 8)] := by
  cases register <;> exact fun code => ⟨rfl, rfl, rfl⟩

private theorem written_setcc (condition : Condition) :
    (Opcode.setcc condition).Written [0x0F#8, (9#4 ++ condition.code : BitVec 8)] := by
  cases condition <;> exact fun code => ⟨rfl, rfl, rfl⟩

private theorem written_jumpShort (jump : Jump) :
    (Opcode.jump jump 1).Written jump.shortOpcode := by
  cases jump with
  | always => exact fun code => ⟨rfl, rfl, rfl⟩
  | onCondition condition => cases condition <;> exact fun code => ⟨rfl, rfl, rfl⟩

private theorem written_jumpLong (jump : Jump) : (Opcode.jump jump 4).Written jump.longOpcode := by
  cases jump with
  | always => exact fun code => ⟨rfl, rfl, rfl⟩
  | onCondition condition => cases condition <;> exact fun code => ⟨rfl, rfl, rfl⟩

end Opcode

@[simp] theorem AluOp.ofDigit_digit (op : AluOp) :
    AluOp.ofDigit op.digit = op := by
  cases op <;> rfl

@[simp] theorem ShiftOp.ofDigit?_digit (op : ShiftOp) :
    ShiftOp.ofDigit? op.digit = some op := by
  cases op <;> rfl

private theorem decode_narrow (opcode : Opcode) {bytes : List Byte} (h : opcode.Written bytes)
    (hnop : opcode.isNop = true) (code : List Byte) :
    decode ([0x66#8] ++ (bytes ++ code)) =
      opcode.read .absent ([0x66#8] ++ (bytes ++ code)).length code := by
  obtain ⟨-, hrex, htake⟩ := h code
  have hnarrow : takeNarrow ([0x66#8] ++ (bytes ++ code)) = (true, bytes ++ code) := rfl
  rw [decode, hnarrow]
  simp only [hrex, htake, Option.bind_eq_bind, Option.bind_some, hnop, Bool.not_true,
    Bool.false_eq_true, and_false, if_false]

/-- The operands of long `nop`s say the same with more and more bytes. -/
private theorem takeModRM_idle (rest : List Byte) :
    ∀ entry ∈ [([0x00#8], none), ([0x40#8, 0x00#8], none),
        ([0x44#8, 0x00#8, 0x00#8], some (Register.rax, Scale.times1)),
        ([0x80#8, 0x00#8, 0x00#8, 0x00#8, 0x00#8], none),
        ([0x84#8, 0x00#8, 0x00#8, 0x00#8, 0x00#8, 0x00#8], some (.rax, .times1))],
      takeModRM .absent (entry.1 ++ rest) =
        some (0, .mem (.sum (some .rax) entry.2 0), rest) := by
  simp [takeModRM, takeAddress, takeDisplacement, takeSigned, takeValue, ofLittleEndian, indexOf,
    extended, Rex.absent, Register.ofNumber, Scale.ofCode]

private theorem decode_nop (extra : Fin 8) (rest : List Byte) :
    decode (nopBytes extra ++ rest) = some (.nop (extra + 1), rest) := by
  have hshort : Opcode.nop.Written [0x90#8] := fun _ => ⟨rfl, rfl, rfl⟩
  have hlong : Opcode.longNop.Written [0x0F#8, 0x1F#8] := fun _ => ⟨rfl, rfl, rfl⟩
  have hidle : ∀ operand index total,
      takeModRM .absent (operand ++ rest) = some (0, .mem (.sum (some .rax) index 0), rest) →
      Opcode.longNop.read .absent total (operand ++ rest) =
        some (.nop (total - rest.length), rest) := by
    intro operand index total hmodrm
    simp [Opcode.read, hmodrm]
  have hread : decode (nopBytes extra ++ rest) =
      some (.nop ((nopBytes extra ++ rest).length - rest.length), rest) := by
    have hmodrm := takeModRM_idle rest
    simp only [List.forall_mem_cons] at hmodrm
    obtain ⟨h1, h2, h3, h5, h6, -⟩ := hmodrm
    match extra with
    | 0 => exact decode_plain .nop _ hshort rest
    | 1 => exact decode_narrow .nop hshort rfl rest
    | 2 => exact (decode_plain .longNop _ hlong _).trans (hidle _ _ _ h1)
    | 3 => exact (decode_plain .longNop _ hlong _).trans (hidle _ _ _ h2)
    | 4 => exact (decode_plain .longNop _ hlong _).trans (hidle _ _ _ h3)
    | 5 => exact (decode_narrow .longNop hlong rfl _).trans (hidle _ _ _ h3)
    | 6 => exact (decode_plain .longNop _ hlong _).trans (hidle _ _ _ h5)
    | 7 => exact (decode_plain .longNop _ hlong _).trans (hidle _ _ _ h6)
  have hlength : (nopBytes extra).length = extra + 1 := by
    clear hread
    revert extra
    decide
  rw [hread, List.length_append, Nat.add_sub_cancel, hlength]

private theorem written_setccRex (dst : Register) : ∃ rex : Rex,
    rex.Written (if dst.lowByteNeedsRex then
      [0x40#8 ||| (BitVec.ofBool dst.isExtended).setWidth 8] else []) ∧
    rex.r = false ∧ rex.x = false ∧ rex.b = dst.isExtended ∧
    (Location.reg dst).byte rex = .low dst := by
  refine ⟨⟨dst.lowByteNeedsRex, false, false, false, dst.isExtended⟩, ?_, rfl, rfl, rfl, ?_⟩
  · cases hneeds : dst.lowByteNeedsRex with
    | true =>
      rw [if_pos rfl]
      intro code _ _
      cases dst.isExtended <;> exact ⟨rfl, rfl⟩
    | false =>
      have hplain : dst.isExtended = false := by
        revert hneeds
        cases dst <;> decide
      rw [hplain]
      exact fun code hnarrow hrex => ⟨hnarrow, hrex⟩
  · cases dst <;> rfl

private theorem decode_setcc (condition : Condition) (dst : Register) (rest : List Byte) :
    decode ((Instr.setcc condition dst).encode ++ rest) =
      some (.setcc condition (.low dst), rest) := by
  obtain ⟨rex, hwritten, hr, hx, hb, hbyte⟩ := written_setccRex dst
  have hmodrm : takeModRM rex (modRM 3 0 dst.low :: rest) = some (0, .reg dst, rest) :=
    @takeModRM_encode rex 0 (.reg dst) hr hx hb rest
  rw [Instr.encode, List.append_assoc]
  refine (decode_of_written hwritten (Opcode.written_setcc condition)
    (modRM 3 0 dst.low :: rest)).trans ?_
  simp only [Opcode.read, hmodrm, Option.bind_eq_bind, Option.bind_some, hbyte]

/-- An instruction is read as what it says, whatever follows it. -/
theorem decode_encode (instr : Instr) (rest : List Byte) :
    decode (instr.encode ++ rest) = some (instr.insn, rest) := by
  cases instr with
  | alu op dst src =>
    refine decode_encodeOperand (.alu op) (Opcode.written_alu op) fun rex total code hw hmodrm => ?_
    simp [Opcode.read, hmodrm, Rex.width, hw, Instr.insn]
  | aluImm8 op dst imm =>
    rw [Instr.encode, List.append_assoc]
    refine decode_encodeOperand (.aluImm 1) (fun _ => ⟨rfl, rfl, rfl⟩)
      fun rex total code hw hmodrm => ?_
    simp [Opcode.read, hmodrm, Rex.width, hw, Instr.insn, takeSigned_byte]
  | aluImm32 op dst imm =>
    rw [Instr.encode, List.append_assoc]
    refine decode_encodeOperand (.aluImm 4) (fun _ => ⟨rfl, rfl, rfl⟩)
      fun rex total code hw hmodrm => ?_
    simp [Opcode.read, hmodrm, Rex.width, hw, Instr.insn, takeSigned_littleEndian 4 imm]
  | aluAccumulator op imm =>
    refine (decode_of_written (written_rexPrefix true false false false)
      (Opcode.written_aluAccumulator op) (littleEndian 4 imm ++ rest)).trans ?_
    simp [Opcode.read, Rex.width, Instr.insn, takeSigned_littleEndian 4 imm]
  | mov dst src =>
    refine decode_encodeOperand .mov (fun _ => ⟨rfl, rfl, rfl⟩) fun rex total code hw hmodrm => ?_
    simp [Opcode.read, hmodrm, Rex.width, hw, Instr.insn]
  | load dst src =>
    refine decode_encodeOperand .load (fun _ => ⟨rfl, rfl, rfl⟩) fun rex total code hw hmodrm => ?_
    simp [Opcode.read, hmodrm, Rex.width, hw, Instr.insn, Operand.location]
  | lea dst src =>
    refine decode_encodeOperand .lea (fun _ => ⟨rfl, rfl, rfl⟩) fun rex total code hw hmodrm => ?_
    simp [Opcode.read, hmodrm, Rex.width, hw, Instr.insn, Operand.location]
  | movLow dst imm =>
    rw [Instr.encode, List.append_assoc]
    refine decode_encodeShort (Opcode.written_movShort dst) fun rex total hw hb => ?_
    simp [Opcode.read, hw, hb, Instr.insn, takeValue_littleEndian 4 imm]
  | movSigned dst imm =>
    rw [Instr.encode, List.append_assoc]
    refine decode_encodeOperand .movImm (fun _ => ⟨rfl, rfl, rfl⟩)
      fun rex total code hw hmodrm => ?_
    simp [Opcode.read, hmodrm, Rex.width, hw, Instr.insn, Operand.location,
      takeValue_littleEndian 4 imm]
  | movFull dst imm =>
    rw [Instr.encode, List.append_assoc]
    refine decode_encodeShort (Opcode.written_movShort dst) fun rex total hw hb => ?_
    simp [Opcode.read, hw, hb, Instr.insn, takeSigned_littleEndian 8 imm]
  | test a b =>
    refine decode_encodeOperand .test (fun _ => ⟨rfl, rfl, rfl⟩) fun rex total code hw hmodrm => ?_
    simp [Opcode.read, hmodrm, Rex.width, hw, Instr.insn, Operand.location]
  | imul dst src =>
    refine decode_encodeOperand .imul (fun _ => ⟨rfl, rfl, rfl⟩) fun rex total code hw hmodrm => ?_
    simp [Opcode.read, hmodrm, Rex.width, hw, Instr.insn, Operand.location]
  | shiftOnce op dst =>
    refine decode_encodeOperand (.shift .once) (fun _ => ⟨rfl, rfl, rfl⟩)
      fun rex total code hw hmodrm => ?_
    simp [Opcode.read, hmodrm, Rex.width, hw, Instr.insn, Operand.location]
  | shift op dst count =>
    rw [Instr.encode, List.append_assoc]
    refine decode_encodeOperand (.shift .byte) (fun _ => ⟨rfl, rfl, rfl⟩)
      fun rex total code hw hmodrm => ?_
    simp [Opcode.read, hmodrm, Rex.width, hw, Instr.insn, Operand.location, takeValue_byte]
  | shiftCl op dst =>
    refine decode_encodeOperand (.shift .cl) (fun _ => ⟨rfl, rfl, rfl⟩)
      fun rex total code hw hmodrm => ?_
    simp [Opcode.read, hmodrm, Rex.width, hw, Instr.insn, Operand.location]
  | setcc condition dst => exact decode_setcc condition dst rest
  | push src =>
    refine decode_encodeShort (Opcode.written_push src) fun rex total hw hb => ?_
    simp [Opcode.read, hb, Instr.insn]
  | pushImm8 imm =>
    refine (decode_plain (.pushImm 1) [0x6A#8] (fun _ => ⟨rfl, rfl, rfl⟩) (imm :: rest)).trans ?_
    simp [Opcode.read, Instr.insn, takeSigned_byte]
  | pushImm32 imm =>
    refine (decode_plain (.pushImm 4) [0x68#8] (fun _ => ⟨rfl, rfl, rfl⟩)
      (littleEndian 4 imm ++ rest)).trans ?_
    simp [Opcode.read, Instr.insn, takeSigned_littleEndian 4 imm]
  | pop dst =>
    refine decode_encodeShort (Opcode.written_pop dst) fun rex total hw hb => ?_
    simp [Opcode.read, hb, Instr.insn]
  | callReg target =>
    refine decode_encodeOperand .indirect (fun _ => ⟨rfl, rfl, rfl⟩)
      fun rex total code hw hmodrm => ?_
    simp [Opcode.read, hmodrm, Instr.insn, Operand.location]
  | jmpReg target =>
    refine decode_encodeOperand .indirect (fun _ => ⟨rfl, rfl, rfl⟩)
      fun rex total code hw hmodrm => ?_
    simp [Opcode.read, hmodrm, Instr.insn, Operand.location]
  | jumpShort jump displacement =>
    rw [Instr.encode, List.append_assoc, decode_plain _ _ (Opcode.written_jumpShort jump)]
    simp [Opcode.read, Instr.insn, takeSigned_byte]
  | jumpLong jump displacement =>
    rw [Instr.encode, List.append_assoc, decode_plain _ _ (Opcode.written_jumpLong jump)]
    simp [Opcode.read, Instr.insn, takeSigned_littleEndian 4 displacement]
  | call displacement =>
    refine (decode_plain .call [0xE8#8] (fun _ => ⟨rfl, rfl, rfl⟩)
      (littleEndian 4 displacement ++ rest)).trans ?_
    simp [Opcode.read, Instr.insn, takeSigned_littleEndian 4 displacement]
  | ret => rfl
  | int3 => rfl
  | nop extra => exact decode_nop extra rest

private theorem decode_nil : decode [] = none :=
  rfl

private theorem Instr.length_encode_pos (instr : Instr) : 0 < instr.encode.length := by
  rw [List.length_pos_iff]
  intro hnil
  have hread := decode_encode instr []
  rw [hnil, List.append_nil, decode_nil] at hread
  cases hread

theorem encodeAll_cons (instr : Instr) (program : List Instr) :
    encodeAll (instr :: program) = instr.encode ++ encodeAll program :=
  List.flatMap_cons ..

/-- A program is read instruction by instruction. -/
theorem disassemble_encodeAll (program : List Instr) :
    disassemble (encodeAll program) =
      some (program.map fun instr => (instr.insn, instr.encode.length)) := by
  induction program with
  | nil =>
    rw [disassemble]
    rfl
  | cons instr program ih =>
    have hpos := instr.length_encode_pos
    have hlt : (encodeAll program).length < (instr.encode ++ encodeAll program).length := by
      rw [List.length_append]
      omega
    have hne : instr.encode ++ encodeAll program ≠ [] := by
      rw [← List.length_pos_iff]
      omega
    rw [encodeAll_cons, disassemble, if_neg hne, decode_encode]
    simp only [dif_pos hlt, ih, Option.map_some]
    rw [List.length_append, Nat.add_sub_cancel, List.map_cons]

theorem extent_encodeAll (program : List Instr) :
    extent (program.map fun instr => (instr.insn, instr.encode.length)) =
      (encodeAll program).length := by
  induction program with
  | nil => rfl
  | cons instr program ih => rw [List.map_cons, extent, ih, encodeAll_cons, List.length_append]

end MachineCode.X86
