import MachineCode.Proofs.A64Constant
import MachineCode.Proofs.A64Transfer
import MachineCode.Proofs.AddressSpace

/-!
# Executing A64 loads

The meaning of additions with an immediate and of loads of one register beside that of moves, and
what a stretch of such words does: how it leaves the registers and which accesses it makes.
-/

namespace MachineCode.A64

/-! ## Words of both groups -/

inductive StraightInsn where
  | data (insn : DataInsn)
  | transfer (transfer : Transfer)
  deriving DecidableEq, Repr

/-- The instruction of a word. Bits 27 and 25 tell loads and stores from data processing. -/
def decodeStraight (w : Word) : Option StraightInsn :=
  if w.getLsbD 27 = true ∧ w.getLsbD 25 = false then (decodeTransfer w).map .transfer
  else (decodeData w).map .data

section

variable {w : Word}

private theorem readGroup_of_bits {group : BitVec 5} (h3 : group.getLsbD 3 = true)
    (h1 : group.getLsbD 1 = false) : readGroup group w = none := by
  have hgroup : group = 8#5 ∨ group = 9#5 ∨ group = 12#5 ∨ group = 13#5 ∨ group = 24#5 ∨
      group = 25#5 ∨ group = 28#5 ∨ group = 29#5 := by
    revert group
    decide
  obtain rfl | rfl | rfl | rfl | rfl | rfl | rfl | rfl := hgroup <;> rfl

theorem decodeStraight_of_data {insn : DataInsn} (h : decodeData w = some insn) :
    decodeStraight w = some (.data insn) := by
  have hbits : ¬(w.getLsbD 27 = true ∧ w.getLsbD 25 = false) := by
    rintro ⟨h27, h25⟩
    have hnone : decodeData w = none :=
      readGroup_of_bits (by simpa using h27) (by simpa using h25)
    rw [h] at hnone
    cases hnone
  rw [decodeStraight, if_neg hbits, h]
  rfl

private theorem getLsbD_of_slice {lo n v i : Nat} (h : (w.extractLsb' lo n).toNat = v)
    (hi : i < n) :
    w.getLsbD (lo + i) = v.testBit i := by
  rw [← h, BitVec.testBit_toNat, BitVec.getLsbD_extractLsb', decide_eq_true hi, Bool.true_and]

private theorem readSingle_bit {transfer : Transfer} (h : readSingle w = some transfer) :
    w.getLsbD 25 = false := by
  simp only [readSingle, Option.bind_eq_bind, Option.bind_eq_some_iff] at h
  obtain ⟨_, -, place, hplace, -⟩ := h
  simp only [readSinglePlace] at hplace
  split at hplace
  · next hmode => exact getLsbD_of_slice hmode (i := 1) (by decide)
  · next hmode => exact getLsbD_of_slice hmode (i := 1) (by decide)
  · cases hplace

private theorem readPair_bit {transfer : Transfer} (h : readPair w = some transfer) :
    w.getLsbD 25 = false := by
  simp only [readPair, Option.bind_eq_bind, Option.bind_eq_some_iff] at h
  obtain ⟨_, -, place, hplace, -⟩ := h
  simp only [readPairPlace] at hplace
  split at hplace
  · next hmode => exact getLsbD_of_slice hmode (i := 2) (by decide)
  · next hmode => exact getLsbD_of_slice hmode (i := 2) (by decide)
  · next hmode => exact getLsbD_of_slice hmode (i := 2) (by decide)
  · cases hplace

private theorem readLiteral_bit {transfer : Transfer} (h : readLiteral w = some transfer) :
    w.getLsbD 25 = false := by
  simp only [readLiteral] at h
  split at h
  · cases h
  · next hmode =>
    have hzero : (w.extractLsb' 24 2).toNat = 0 :=
      congrArg BitVec.toNat (Decidable.not_not.mp hmode)
    exact getLsbD_of_slice hzero (i := 1) (by decide)

theorem decodeStraight_of_transfer {transfer : Transfer} (h : decodeTransfer w = some transfer) :
    decodeStraight w = some (.transfer transfer) := by
  have hbits : w.getLsbD 27 = true ∧ w.getLsbD 25 = false := by
    have hread := h
    rw [decodeTransfer] at hread
    split at hread
    · next hgroup => exact ⟨getLsbD_of_slice hgroup (i := 1) (by decide), readSingle_bit hread⟩
    · next hgroup => exact ⟨getLsbD_of_slice hgroup (i := 1) (by decide), readPair_bit hread⟩
    · next hgroup => exact ⟨getLsbD_of_slice hgroup (i := 1) (by decide), readLiteral_bit hread⟩
    · cases hread
  rw [decodeStraight, if_pos hbits, h]
  rfl

end

/-! ## Results of instructions -/

def AddSub.result (op : AddSub) (left right : BitVec 64) : BitVec 64 :=
  match op with
  | .add => left + right
  | .sub => left - right

def Extend.bits : Extend → Nat
  | .uxtb | .sxtb => 8
  | .uxth | .sxth => 16
  | .uxtw | .sxtw => 32
  | .uxtx | .sxtx => 64

def Extend.isSigned : Extend → Bool
  | .uxtb | .uxth | .uxtw | .uxtx => false
  | .sxtb | .sxth | .sxtw | .sxtx => true

def Extend.result (extend : Extend) (value : BitVec 64) : BitVec 64 :=
  if extend.isSigned then (value.setWidth extend.bits).signExtend 64
  else (value.setWidth extend.bits).setWidth 64

/-- The register after a load of a value, by the sign extension of the load. -/
def loadResult {n : Nat} (value : BitVec n) : (extension : Option Width) → BitVec 64
  | none => value.setWidth 64
  | some width => (value.signExtend width.bits).setWidth 64

structure Access where
  address : BitVec 64
  /-- In bytes. -/
  size : Nat
  deriving DecidableEq, Repr

namespace Core

/-- The address of a place that leaves its base alone, for accesses of two to the `log2` bytes. -/
def address? (m : Core) (log2 : Nat) : Place → Option (BitVec 64)
  | .offset rn bytes => some (m.read rn + BitVec.ofInt 64 bytes)
  | .index rn rm extend scaled =>
    some (m.read rn + extend.result (m.read rm) <<< (if scaled then log2 else 0))
  | .literal bytes => some (m.origin + BitVec.ofInt 64 (m.pc + bytes))
  | .preIndex .. | .postIndex .. => none

/-- Executes an addition or subtraction of an immediate that leaves the flags alone, a load of one
register that leaves its base alone, or an instruction without accesses that `execute?` knows. -/
def perform? (space : AddressSpace) (m : Core) : StraightInsn → Option (Core × List Access)
  | .data (.addSub op width false rd rn (.immediate imm12 raised)) =>
    let right := BitVec.ofInt 64 (Source.immediateValue imm12 raised)
    some ((m.write rd (width.keep (op.result (m.read rn) right))).goTo (m.pc + 4), [])
  | .data insn => (m.execute? insn).map (·, [])
  | .transfer (.single true rt log2 extension place) => do
    let address ← m.address? log2 place
    let size := 1 <<< log2
    let value := space.read (8 * size) address size
    return ((m.write rt (loadResult value extension)).goTo (m.pc + 4), [⟨address, size⟩])
  | .transfer _ => none

def stepIn (space : AddressSpace) (code : Array Byte) (m : Core) :
    Option (Core × List Access) := do
  let w ← fetch code m.pc
  let insn ← decodeStraight w
  m.perform? space insn

/-- Executes `count` words. The accesses are in the order in which they are made. -/
def runIn (space : AddressSpace) (code : Array Byte) :
    (count : Nat) → Core → Option (Core × List Access)
  | 0, m => some (m, [])
  | count + 1, m => do
    let (m', first) ← m.stepIn space code
    let (m'', rest) ← runIn space code count m'
    return (m'', first ++ rest)

def performAll? (space : AddressSpace) : List StraightInsn → Core → Option (Core × List Access)
  | [], m => some (m, [])
  | insn :: insns, m => do
    let (m', first) ← m.perform? space insn
    let (m'', rest) ← performAll? space insns m'
    return (m'', first ++ rest)

section

variable {space : AddressSpace} {m m' : Core}

private theorem pc_perform? {insn : StraightInsn} {accesses : List Access}
    (h : m.perform? space insn = some (m', accesses)) : m'.pc = m.pc + 4 := by
  rw [perform?.eq_def] at h
  split at h
  · cases h
    rfl
  · obtain ⟨_, hexecute, heq⟩ := Option.map_eq_some_iff.mp h
    cases heq
    exact pc_execute? hexecute
  · obtain ⟨address, -, heq⟩ := Option.bind_eq_some_iff.mp h
    cases heq
    rfl
  · cases h

private theorem perform?_of_execute? {insn : DataInsn} (h : m.execute? insn = some m') :
    m.perform? space (.data insn) = some (m', []) := by
  cases insn with
  | addSub => cases h
  | _ => exact congrArg (Option.map (·, [])) h

theorem performAll?_cons {insn : StraightInsn} (h : m.perform? space insn = some (m', []))
    (rest : List StraightInsn) :
    performAll? space (insn :: rest) m = performAll? space rest m' := by
  simp only [performAll?, h, Option.bind_eq_bind, Option.bind_some, List.nil_append]
  exact Option.bind_fun_some _

theorem performAll?_data_append {insns : List DataInsn} (h : executeAll? insns m = some m')
    (rest : List StraightInsn) :
    performAll? space (insns.map .data ++ rest) m = performAll? space rest m' := by
  induction insns generalizing m with
  | nil =>
    cases h
    rfl
  | cons insn insns ih =>
    obtain ⟨m₁, hfirst, hlater⟩ := Option.bind_eq_some_iff.mp h
    rw [List.map_cons, List.cons_append, performAll?_cons (perform?_of_execute? hfirst),
      ih hlater]

theorem runIn_eq_performAll? {code : Array Byte} {words : List Word} {insns : List StraightInsn}
    (hreads : words.map decodeStraight = insns.map some) {offset : Nat}
    (hholds : Holds code offset (words.flatMap (littleEndian 4))) (hpc : m.pc = offset) :
    m.runIn space code words.length = performAll? space insns m := by
  induction words generalizing insns offset m with
  | nil =>
    obtain rfl : insns = [] := List.map_eq_nil_iff.mp hreads.symm
    rfl
  | cons w words ih =>
    cases insns with
    | nil => cases hreads
    | cons insn insns =>
      obtain ⟨hinsn, hrest⟩ := List.cons.inj hreads
      rw [List.flatMap_cons, holds_append, littleEndian_length] at hholds
      have hstep : m.stepIn space code = m.perform? space insn := by
        rw [stepIn, hpc, fetch_of_holds hholds.1]
        simp only [Option.bind_eq_bind, Option.bind_some, hinsn]
      simp only [List.length_cons, runIn, performAll?, hstep]
      cases hm : m.perform? space insn with
      | none => rfl
      | some result =>
        obtain ⟨m', first⟩ := result
        have hpc' : m'.pc = (offset + 4 : Nat) := by
          rw [pc_perform? hm, hpc]
          rfl
        have hlater := ih hrest hholds.2 hpc'
        simp only [Option.bind_eq_bind, Option.bind_some, hlater]

end

end Core

end MachineCode.A64
