import MachineCode.Proofs.A64Resolution

/-!
# Executing A64 branches

The meaning of the branch instructions on the code itself, read from the bits of its words. A
conditional branch, in whatever shape it stands in the end, goes to its label if its test holds and
past its own end otherwise.
-/

namespace MachineCode.A64

open Session

/-! ## The machine -/

structure Machine where
  /-- The offset in the code of the next instruction. -/
  pc : Int
  n : Bool
  z : Bool
  c : Bool
  v : Bool
  x : Fin 31 → BitVec 64
  /-- The address at which the code stands. -/
  origin : BitVec 64

inductive Insn where
  | nop
  | b (link : Bool) (offset : Int)
  | bCond (condition : BitVec 4) (offset : Int)
  | cb (wide nonzero : Bool) (rt : BitVec 5) (offset : Int)
  | tb (nonzero : Bool) (bit : BitVec 6) (rt : BitVec 5) (offset : Int)
  deriving DecidableEq

/-- The instruction of a word, for the instructions above. -/
def decode (w : Word) : Option Insn :=
  if w = 0xD503201F#32 then
    some .nop
  else if w.extractLsb' 26 5 = 0b00101#5 then
    some (.b (w.getLsbD 31) ((w.extractLsb' 0 26).toInt * 4))
  else if w.extractLsb' 24 8 = 0b01010100#8 ∧ w.getLsbD 4 = false then
    some (.bCond (w.extractLsb' 0 4) ((w.extractLsb' 5 19).toInt * 4))
  else if w.extractLsb' 25 6 = 0b011010#6 then
    some (.cb (w.getLsbD 31) (w.getLsbD 24) (w.extractLsb' 0 5) ((w.extractLsb' 5 19).toInt * 4))
  else if w.extractLsb' 25 6 = 0b011011#6 then
    some (.tb (w.getLsbD 24) (w.extractLsb' 31 1 ++ w.extractLsb' 19 5) (w.extractLsb' 0 5)
      ((w.extractLsb' 5 14).toInt * 4))
  else
    none

namespace Machine

def reg (m : Machine) (number : BitVec 5) : BitVec 64 :=
  if h : number.toNat < 31 then m.x ⟨number.toNat, h⟩ else 0#64

/-- The upper three bits of a condition select a test and the lowest one negates it, except in the
last condition. -/
def conditionHolds (m : Machine) (condition : BitVec 4) : Bool :=
  let selected :=
    match (condition.extractLsb' 1 3).toNat with
    | 0 => m.z
    | 1 => m.c
    | 2 => m.n
    | 3 => m.v
    | 4 => m.c && !m.z
    | 5 => m.n == m.v
    | 6 => m.n == m.v && !m.z
    | _ => true
  if condition.getLsbD 0 && condition != 0b1111#4 then !selected else selected

/-- Goes on at an offset from here if the test holds, and at the next word otherwise. -/
def branchIf (m : Machine) (test : Bool) (offset : Int) : Machine :=
  { m with pc := if test then m.pc + offset else m.pc + 4 }

/-- Goes on at `target`; the link register gets the address of the next word if `link`. -/
def jump (m : Machine) (link : Bool) (target : Int) : Machine :=
  let address := m.origin + BitVec.ofInt 64 (m.pc + 4)
  { m with
    pc := target
    x := if link then fun r => if r.val = 30 then address else m.x r else m.x }

def execute (m : Machine) : Insn → Machine
  | .nop => { m with pc := m.pc + 4 }
  | .b link offset => m.jump link (m.pc + offset)
  | .bCond condition offset => m.branchIf (m.conditionHolds condition) offset
  | .cb wide nonzero rt offset =>
    let zero := if wide then m.reg rt == 0#64 else (m.reg rt).setWidth 32 == 0#32
    m.branchIf (zero != nonzero) offset
  | .tb nonzero bit rt offset => m.branchIf ((m.reg rt).getLsbD bit.toNat == nonzero) offset

end Machine

/-- The word whose bytes stand at an offset, the lowest first. -/
def fetch (code : Array Byte) (pc : Int) : Option Word :=
  if 0 ≤ pc then do
    let b0 ← code[pc.toNat]?
    let b1 ← code[pc.toNat + 1]?
    let b2 ← code[pc.toNat + 2]?
    let b3 ← code[pc.toNat + 3]?
    return b3 ++ b2 ++ b1 ++ b0
  else
    none

def Machine.step (code : Array Byte) (m : Machine) : Option Machine := do
  let w ← fetch code m.pc
  let insn ← decode w
  return m.execute insn

/-- One or more steps, all of them taken from offsets in `[low, high)`. -/
inductive Executes (code : Array Byte) (low high : Int) : Machine → Machine → Prop
  | last {m m' : Machine} (inside : low ≤ m.pc ∧ m.pc < high) (step : m.step code = some m') :
    Executes code low high m m'
  | next {m m' m'' : Machine} (inside : low ≤ m.pc ∧ m.pc < high) (step : m.step code = some m')
    (rest : Executes code low high m' m'') : Executes code low high m m''

/-! ## The tests of branches -/

def Condition.holds (m : Machine) : Condition → Bool
  | .eq => m.z
  | .ne => !m.z
  | .cs => m.c
  | .cc => !m.c
  | .mi => m.n
  | .pl => !m.n
  | .vs => m.v
  | .vc => !m.v
  | .hi => m.c && !m.z
  | .ls => !m.c || m.z
  | .ge => m.n == m.v
  | .lt => m.n != m.v
  | .gt => !m.z && m.n == m.v
  | .le => m.z || m.n != m.v
  | .al | .nv => true

/-- The value of a register that a branch can test. -/
def Machine.read (m : Machine) : Register → BitVec 64
  | .x number => m.x number
  | .zr | .sp => 0#64

def Branch.taken (m : Machine) : Branch → Bool
  | .jump _ => true
  | .onCondition condition => condition.holds m
  | .compare nonzero rt width =>
    ((m.read rt).setWidth width.width = BitVec.ofNat width.width 0) != nonzero
  | .test set rt bit => (m.read rt).getLsbD bit == set

/-! ## Reading back a branch -/

private theorem append_bytes (w : Word) :
    (w >>> 8 >>> 8 >>> 8).setWidth 8 ++ (w >>> 8 >>> 8).setWidth 8 ++ (w >>> 8).setWidth 8 ++
      w.setWidth 8 = w := by
  apply BitVec.eq_of_getLsbD_eq
  intro i hi
  simp only [BitVec.getLsbD_append, BitVec.getLsbD_setWidth, BitVec.getLsbD_ushiftRight]
  by_cases h0 : i < 8
  · simp [h0]
  · by_cases h1 : i - 8 < 8
    · simp [h0, h1, show 8 + (i - 8) = i by omega]
    · by_cases h2 : i - 8 - 8 < 8
      · simp [h0, h1, h2, show 8 + (8 + (i - 8 - 8)) = i by omega]
      · simp [h0, h1, h2, show i - 8 - 8 - 8 < 8 by omega,
          show 8 + (8 + (8 + (i - 8 - 8 - 8))) = i by omega]

theorem fetch_of_holds {code : Array Byte} {offset : Nat} {w : Word}
    (h : Holds code offset (littleEndian 4 w)) : fetch code offset = some w := by
  have h0 := h 0 (by simp)
  have h1 := h 1 (by simp)
  have h2 := h 2 (by simp)
  have h3 := h 3 (by simp)
  simp only [littleEndian, List.getElem?_cons_zero, List.getElem?_cons_succ, Nat.add_zero]
    at h0 h1 h2 h3
  rw [fetch, if_pos (Int.natCast_nonneg offset), Int.toNat_natCast, h0, h1, h2, h3]
  exact congrArg some (append_bytes w)

def Branch.insn (offset : Int) : Branch → Insn
  | .jump link => .b link offset
  | .onCondition .al => .b false offset
  | .onCondition condition => .bCond condition.code offset
  | .compare nonzero rt width => .cb (width = .doubleWord) nonzero (number rt) offset
  | .test set rt bit => .tb set (BitVec.ofNat 6 bit) (number rt) offset

private theorem ne_nop {w : Word} {lo n : Nat} {opcode : BitVec n} (h : w.extractLsb' lo n = opcode)
    (hne : (0xD503201F#32 : Word).extractLsb' lo n ≠ opcode) : w ≠ 0xD503201F#32 := by
  rintro rfl
  exact hne h

section

variable {w : Word} {d : Int}

private theorem decode_jump (hopcode : w.extractLsb' 26 5 = 0b00101#5)
    (hfits : DispField.imm26.Fits d) :
    decode (DispField.imm26.insert d w) = some (.b (w.getLsbD 31) d) := by
  have hslice := DispField.extractLsb'_insert_of_apart .imm26 26 5 (by decide) d w
  have hlink := DispField.getLsbD_insert .imm26 d w 31
  have hoffset := DispField.decode_insert hfits w
  rw [hopcode] at hslice
  rw [if_neg (by decide)] at hlink
  rw [decode, if_neg (ne_nop hslice (by decide)), if_pos hslice, hlink]
  exact congrArg (fun offset => some (Insn.b (w.getLsbD 31) offset)) hoffset

private theorem decode_condition (hjump : w.extractLsb' 26 5 ≠ 0b00101#5)
    (hopcode : w.extractLsb' 24 8 = 0b01010100#8) (hbit : w.getLsbD 4 = false)
    (hfits : DispField.imm19.Fits d) :
    decode (DispField.imm19.insert d w) = some (.bCond (w.extractLsb' 0 4) d) := by
  have hnot := DispField.extractLsb'_insert_of_apart .imm19 26 5 (by decide) d w
  have hslice := DispField.extractLsb'_insert_of_apart .imm19 24 8 (by decide) d w
  have hcode := DispField.extractLsb'_insert_of_apart .imm19 0 4 (by decide) d w
  have hfour := DispField.getLsbD_insert .imm19 d w 4
  have hoffset := DispField.decode_insert hfits w
  rw [← hnot] at hjump
  rw [hopcode] at hslice
  rw [if_neg (by decide), hbit] at hfour
  rw [decode, if_neg (ne_nop hslice (by decide)), if_neg hjump, if_pos ⟨hslice, hfour⟩, hcode]
  exact congrArg (fun offset => some (Insn.bCond (w.extractLsb' 0 4) offset)) hoffset

private theorem decode_compare (hjump : w.extractLsb' 26 5 ≠ 0b00101#5)
    (hcondition : w.extractLsb' 24 8 ≠ 0b01010100#8) (hopcode : w.extractLsb' 25 6 = 0b011010#6)
    (hfits : DispField.imm19.Fits d) :
    decode (DispField.imm19.insert d w) =
      some (.cb (w.getLsbD 31) (w.getLsbD 24) (w.extractLsb' 0 5) d) := by
  have hnot := DispField.extractLsb'_insert_of_apart .imm19 26 5 (by decide) d w
  have hnor := DispField.extractLsb'_insert_of_apart .imm19 24 8 (by decide) d w
  have hslice := DispField.extractLsb'_insert_of_apart .imm19 25 6 (by decide) d w
  have hrt := DispField.extractLsb'_insert_of_apart .imm19 0 5 (by decide) d w
  have hwide := DispField.getLsbD_insert .imm19 d w 31
  have hsense := DispField.getLsbD_insert .imm19 d w 24
  have hoffset := DispField.decode_insert hfits w
  rw [← hnot] at hjump
  rw [← hnor] at hcondition
  rw [hopcode] at hslice
  rw [if_neg (by decide)] at hwide hsense
  rw [decode, if_neg (ne_nop hslice (by decide)), if_neg hjump, if_neg (fun h => hcondition h.1),
    if_pos hslice, hwide, hsense, hrt]
  exact congrArg
    (fun offset => some (Insn.cb (w.getLsbD 31) (w.getLsbD 24) (w.extractLsb' 0 5) offset)) hoffset

private theorem decode_test (hjump : w.extractLsb' 26 5 ≠ 0b00101#5)
    (hcondition : w.extractLsb' 24 8 ≠ 0b01010100#8) (hopcode : w.extractLsb' 25 6 = 0b011011#6)
    (hfits : DispField.imm14.Fits d) :
    decode (DispField.imm14.insert d w) =
      some (.tb (w.getLsbD 24) (w.extractLsb' 31 1 ++ w.extractLsb' 19 5) (w.extractLsb' 0 5)
        d) := by
  have hnot := DispField.extractLsb'_insert_of_apart .imm14 26 5 (by decide) d w
  have hnor := DispField.extractLsb'_insert_of_apart .imm14 24 8 (by decide) d w
  have hslice := DispField.extractLsb'_insert_of_apart .imm14 25 6 (by decide) d w
  have hhigh := DispField.extractLsb'_insert_of_apart .imm14 31 1 (by decide) d w
  have hlow := DispField.extractLsb'_insert_of_apart .imm14 19 5 (by decide) d w
  have hrt := DispField.extractLsb'_insert_of_apart .imm14 0 5 (by decide) d w
  have hsense := DispField.getLsbD_insert .imm14 d w 24
  have hoffset := DispField.decode_insert hfits w
  rw [← hnot] at hjump
  rw [← hnor] at hcondition
  rw [hopcode] at hslice
  rw [if_neg (by decide)] at hsense
  have hcompare : (DispField.imm14.insert d w).extractLsb' 25 6 ≠ 0b011010#6 := by
    rw [hslice]
    decide
  rw [decode, if_neg (ne_nop hslice (by decide)), if_neg hjump, if_neg (fun h => hcondition h.1),
    if_neg hcompare, if_pos hslice, hsense, hhigh, hlow, hrt]
  exact congrArg (fun offset => some (Insn.tb (w.getLsbD 24)
    (w.extractLsb' 31 1 ++ w.extractLsb' 19 5) (w.extractLsb' 0 5) offset)) hoffset

end

private theorem jump_slices : ∀ link : Bool, let w := Branch.frame (.jump link)
    w.extractLsb' 26 5 = 0b00101#5 ∧ w.getLsbD 31 = link := by
  decide

private theorem condition_slices : ∀ code : BitVec 4,
    let w : Word := 0b01010100#8 ++ 0#19 ++ 0#1 ++ code
    w.extractLsb' 26 5 ≠ 0b00101#5 ∧ w.extractLsb' 24 8 = 0b01010100#8 ∧ w.getLsbD 4 = false ∧
      w.extractLsb' 0 4 = code := by
  decide +kernel

private theorem compare_slices (wide nonzero : Bool) (rt : BitVec 5) :
    let w : Word := BitVec.ofBool wide ++ 0b011010#6 ++ BitVec.ofBool nonzero ++ 0#19 ++ rt
    w.extractLsb' 26 5 ≠ 0b00101#5 ∧ w.extractLsb' 24 8 ≠ 0b01010100#8 ∧
      w.extractLsb' 25 6 = 0b011010#6 ∧ w.getLsbD 31 = wide ∧ w.getLsbD 24 = nonzero ∧
      w.extractLsb' 0 5 = rt := by
  have hhigh : ∀ wide nonzero : Bool,
      let high : BitVec 27 := BitVec.ofBool wide ++ 0b011010#6 ++ BitVec.ofBool nonzero ++ 0#19
      high.extractLsb' 21 5 ≠ 0b00101#5 ∧ high.extractLsb' 19 8 ≠ 0b01010100#8 ∧
        high.extractLsb' 20 6 = 0b011010#6 ∧ high.getLsbD 26 = wide ∧
        high.getLsbD 19 = nonzero := by
    decide
  obtain ⟨hjump, hcondition, hopcode, hwide, hsense⟩ := hhigh wide nonzero
  intro w
  refine ⟨?_, ?_, ?_, ?_, ?_, BitVec.extractLsb'_append_eq_right⟩
  · rw [BitVec.extractLsb'_append_eq_of_le (by decide)]
    exact hjump
  · rw [BitVec.extractLsb'_append_eq_of_le (by decide)]
    exact hcondition
  · rw [BitVec.extractLsb'_append_eq_of_le (by decide)]
    exact hopcode
  · rw [BitVec.getLsbD_append]
    exact hwide
  · rw [BitVec.getLsbD_append]
    exact hsense

private theorem test_slices (bit : Fin 64) (set : Bool) (rt : BitVec 5) :
    let w : Word := BitVec.ofBool (decide (32 ≤ bit.val)) ++ 0b011011#6 ++ BitVec.ofBool set ++
      BitVec.ofNat 5 bit ++ 0#14 ++ rt
    w.extractLsb' 26 5 ≠ 0b00101#5 ∧ w.extractLsb' 24 8 ≠ 0b01010100#8 ∧
      w.extractLsb' 25 6 = 0b011011#6 ∧ w.getLsbD 24 = set ∧
      w.extractLsb' 31 1 ++ w.extractLsb' 19 5 = BitVec.ofNat 6 bit ∧ w.extractLsb' 0 5 = rt := by
  have hhigh : ∀ (bit : Fin 64) (set : Bool),
      let high : BitVec 27 := BitVec.ofBool (decide (32 ≤ bit.val)) ++ 0b011011#6 ++
        BitVec.ofBool set ++ BitVec.ofNat 5 bit ++ 0#14
      high.extractLsb' 21 5 ≠ 0b00101#5 ∧ high.extractLsb' 19 8 ≠ 0b01010100#8 ∧
        high.extractLsb' 20 6 = 0b011011#6 ∧ high.getLsbD 19 = set ∧
        high.extractLsb' 26 1 ++ high.extractLsb' 14 5 = BitVec.ofNat 6 bit := by
    decide +kernel
  obtain ⟨hjump, hcondition, hopcode, hsense, hbit⟩ := hhigh bit set
  intro w
  have htop : w.extractLsb' 31 1 = _ := BitVec.extractLsb'_append_eq_of_le (by decide)
  have hlow : w.extractLsb' 19 5 = _ := BitVec.extractLsb'_append_eq_of_le (by decide)
  refine ⟨?_, ?_, ?_, ?_, ?_, BitVec.extractLsb'_append_eq_right⟩
  · rw [BitVec.extractLsb'_append_eq_of_le (by decide)]
    exact hjump
  · rw [BitVec.extractLsb'_append_eq_of_le (by decide)]
    exact hcondition
  · rw [BitVec.extractLsb'_append_eq_of_le (by decide)]
    exact hopcode
  · rw [BitVec.getLsbD_append]
    exact hsense
  · rw [htop, hlow]
    exact hbit

private theorem frame_onCondition {condition : Condition} (hal : condition ≠ .al) :
    (Branch.onCondition condition).frame = 0b01010100#8 ++ 0#19 ++ 0#1 ++ condition.code := by
  cases condition with
  | al => exact absurd rfl hal
  | _ => rfl

private theorem ne_al_of_kind {condition : Condition}
    (h : (Branch.onCondition condition).kind ≠ .unconditional) : condition ≠ .al := by
  intro hal
  rw [hal] at h
  exact h rfl

private theorem insn_onCondition {condition : Condition} (hal : condition ≠ .al) (d : Int) :
    (Branch.onCondition condition).insn d = .bCond condition.code d := by
  cases condition with
  | al => exact absurd rfl hal
  | _ => rfl

/-- A branch with a displacement is read back as the instruction that was asked for. -/
theorem decode_insert_word {branch : Branch} (henc : branch.Encodable) {d : Int}
    (hfits : branch.kind.field.Fits d) :
    decode (branch.kind.field.insert d branch.word) = some (branch.insn d) := by
  rw [word_eq_frame henc]
  cases branch with
  | jump link =>
    obtain ⟨hopcode, hlink⟩ := jump_slices link
    have hdecode := decode_jump hopcode hfits
    rw [hlink] at hdecode
    exact hdecode
  | onCondition condition =>
    by_cases hal : condition = .al
    · subst hal
      exact decode_jump (w := Branch.frame (.onCondition .al)) (by decide) hfits
    · rw [Branch.kind_onCondition hal] at hfits ⊢
      rw [frame_onCondition hal, insn_onCondition hal]
      obtain ⟨hjump, hopcode, hbit, hcode⟩ := condition_slices condition.code
      have hdecode := decode_condition hjump hopcode hbit hfits
      rw [hcode] at hdecode
      exact hdecode
  | compare nonzero rt width =>
    obtain ⟨hjump, hcondition, hopcode, hwide, hsense, hrt⟩ :=
      compare_slices (width = .doubleWord) nonzero (Branch.number rt)
    have hdecode := decode_compare hjump hcondition hopcode hfits
    rw [hwide, hsense, hrt] at hdecode
    exact hdecode
  | test set rt bit =>
    obtain ⟨hjump, hcondition, hopcode, hsense, hbit, hrt⟩ :=
      test_slices ⟨bit, henc.2⟩ set (Branch.number rt)
    have hdecode := decode_test hjump hcondition hopcode hfits
    rw [hsense, hbit, hrt] at hdecode
    exact hdecode

/-! ## Tests -/

theorem conditionHolds_code (m : Machine) (condition : Condition) :
    m.conditionHolds condition.code = condition.holds m := by
  cases condition with
  | ls =>
    change (!(m.c && !m.z)) = (!m.c || m.z)
    rw [Bool.not_and, Bool.not_not]
  | gt => exact Bool.and_comm _ _
  | le =>
    change (!(m.n == m.v && !m.z)) = (m.z || m.n != m.v)
    rw [Bool.not_and, Bool.not_not, Bool.or_comm]
    rfl
  | _ => rfl

private theorem reg_number (m : Machine) {rt : Register} (h : rt ≠ .sp) :
    m.reg (Branch.number rt) = m.read rt := by
  cases rt with
  | zr => rfl
  | sp => contradiction
  | x number =>
    have hmod : number.val % 2 ^ 5 = number.val := Nat.mod_eq_of_lt (by omega)
    have hnat : (BitVec.ofNat 5 number.val).toNat = number.val := by
      rw [BitVec.toNat_ofNat, hmod]
    simp [Machine.reg, Branch.number, Machine.read, hnat]

private theorem zero_eq (value : BitVec 64) (width : AccessSize) :
    (if decide (width = .doubleWord) = true then value == 0#64
      else value.setWidth 32 == 0#32) =
      decide (value.setWidth width.width = BitVec.ofNat width.width 0) := by
  cases width with
  | doubleWord =>
    change (value == 0#64) = decide (value.setWidth 64 = 0#64)
    rw [BitVec.setWidth_eq]
    rfl
  | _ => rfl

theorem execute_insn {branch : Branch} (henc : branch.Encodable)
    (htest : branch.kind ≠ .unconditional) (m : Machine) (d : Int) :
    m.execute (branch.insn d) = m.branchIf (branch.taken m) d := by
  cases branch with
  | jump link => exact absurd rfl htest
  | onCondition condition =>
    rw [insn_onCondition (ne_al_of_kind htest)]
    simp only [Machine.execute, conditionHolds_code, Branch.taken]
  | compare nonzero rt width =>
    simp only [Machine.execute, Branch.insn, Branch.taken, reg_number m henc, zero_eq]
  | test set rt bit =>
    have hmod : bit % 2 ^ 6 = bit := Nat.mod_eq_of_lt henc.2
    simp only [Machine.execute, Branch.insn, Branch.taken, reg_number m henc.1,
      BitVec.toNat_ofNat, hmod]

/-! ## Opposite tests -/

/-- The same branch on the opposite outcome of its test. -/
def Branch.opposite : Branch → Branch
  | .jump link => .jump link
  | .onCondition condition => .onCondition condition.invert
  | .compare nonzero rt width => .compare (!nonzero) rt width
  | .test set rt bit => .test (!set) rt bit

private theorem xor_flag {x y : Word} {position : Nat} (hx : x &&& flag position true = 0#32)
    (hy : y &&& flag position true = 0#32) (on : Bool) :
    (x ||| flag position on ||| y) ^^^ flag position true = x ||| flag position (!on) ||| y := by
  apply BitVec.eq_of_getLsbD_eq
  intro i _
  have hxi : (x &&& flag position true).getLsbD i = false := by rw [hx, BitVec.getLsbD_zero]
  have hyi : (y &&& flag position true).getLsbD i = false := by rw [hy, BitVec.getLsbD_zero]
  have hoff : flag position false = 0#32 := rfl
  rw [BitVec.getLsbD_and] at hxi hyi
  cases on <;>
    simp only [Bool.not_true, Bool.not_false, hoff, BitVec.getLsbD_xor, BitVec.getLsbD_or,
      BitVec.getLsbD_zero] <;>
    cases hf : (flag position true).getLsbD i <;> simp_all

private theorem invertBranch_word {branch : Branch} (henc : branch.Encodable)
    (htest : branch.kind ≠ .unconditional) : invertBranch branch.word = branch.opposite.word := by
  rw [invertBranch_eq_xor (ofWord?_word branch)]
  cases branch with
  | jump link => exact absurd rfl htest
  | onCondition condition =>
    cases condition with
    | al => exact absurd rfl htest
    | nv => exact absurd rfl henc
    | _ => rfl
  | compare nonzero rt width =>
    refine xor_flag ?_ (field_and (by decide) _) nonzero
    rw [BitVec.and_or_distrib_right, AccessSize.widthBit, flag_and (by decide)]
    decide
  | test set rt bit =>
    have hhigh : (wordTbz ||| field 31 ((BitVec.ofNat 6 bit).extractLsb' 5 1)) &&& flag 24 true =
        0#32 := by
      rw [BitVec.and_or_distrib_right, field_and (by decide)]
      decide
    have hlow : (field 19 ((BitVec.ofNat 6 bit).extractLsb' 0 5) |||
        field 0 ((rt.slot .zero).getD 0#5)) &&& flag 24 true = 0#32 := by
      rw [BitVec.and_or_distrib_right, field_and (by decide), field_and (by decide)]
      decide
    have hflip := xor_flag hhigh hlow set
    simp only [← BitVec.or_assoc] at hflip
    exact hflip

private theorem opposite_encodable {branch : Branch} (henc : branch.Encodable)
    (htest : branch.kind ≠ .unconditional) : branch.opposite.Encodable := by
  cases branch with
  | onCondition condition =>
    cases condition with
    | al => exact absurd rfl htest
    | nv => exact absurd rfl henc
    | _ => exact nofun
  | _ => exact henc

private theorem kind_opposite {branch : Branch} (henc : branch.Encodable)
    (htest : branch.kind ≠ .unconditional) : branch.opposite.kind = branch.kind := by
  cases branch with
  | onCondition condition =>
    cases condition with
    | al => exact absurd rfl htest
    | nv => exact absurd rfl henc
    | _ => rfl
  | _ => rfl

theorem holds_invert {condition : Condition} (hal : condition ≠ .al)
    (hnv : condition ≠ .nv) (m : Machine) : condition.invert.holds m = !condition.holds m := by
  cases condition with
  | al => contradiction
  | nv => contradiction
  | hi =>
    change (!m.c || m.z) = !(m.c && !m.z)
    rw [Bool.not_and, Bool.not_not]
  | ls =>
    change (m.c && !m.z) = !(!m.c || m.z)
    rw [Bool.not_or, Bool.not_not]
  | gt =>
    change (m.z || !(m.n == m.v)) = !(!m.z && m.n == m.v)
    rw [Bool.not_and, Bool.not_not]
  | le =>
    change (!m.z && m.n == m.v) = !(m.z || !(m.n == m.v))
    rw [Bool.not_or, Bool.not_not]
  | eq | cs | mi | vs | ge => rfl
  | ne | cc | pl | vc | lt => exact (Bool.not_not _).symm

private theorem taken_opposite {branch : Branch} (henc : branch.Encodable)
    (htest : branch.kind ≠ .unconditional) (m : Machine) :
    branch.opposite.taken m = !branch.taken m := by
  cases branch with
  | jump link => exact absurd rfl htest
  | onCondition condition => exact holds_invert (ne_al_of_kind htest) henc m
  | compare nonzero rt width => cases nonzero <;> simp [Branch.opposite, Branch.taken]
  | test set rt bit => cases set <;> simp [Branch.opposite, Branch.taken]

/-! ## Execution -/

section

variable {code : Array Byte} {m : Machine} {start : Nat}

private theorem step_of_holds {w : Word} {insn : Insn} (hcode : Holds code start (littleEndian 4 w))
    (hdecode : decode w = some insn) (hpc : m.pc = start) :
    m.step code = some (m.execute insn) := by
  simp only [Machine.step, hpc, fetch_of_holds hcode, Option.bind_eq_bind, Option.bind_some,
    hdecode, Option.pure_def]

private theorem step_test {branch : Branch} (henc : branch.Encodable)
    (htest : branch.kind ≠ .unconditional) {d : Int} (hfits : branch.kind.field.Fits d)
    (hcode : Holds code start (littleEndian 4 (branch.kind.field.insert d branch.word)))
    (hpc : m.pc = start) : m.step code = some (m.branchIf (branch.taken m) d) := by
  rw [step_of_holds hcode (decode_insert_word henc hfits) hpc, execute_insn henc htest]

private theorem step_guard {branch : Branch} (henc : branch.Encodable)
    (htest : branch.kind ≠ .unconditional)
    (hcode : Holds code start (littleEndian 4 (guardOf branch.word))) (hpc : m.pc = start) :
    m.step code = some (m.branchIf (!branch.taken m) 8) := by
  have hkind := kind_opposite henc htest
  have hfits : branch.opposite.kind.field.Fits 8 := by
    rw [hkind]
    cases branch.kind <;> decide
  rw [guardOf, fieldOf_eq (ofWord?_word branch), invertBranch_word henc htest, ← hkind] at hcode
  rw [step_test (opposite_encodable henc htest) (hkind ▸ htest) hfits hcode hpc,
    taken_opposite henc htest]

private theorem step_nop (hcode : Holds code start (littleEndian 4 wordNop)) (hpc : m.pc = start) :
    m.step code = some { m with pc := m.pc + 4 } := by
  have hdecode : decode wordNop = some .nop := by decide
  exact step_of_holds hcode hdecode hpc

private theorem step_b {d : Int} (hfits : DispField.imm26.Fits d)
    (hcode : Holds code start (littleEndian 4 (DispField.imm26.insert d wordB)))
    (hpc : m.pc = start) : m.step code = some { m with pc := m.pc + d } := by
  have henc : (Branch.jump false).Encodable := trivial
  rw [step_of_holds hcode (decode_insert_word henc hfits) hpc]
  rfl

theorem executes_single {branch : Branch} (henc : branch.Encodable)
    (htest : branch.kind ≠ .unconditional) {target : Nat}
    (hfits : branch.kind.field.Fits ((target : Int) - start))
    (hcode : Holds code start
      (littleEndian 4 (branch.kind.field.insert (target - start) branch.word)))
    (hpc : m.pc = start) :
    Executes code start (start + 4) m
      { m with pc := if branch.taken m then target else start + 4 } := by
  apply Executes.last (by omega)
  rw [step_test henc htest hfits hcode hpc, Machine.branchIf, hpc]
  congr 2
  split <;> omega

/-- A pair, whether binding turned it back into a single branch or not. -/
theorem executes_pair {branch : Branch} (henc : branch.Encodable)
    (htest : branch.kind ≠ .unconditional) {target : Nat}
    (hreach : (Shape.pair branch.word).Reaches start target)
    (hcode : Holds code start ((Shape.pair branch.word).patch start target)) (hpc : m.pc = start) :
    Executes code start (start + 8) m
      { m with pc := if branch.taken m then target else start + 8 } := by
  have hfield := fieldOf_eq (ofWord?_word branch)
  simp only [Shape.Reaches, Shape.distance, hfield] at hreach
  simp only [Shape.patch, Shape.distance, hfield] at hcode
  by_cases hfits : branch.kind.field.Fits ((target : Int) - start)
  · rw [if_pos hfits] at hcode
    obtain ⟨hfirst, hsecond⟩ := holds_append.mp hcode
    rw [littleEndian_length] at hsecond
    have hstep := step_test henc htest hfits hfirst hpc
    cases htaken : branch.taken m with
    | true =>
      apply Executes.last (by omega)
      rw [hstep, htaken, Machine.branchIf, hpc]
      congr 2
      simp only [if_true]
      omega
    | false =>
      apply Executes.next (by omega) hstep
      have hnext : (m.branchIf (branch.taken m) (target - start)).pc = (start + 4 : Nat) := by
        simp only [Machine.branchIf, htaken, Bool.false_eq_true, if_false, hpc]
        omega
      apply Executes.last (by omega)
      rw [step_nop hsecond hnext, hnext]
      simp only [Machine.branchIf, Bool.false_eq_true, if_false]
      congr 2
  · rw [if_neg hfits] at hcode
    have hwide := hreach.resolve_left hfits
    obtain ⟨hfirst, hsecond⟩ := holds_append.mp hcode
    rw [littleEndian_length] at hsecond
    have hstep := step_guard henc htest hfirst hpc
    cases htaken : branch.taken m with
    | true =>
      apply Executes.next (by omega) hstep
      have hnext : (m.branchIf (!branch.taken m) 8).pc = (start + 4 : Nat) := by
        simp only [Machine.branchIf, htaken, Bool.not_true, Bool.false_eq_true, if_false, hpc]
        omega
      apply Executes.last (by omega)
      rw [step_b hwide hsecond hnext, hnext]
      simp only [Machine.branchIf, if_true]
      congr 2
      omega
    | false =>
      apply Executes.last (by omega)
      rw [hstep, htaken, Machine.branchIf, hpc]
      congr 2

end

/-! ## Resolution -/

private theorem shape_far {branch : Branch} (htest : branch.kind ≠ .unconditional)
    (position : Option Nat) (start : Nat) :
    branch.shape true position start = .single branch.word ∨
      branch.shape true position start = .pair branch.word := by
  simp only [Branch.shape, htest, Bool.true_eq_false, or_self, if_false]
  cases position with
  | none => exact .inr rfl
  | some target =>
    by_cases hfits : branch.kind.field.Fits ((target : Int) - start)
    · exact .inl (if_pos hfits)
    · exact .inr (if_neg hfits)

def Branch.links : Branch → Bool
  | .jump link => link
  | _ => false

private theorem execute_jump {branch : Branch} (hjump : branch.kind = .unconditional)
    (m : Machine) (d : Int) :
    m.execute (branch.insn d) = m.jump branch.links (m.pc + d) := by
  cases branch with
  | jump link => rfl
  | onCondition condition =>
    by_cases hal : condition = .al
    · subst hal
      rfl
    · rw [Branch.kind_onCondition hal] at hjump
      cases hjump
  | compare nonzero rt width => cases hjump
  | test set rt bit => cases hjump

/-- With far branches, every branch goes where it was asked to go. A test, in its four or eight
bytes, leads to the final position of its label if it holds and past its own end otherwise, and
passes no other offset outside itself; `b` and `bl` lead to the label at once. -/
theorem far_branch_executes {events : List Event} {s : Session} {i : Nat} {a b : Assembler}
    {name : String} {branch : Branch} {p : Nat}
    (hmade : Replied events s i a (.a64Branch name branch)) (hfar : a.target = .a64 true)
    (hb : (empty.run events).assembler? i = some b)
    (hp : ((empty.run events).labels.get name).position? = some p) :
    (branch.kind ≠ .unconditional → ∃ c len,
      (s.step i (.a64Branch name branch)).1.assembler? i = some c ∧
      c.buffer.size = a.buffer.size + len ∧ (len = 4 ∨ len = 8) ∧
      ∀ m : Machine, m.pc = a.buffer.size →
        Executes b.buffer.bytes a.buffer.size (a.buffer.size + len) m
          { m with pc := if branch.taken m then p else a.buffer.size + len }) ∧
    (branch.kind = .unconditional → ∀ m : Machine, m.pc = a.buffer.size →
      m.step b.buffer.bytes = some (m.jump branch.links p)) := by
  have hissue : Request.issue? s.labels a (.a64Branch name branch) =
      some ⟨name, a.buffer.size,
        branch.shape true (s.labels.get name).position? a.buffer.size⟩ := by
    simp only [Request.issue?, hfar]
  obtain ⟨-, hreach, hholds⟩ := hmade.resolved hissue hb hp
  obtain ⟨c, hc, -, hsize⟩ := hmade.appended hissue
  have henc := encodable_of_replied hmade
  have hfield := fieldOf_eq (ofWord?_word branch)
  constructor
  · intro htest
    rcases shape_far htest (s.labels.get name).position? a.buffer.size with hshape | hshape
    · rw [hshape] at hreach hholds hsize
      simp only [Shape.Reaches, hfield] at hreach
      simp only [Shape.opcode, Shape.patch, hfield] at hholds
      refine ⟨c, 4, hc, hsize, .inl rfl, ?_⟩
      intro m hpc
      exact executes_single henc htest hreach hholds hpc
    · rw [hshape] at hreach hholds hsize
      refine ⟨c, 8, hc, hsize, .inr rfl, ?_⟩
      intro m hpc
      exact executes_pair henc htest hreach hholds hpc
  · intro hjump m hpc
    have hshape : branch.shape true (s.labels.get name).position? a.buffer.size =
        .single branch.word := by
      simp only [Branch.shape, hjump, true_or, if_true]
    rw [hshape] at hreach hholds
    simp only [Shape.Reaches, hfield] at hreach
    simp only [Shape.opcode, Shape.patch, hfield] at hholds
    have htarget : m.pc + ((p : Int) - a.buffer.size) = p := by omega
    rw [step_of_holds hholds (decode_insert_word henc hreach) hpc, execute_jump hjump]
    exact congrArg (fun target => some (m.jump branch.links target)) htarget

/-- Tests to a label ahead, one of which binding turns back into a single branch, and one back. -/
private def farRun : List Event :=
  [.add 4096 .a64 { Options.standard with farBranches := true, initialCapacity := 64 },
   .request 0 (.bind "in"),
   .request 0 (.a64Branch "out" (.compare false .lr .word)),
   .request 0 (.a64Branch "in" (.onCondition .lt)),
   .request 0 (.a64Branch "out" (.jump true)),
   .request 0 (.a64 .nop),
   .request 0 (.bind "out")]

theorem farRun_executes :
    ∃ s a b, Replied farRun s 0 a (.a64Branch "out" (.compare false .lr .word)) ∧
      a.target = .a64 true ∧ (empty.run farRun).assembler? 0 = some b ∧
      ((empty.run farRun).labels.get "out").position? = some 20 ∧
      ∃ c len,
        (s.step 0 (.a64Branch "out" (.compare false .lr .word))).1.assembler? 0 = some c ∧
        c.buffer.size = a.buffer.size + len ∧ (len = 4 ∨ len = 8) ∧
        ∀ m : Machine, m.pc = a.buffer.size →
          Executes b.buffer.bytes a.buffer.size (a.buffer.size + len) m
            { m with pc := if (Branch.compare false .lr .word).taken m then 20
                else a.buffer.size + len } := by
  obtain ⟨a, ha, hfar⟩ := Option.map_eq_some_iff.mp
    (show ((empty.run (farRun.take 2)).assembler? 0).map Assembler.target = some (.a64 true) by
      decide +kernel)
  obtain ⟨b, hb⟩ := Option.isSome_iff_exists.mp
    (show ((empty.run farRun).assembler? 0).isSome = true by decide +kernel)
  have hmade : Replied farRun (empty.run (farRun.take 2)) 0 a
      (.a64Branch "out" (.compare false .lr .word)) :=
    ⟨farRun.take 2, farRun.drop 3, rfl, rfl, ha, by decide +kernel⟩
  have hp : ((empty.run farRun).labels.get "out").position? = some 20 := by decide +kernel
  exact ⟨_, a, b, hmade, hfar, hb, hp, (far_branch_executes hmade hfar hb hp).1 (by decide)⟩

end MachineCode.A64
