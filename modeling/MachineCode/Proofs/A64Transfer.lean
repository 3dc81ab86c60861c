import MachineCode.Proofs.A64Data

/-!
# A64 load and store words

The registers, the address and the width of a load or store, read from its word by their positions
alone. Each word that an assembler emits for a load or store reads back as what was asked for.
-/

namespace MachineCode.A64

inductive Place where
  | offset (rn : Register) (bytes : Int)
  /-- The sum is written back to the base before the access. -/
  | preIndex (rn : Register) (bytes : Int)
  /-- The access goes to the base, and the sum is written back after it. -/
  | postIndex (rn : Register) (bytes : Int)
  /-- The index is extended, and multiplied by the access size if `scaled`. -/
  | index (rn rm : Register) (extend : Extend) (scaled : Bool)
  /-- Counted from the instruction. -/
  | literal (bytes : Int)
  deriving DecidableEq, Repr

/-- Loads and stores. An access moves two to the `log2` bytes per register, and a load extends the
sign to `extension` bits if there is one. -/
inductive Transfer where
  | single (isLoad : Bool) (rt : Register) (log2 : Nat) (extension : Option Width) (place : Place)
  | pair (isLoad : Bool) (rt rt2 : Register) (log2 : Nat) (extension : Option Width) (place : Place)
  deriving DecidableEq, Repr

def AccessSize.extension (size : AccessSize) : Option Width :=
  if size.isSigned then some .x else none

/-! ## Reading words

The layout of each class from the highest bit down:

    scaled       size 111 0 01 opc imm12 Rn Rt
    indexed      size 111 0 00 opc 1 Rm option S 10 Rn Rt
    unscaled     size 111 0 00 opc 0 imm9 mode Rn Rt
    pair         opc 101 0 mode L imm7 Rt2 Rn Rt
    literal      opc 011 0 00 imm19 Rt
-/

/-- The place of an unscaled offset, by the two bits that tell when the base is written back. -/
def unscaledPlace? (rn : Register) (bytes : Int) (mode : BitVec 2) : Option Place :=
  match mode.toNat with
  | 0b00 => some (.offset rn bytes)
  | 0b01 => some (.postIndex rn bytes)
  | 0b11 => some (.preIndex rn bytes)
  | _ => none

def readSinglePlace (w : Word) (log2 : Nat) : Option Place :=
  let rn := registerAt w 5 .stackPointer
  match (w.extractLsb' 24 2).toNat with
  | 0b01 => some (.offset rn ((w.extractLsb' 10 12).toNat * (1 <<< log2) : Nat))
  | 0b00 =>
    if w.getLsbD 21 then
      let extend := Extend.ofCode (w.extractLsb' 13 3)
      if w.extractLsb' 10 2 = 0b10#2 ∧ extend ∈ [Extend.uxtw, .uxtx, .sxtw, .sxtx] then
        some (.index rn (registerAt w 16 .zero) extend (w.getLsbD 12))
      else
        none
    else
      unscaledPlace? rn (w.extractLsb' 12 9).toInt (w.extractLsb' 10 2)
  | _ => none

/-- Whether one register is loaded, and how it is extended. Of 64 bits there is no load with an
extension, and of 32 bits none to 32 bits. -/
def readSingleKind (log2 : Nat) (opc : BitVec 2) : Option (Bool × Option Width) :=
  match opc.toNat with
  | 0b00 => some (false, none)
  | 0b01 => some (true, none)
  | 0b10 => if log2 < 3 then some (true, some .x) else none
  | _ => if log2 < 2 then some (true, some .w) else none
def readSingle (w : Word) : Option Transfer := do
  let log2 := (w.extractLsb' 30 2).toNat
  let (isLoad, extension) ← readSingleKind log2 (w.extractLsb' 22 2)
  let place ← readSinglePlace w log2
  return .single isLoad (registerAt w 0 .zero) log2 extension place

def readPairPlace (w : Word) (log2 : Nat) : Option Place :=
  let rn := registerAt w 5 .stackPointer
  let bytes := (w.extractLsb' 15 7).toInt * (1 <<< log2 : Nat)
  match (w.extractLsb' 23 3).toNat with
  | 0b001 => some (.postIndex rn bytes)
  | 0b010 => some (.offset rn bytes)
  | 0b011 => some (.preIndex rn bytes)
  | _ => none

/-- The size and the extension of each of two registers; only loads have an extension. -/
def readPairKind (isLoad : Bool) (opc : BitVec 2) : Option (Nat × Option Width) :=
  match opc.toNat with
  | 0b00 => some (2, none)
  | 0b01 => if isLoad then some (2, some .x) else none
  | 0b10 => some (3, none)
  | _ => none
def readPair (w : Word) : Option Transfer := do
  let (log2, extension) ← readPairKind (w.getLsbD 22) (w.extractLsb' 30 2)
  let place ← readPairPlace w log2
  return .pair (w.getLsbD 22) (registerAt w 0 .zero) (registerAt w 10 .zero) log2 extension place
def readLiteral (w : Word) : Option Transfer := do
  if w.extractLsb' 24 2 ≠ 0b00#2 then
    none
  let (log2, extension) ←
    match (w.extractLsb' 30 2).toNat with
    | 0b00 => some (2, none)
    | 0b01 => some (3, none)
    | 0b10 => some (2, some Width.x)
    | _ => none
  let place := Place.literal ((w.extractLsb' 5 19).toInt * 4)
  return .single true (registerAt w 0 .zero) log2 extension place

/-- The load or store of a word. Bits 29 to 27 tell the groups apart, and bit 26 is clear in those
of general registers. -/
def decodeTransfer (w : Word) : Option Transfer :=
  match (w.extractLsb' 26 4).toNat with
  | 0b1110 => readSingle w
  | 0b1010 => readPair w
  | 0b0110 => readLiteral w
  | _ => none

/-! ## Offsets within their fields -/

section

variable {k : Nat} {offset : Int}

private theorem toInt_imm9 (h : Address.IsInt 9 offset) :
    (BitVec.ofInt 9 offset).toInt = offset := by
  simp only [Address.IsInt, Nat.reduceSub, Nat.reduceShiftLeft] at h
  rw [BitVec.toInt_ofInt]
  apply Int.bmod_eq_of_le <;> omega

private theorem exists_imm12 (hk : k ≤ 3) (h : Address.IsScaled offset k) :
    ∃ imm12 : BitVec 12, (imm12.toNat * (1 <<< k) : Nat) = offset ∧
      ∀ lsb, field lsb (BitVec.ofInt 32 (offset / (1 <<< k : Nat))) = field lsb imm12 := by
  obtain ⟨⟨hnonneg, hlt⟩, haligned⟩ := h
  rw [Address.IsAligned] at haligned
  have hquotient : (BitVec.ofInt 32 (offset / (1 <<< k : Nat))).toNat < 4096 ∧
      ((BitVec.ofInt 32 (offset / (1 <<< k : Nat))).toNat * (1 <<< k) : Nat) = offset := by
    rw [BitVec.toNat_ofInt]
    match k, hk with
    | 0, _ | 1, _ | 2, _ | 3, _ =>
      simp only [Nat.reduceAdd, Nat.reduceShiftLeft] at hlt haligned ⊢
      omega
  refine ⟨_, ?_, fun lsb => field_setWidth _ hquotient.1⟩
  rw [BitVec.toNat_setWidth, Nat.mod_eq_of_lt (show _ < 2 ^ 12 from hquotient.1), hquotient.2]

private theorem toInt_imm7 (hk : k ≤ 3) (hint : Address.IsInt (7 + k) offset)
    (haligned : Address.IsAligned offset k) :
    (BitVec.ofInt 7 (offset / (1 <<< k : Nat))).toInt * (1 <<< k : Nat) = offset := by
  rw [Address.IsAligned] at haligned
  obtain ⟨hmin, hmax⟩ := hint
  have hquotient : (BitVec.ofInt 7 (offset / (1 <<< k : Nat))).toInt =
      offset / (1 <<< k : Nat) := by
    rw [BitVec.toInt_ofInt]
    match k, hk with
    | 0, _ | 1, _ | 2, _ | 3, _ =>
      simp only [Nat.reduceAdd, Nat.reduceSub, Nat.reduceShiftLeft] at hmin hmax ⊢
      apply Int.bmod_eq_of_le <;> omega
  rw [hquotient]
  exact Int.ediv_mul_cancel (Int.dvd_of_emod_eq_zero haligned)

end

/-! ## Addresses -/

/-- The place of an offset from a base in a mode that takes one. -/
def AddressMode.place? (rn : Register) (bytes : Int) : AddressMode → Option Place
  | .offset | .pairOffset => some (.offset rn bytes)
  | .preIndex | .pairPreIndex => some (.preIndex rn bytes)
  | .postIndex | .pairPostIndex => some (.postIndex rn bytes)
  | .index | .literal => none

theorem AddressMode.isPair_iff {mode : AddressMode} :
    mode.isPair = true ↔ mode = .pairOffset ∨ mode = .pairPreIndex ∨ mode = .pairPostIndex := by
  cases mode <;> decide

namespace Address

/-- The address was made for a place, for accesses of two to the `log2` bytes. Only offsets depend
on the size of the access. -/
inductive MadeFor : Address → (log2 : Nat) → Place → Prop
  | offset {rn : Register} {bytes : Int} {mode : AddressMode} {size : AccessSize}
    {address : Address} {place : Place} (h : ofOffset rn bytes mode size = .ok address)
    (hplace : mode.place? rn bytes = some place) : MadeFor address size.log2 place
  | base {rn : Register} {address : Address} (h : ofBase rn = .ok address) (size : AccessSize) :
    MadeFor address size.log2 (.offset rn 0)
  | index {rn rm : Register} {extend : Extend} {scaled : Bool} {address : Address}
    (h : ofIndexed rn rm extend scaled = .ok address) (size : AccessSize) :
    MadeFor address size.log2 (.index rn rm extend scaled)
  | literal {bytes : Int} {address : Address} (h : ofLiteral bytes = .ok address)
    (size : AccessSize) : MadeFor address size.log2 (.literal bytes)

private theorem baseBits_ok_iff {rn : Register} {bits : Word} :
    baseBits rn = .ok bits ↔ ∃ n, rn.slot .stackPointer = some n ∧ bits = field 5 n := by
  rw [baseBits]
  cases rn.slot .stackPointer with
  | none => simp
  | some n => simp [eq_comm]

theorem ofOffset_ok_iff {rn : Register} {bytes : Int} {mode : AddressMode} {size : AccessSize}
    {address : Address} :
    ofOffset rn bytes mode size = .ok address ↔
      (mode ≠ .index ∧ mode ≠ .literal) ∧ takesOffset bytes mode size = true ∧
      ∃ n, rn.slot .stackPointer = some n ∧
        address = ⟨mode, offsetBits bytes mode size ||| field 5 n⟩ := by
  rw [ofOffset]
  split
  · next hmode =>
    constructor
    · intro h
      cases h
    · rintro ⟨hoffset, -⟩
      exact absurd hmode (not_or.mpr hoffset)
  · next hmode =>
    simp only [except_bind_eq_ok, baseBits_ok_iff]
    constructor
    · rintro ⟨_, ⟨n, hn, rfl⟩, h⟩
      split at h
      · next htakes => exact ⟨not_or.mp hmode, htakes, n, hn, (Except.ok.inj h).symm⟩
      · cases h
    · rintro ⟨-, htakes, n, hn, rfl⟩
      exact ⟨_, ⟨n, hn, rfl⟩, by rw [if_pos htakes]; rfl⟩

private theorem ofIndexed_eq_ok {rn rm : Register} {extend : Extend} {scaled : Bool}
    {address : Address} (h : ofIndexed rn rm extend scaled = .ok address) :
    ∃ n m, rn.slot .stackPointer = some n ∧ rm.slot .zero = some m ∧
      extend ∈ [Extend.uxtw, .uxtx, .sxtw, .sxtx] ∧
      address = ⟨.index, flag 21 true ||| flag 11 true ||| flag 12 scaled ||| field 5 n |||
        field 16 m ||| field 13 extend.code⟩ := by
  simp only [ofIndexed, except_bind_eq_ok, baseBits_ok_iff] at h
  obtain ⟨_, ⟨n, hn, rfl⟩, h⟩ := h
  split at h
  · cases h
  next m hm =>
  split at h
  · cases h
  next hextend =>
  split at h
  · cases h
  obtain rfl := Except.ok.inj h
  exact ⟨n, m, hn, hm, Decidable.not_not.mp hextend, rfl⟩

private theorem ofLiteral_eq_ok {bytes : Int} {address : Address}
    (h : ofLiteral bytes = .ok address) :
    DispField.imm19.Fits bytes ∧ address = ⟨.literal, DispField.imm19.insert bytes 0⟩ := by
  simp only [ofLiteral, except_bind_eq_ok, DispField.encode_eq_ok] at h
  obtain ⟨_, ⟨hfits, rfl⟩, h⟩ := h
  obtain rfl := Except.ok.inj h
  exact ⟨hfits, rfl⟩

end Address

theorem AccessSize.log2_le (size : AccessSize) : size.log2 ≤ 3 := by
  cases size <;> decide

/-- The bits of an address for one register: they give the place, and leave the fields of the size,
the group, the opcode and the register free. -/
structure SingleBits (bits : Word) (log2 : Nat) (place : Place) : Prop where
  reads : readSinglePlace bits log2 = some place
  size : bits.extractLsb' 30 2 = 0#2
  group : bits.extractLsb' 26 4 = 0#4
  opc : bits.extractLsb' 22 2 = 0#2
  rt : bits.extractLsb' 0 5 = 0#5

section

variable {rn : Register} {n : BitVec 5} {bytes : Int}

private theorem singleBits_scaled (hn : rn.slot .stackPointer = some n) {k : Nat} (hk : k ≤ 3)
    (h : Address.IsScaled bytes k) :
    SingleBits (flag 24 true ||| field 10 (BitVec.ofInt 32 (bytes / (1 <<< k : Nat))) |||
      field 5 n) k (.offset rn bytes) := by
  obtain ⟨imm12, hbytes, hfield⟩ := exists_imm12 hk h
  rw [hfield]
  constructor
  · simpa [readSinglePlace, registerAt, flag, BitVec.extractLsb'_or, Register.ofSlot_slot hn]
      using hbytes
  all_goals simp [flag, BitVec.extractLsb'_or]

private theorem singleBits_unscaled (hn : rn.slot .stackPointer = some n) (k : Nat)
    (mode : BitVec 2) (h : Address.IsInt 9 bytes) {place : Place}
    (hplace : unscaledPlace? rn bytes mode = some place) :
    SingleBits (field 10 mode ||| field 12 (BitVec.ofInt 9 bytes) ||| field 5 n) k place := by
  constructor
  · simpa [readSinglePlace, registerAt, BitVec.extractLsb'_or, Register.ofSlot_slot hn,
      toInt_imm9 h] using hplace
  all_goals simp [BitVec.extractLsb'_or]

theorem singleBits_plain (hn : rn.slot .stackPointer = some n) (k : Nat)
    (h : Address.IsInt 9 bytes) :
    SingleBits (field 12 (BitVec.ofInt 9 bytes) ||| field 5 n) k (.offset rn bytes) := by
  have hbits := singleBits_unscaled hn k 0b00#2 h rfl
  rwa [show field 10 0b00#2 = 0#32 by decide, BitVec.zero_or] at hbits

private theorem singleBits_index (hn : rn.slot .stackPointer = some n) {rm : Register}
    {m : BitVec 5} (hm : rm.slot .zero = some m) {extend : Extend} (scaled : Bool) (k : Nat)
    (hextend : extend ∈ [Extend.uxtw, .uxtx, .sxtw, .sxtx]) :
    SingleBits (flag 21 true ||| flag 11 true ||| flag 12 scaled ||| field 5 n ||| field 16 m |||
      field 13 extend.code) k (.index rn rm extend scaled) := by
  have hmark : (flag 11 true).extractLsb' 10 2 = 0b10#2 := by decide
  constructor
  · simp [readSinglePlace, registerAt, BitVec.extractLsb'_or, Register.ofSlot_slot hn,
      Register.ofSlot_slot hm, hextend, hmark]
  all_goals simp [BitVec.extractLsb'_or]

private theorem singleBits_ofOffset {mode : AddressMode} {size : AccessSize} {address : Address}
    {place : Place} (h : Address.ofOffset rn bytes mode size = .ok address)
    (hplace : mode.place? rn bytes = some place) (hsingle : address.isPair = false) :
    SingleBits address.encoding size.log2 place := by
  obtain ⟨-, htakes, n, hn, rfl⟩ := Address.ofOffset_ok_iff.mp h
  cases mode with
  | offset =>
    obtain rfl := Option.some.inj hplace
    by_cases hscaled : Address.IsScaled bytes size.log2
    · simp only [Address.offsetBits, if_pos hscaled]
      exact singleBits_scaled hn size.log2_le hscaled
    · have hint : Address.IsInt 9 bytes := (of_decide_eq_true htakes).resolve_left hscaled
      simp only [Address.offsetBits, if_neg hscaled]
      exact singleBits_plain hn size.log2 hint
  | preIndex =>
    have hbits := singleBits_unscaled hn size.log2 0b11#2 (of_decide_eq_true htakes) hplace
    rw [show field 10 0b11#2 = flag 11 true ||| flag 10 true by decide] at hbits
    exact hbits
  | postIndex =>
    have hbits := singleBits_unscaled hn size.log2 0b01#2 (of_decide_eq_true htakes) hplace
    rw [show field 10 0b01#2 = flag 10 true by decide] at hbits
    exact hbits
  | pairOffset => cases hsingle
  | pairPreIndex => cases hsingle
  | pairPostIndex => cases hsingle
  | index => cases hplace
  | literal => cases hplace

end

private theorem Address.MadeFor.singleBits {address : Address} {k : Nat} {place : Place}
    (h : address.MadeFor k place) (hsingle : address.isPair = false)
    (hmode : address.mode ≠ .literal) : SingleBits address.encoding k place := by
  cases h with
  | offset h hplace => exact singleBits_ofOffset h hplace hsingle
  | base h size =>
    obtain ⟨-, -, n, hn, rfl⟩ := ofOffset_ok_iff.mp h
    have hzero : IsScaled 0 size.log2 := by cases size <;> decide
    have hbits := singleBits_scaled hn size.log2_le hzero
    rw [Int.zero_ediv] at hbits
    exact hbits
  | index h size =>
    obtain ⟨n, m, hn, hm, hextend, rfl⟩ := ofIndexed_eq_ok h
    exact singleBits_index hn hm _ _ hextend
  | literal h size =>
    obtain ⟨-, rfl⟩ := ofLiteral_eq_ok h
    exact absurd rfl hmode

/-- The bits of an address for two registers: they give the place, and leave the fields of the size,
the group, the direction and the registers free. -/
structure PairBits (bits : Word) (log2 : Nat) (place : Place) : Prop where
  reads : readPairPlace bits log2 = some place
  size : bits.extractLsb' 30 2 = 0#2
  group : bits.extractLsb' 26 4 = 0#4
  direction : bits.getLsbD 22 = false
  rt2 : bits.extractLsb' 10 5 = 0#5
  rt : bits.extractLsb' 0 5 = 0#5

private theorem Address.MadeFor.pairBits {address : Address} {k : Nat} {place : Place}
    (h : address.MadeFor k place) (hpair : address.isPair = true) :
    PairBits address.encoding k place := by
  cases h with
  | @offset rn bytes mode size _ _ h hplace =>
    obtain ⟨-, htakes, n, hn, rfl⟩ := ofOffset_ok_iff.mp h
    have hmodes := AddressMode.isPair_iff.mp hpair
    obtain ⟨hint, haligned⟩ : IsInt (7 + size.log2) bytes ∧ IsAligned bytes size.log2 := by
      obtain rfl | rfl | rfl := hmodes <;> exact of_decide_eq_true htakes
    have hbytes := toInt_imm7 size.log2_le hint haligned
    obtain rfl | rfl | rfl := hmodes
    all_goals
      obtain rfl := Option.some.inj hplace
      constructor
      · simpa [offsetBits, readPairPlace, registerAt, flag, BitVec.extractLsb'_or,
          Register.ofSlot_slot hn, AccessSize.bytes] using hbytes
      all_goals simp [offsetBits, flag, BitVec.extractLsb'_or]
  | base h size =>
    obtain ⟨-, -, n, hn, rfl⟩ := ofOffset_ok_iff.mp h
    cases hpair
  | index h size =>
    obtain ⟨n, m, hn, hm, hextend, rfl⟩ := ofIndexed_eq_ok h
    cases hpair
  | literal h size =>
    obtain ⟨-, rfl⟩ := ofLiteral_eq_ok h
    cases hpair

private theorem Address.MadeFor.of_literal {address : Address} {k : Nat} {place : Place}
    (h : address.MadeFor k place) (hmode : address.mode = .literal) :
    ∃ bytes, DispField.imm19.Fits bytes ∧ place = .literal bytes ∧
      address.encoding = DispField.imm19.insert bytes 0 := by
  cases h with
  | offset h hplace =>
    obtain ⟨⟨-, hne⟩, -, n, hn, rfl⟩ := ofOffset_ok_iff.mp h
    exact absurd hmode hne
  | base h size =>
    obtain ⟨-, -, n, hn, rfl⟩ := ofOffset_ok_iff.mp h
    cases hmode
  | index h size =>
    obtain ⟨n, m, hn, hm, hextend, rfl⟩ := ofIndexed_eq_ok h
    cases hmode
  | literal h size =>
    obtain ⟨hfits, rfl⟩ := ofLiteral_eq_ok h
    exact ⟨_, hfits, rfl, rfl⟩

/-- Whichever load or store takes the address, it is one of the place. -/
structure Address.Gives (address : Address) (log2 : Nat) (place : Place) : Prop where
  single : address.isPair = false → address.mode ≠ .literal →
    SingleBits address.encoding log2 place
  pair : address.isPair = true → PairBits address.encoding log2 place
  literal : address.mode = .literal → ∃ bytes, DispField.imm19.Fits bytes ∧
    place = .literal bytes ∧ address.encoding = DispField.imm19.insert bytes 0

theorem Address.MadeFor.gives {address : Address} {k : Nat} {place : Place}
    (h : address.MadeFor k place) : address.Gives k place :=
  ⟨h.singleBits, h.pairBits, h.of_literal⟩

/-! ## Words -/

section

variable {bits : Word} {k : Nat} {place : Place} {rt rt2 : Register} {t t2 : BitVec 5}

private theorem decode_single (h : SingleBits bits k place) (hk : k ≤ 3)
    (ht : rt.slot .zero = some t) {opc : BitVec 2} {isLoad : Bool} {extension : Option Width}
    (hkind : readSingleKind k opc = some (isLoad, extension)) :
    decodeTransfer (field 30 (BitVec.ofNat 2 k) ||| 0x38000000#32 ||| field 22 opc ||| bits |||
      field 0 t) = some (.single isLoad rt k extension place) := by
  generalize hw : field 30 (BitVec.ofNat 2 k) ||| 0x38000000#32 ||| field 22 opc ||| bits |||
    field 0 t = w
  have hgroup : w.extractLsb' 26 4 = 0b1110#4 := by
    simp [← hw, BitVec.extractLsb'_or, h.group]
  have hsize : (w.extractLsb' 30 2).toNat = k := by
    simp [← hw, BitVec.extractLsb'_or, h.size]
    omega
  have hopc : w.extractLsb' 22 2 = opc := by
    simp [← hw, BitVec.extractLsb'_or, h.opc]
  have hrt : registerAt w 0 .zero = rt := by
    simp [← hw, registerAt, BitVec.extractLsb'_or, h.rt, Register.ofSlot_slot ht]
  have hplace : readSinglePlace w k = some place := by
    rw [← h.reads, ← hw]
    simp [readSinglePlace, registerAt, BitVec.extractLsb'_or]
  simp [decodeTransfer, hgroup, readSingle, hsize, hopc, hkind, hplace, hrt]

private theorem decode_pair (h : PairBits bits k place) (ht : rt.slot .zero = some t)
    (ht2 : rt2.slot .zero = some t2) {isLoad : Bool} {opc : BitVec 2} {extension : Option Width}
    (hkind : readPairKind isLoad opc = some (k, extension)) :
    decodeTransfer (field 30 opc ||| 0x28000000#32 ||| flag 22 isLoad ||| bits ||| field 10 t2 |||
      field 0 t) = some (.pair isLoad rt rt2 k extension place) := by
  generalize hw : field 30 opc ||| 0x28000000#32 ||| flag 22 isLoad ||| bits ||| field 10 t2 |||
    field 0 t = w
  have hgroup : w.extractLsb' 26 4 = 0b1010#4 := by
    simp [← hw, BitVec.extractLsb'_or, h.group]
  have hopc : w.extractLsb' 30 2 = opc := by
    simp [← hw, BitVec.extractLsb'_or, h.size]
  have hdirection : bits[22] = false := h.direction
  have hload : w[22] = isLoad := by
    simp [← hw, hdirection]
  have hrt : registerAt w 0 .zero = rt := by
    simp [← hw, registerAt, BitVec.extractLsb'_or, h.rt, Register.ofSlot_slot ht]
  have hrt2 : registerAt w 10 .zero = rt2 := by
    simp [← hw, registerAt, BitVec.extractLsb'_or, h.rt2, Register.ofSlot_slot ht2]
  have hplace : readPairPlace w k = some place := by
    rw [← h.reads, ← hw]
    simp [readPairPlace, registerAt, BitVec.extractLsb'_or]
  simp [decodeTransfer, hgroup, readPair, hopc, hload, hkind, hplace, hrt, hrt2]

private theorem decode_literal {bytes : Int} (h : DispField.imm19.Fits bytes)
    (ht : rt.slot .zero = some t) {size : AccessSize} {opcode : Word}
    (hopcode : literalOpcode size = some opcode) :
    decodeTransfer (opcode ||| DispField.imm19.insert bytes 0 ||| field 0 t) =
      some (.single true rt size.log2 size.extension (.literal bytes)) := by
  have hbytes : ((DispField.imm19.insert bytes 0).extractLsb' 5 19).toInt * 4 = bytes :=
    DispField.decode_insert h 0
  have hapart : ∀ lo n, lo + n ≤ 5 ∨ 24 ≤ lo →
      (DispField.imm19.insert bytes 0).extractLsb' lo n = 0#n := by
    intro lo n hlo
    rw [DispField.extractLsb'_insert_of_apart .imm19 lo n hlo]
    simp
  generalize DispField.imm19.insert bytes 0 = disp at hbytes hapart
  cases size with
  | word | unsignedWord | doubleWord =>
    obtain rfl := Option.some.inj hopcode
    simpa [decodeTransfer, readLiteral, registerAt, AccessSize.log2, AccessSize.extension,
      AccessSize.isSigned, BitVec.extractLsb'_or, hapart, Register.ofSlot_slot ht] using hbytes
  | _ => cases hopcode

end

/-! ## What is asked for is what the word says -/

private theorem singleBits_eq_ok {address : Address} {size : AccessSize} {opc : BitVec 2}
    {offset : Nat} {bits : Word} (h : singleBits address size opc offset = .ok bits) :
    address.isPair = false ∧ bits = field 30 (BitVec.ofNat 2 size.log2) ||| 0x38000000#32 |||
      field 22 opc ||| address.encoding := by
  simp only [singleBits] at h
  split at h
  · cases h
  · next hpair => exact ⟨Bool.eq_false_iff.mpr hpair, (Except.ok.inj h).symm⟩

theorem decode_load {rt : Register} {address : Address} {size : AccessSize} {place : Place}
    (hgives : address.Gives size.log2 place) {offset : Nat} {w : Word}
    (h : load rt address size offset = .ok w) :
    decodeTransfer w = some (.single true rt size.log2 size.extension place) := by
  simp only [load, except_bind_eq_ok, registerField_ok_iff] at h
  obtain ⟨_, ⟨t, ht, rfl⟩, h⟩ := h
  split at h
  · next hmode =>
    obtain ⟨bytes, hfits, rfl, hbits⟩ := hgives.literal hmode
    split at h
    · next opcode hopcode =>
      obtain rfl := Except.ok.inj h
      rw [hbits]
      exact decode_literal hfits ht hopcode
    · cases h
  · next hmode =>
    obtain ⟨_, hbits, h⟩ := except_bind_eq_ok.mp h
    obtain ⟨hsingle, rfl⟩ := singleBits_eq_ok hbits
    obtain rfl := Except.ok.inj h
    apply decode_single (hgives.single hsingle hmode) size.log2_le ht
    cases size <;> rfl

theorem decode_store {rt : Register} {address : Address} {size : AccessSize} {place : Place}
    (hgives : address.Gives size.log2 place) {offset : Nat} {w : Word}
    (h : store rt address size offset = .ok w) :
    decodeTransfer w = some (.single false rt size.log2 none place) := by
  simp only [store, except_bind_eq_ok, registerField_ok_iff] at h
  obtain ⟨_, ⟨t, ht, rfl⟩, h⟩ := h
  split at h
  · cases h
  · next hmode =>
    obtain ⟨_, hbits, h⟩ := except_bind_eq_ok.mp h
    obtain ⟨hsingle, rfl⟩ := singleBits_eq_ok hbits
    obtain rfl := Except.ok.inj h
    exact decode_single (hgives.single hsingle hmode) size.log2_le ht rfl

theorem decode_transferPair {isLoad : Bool} {rt rt2 : Register} {address : Address}
    {size : AccessSize} {place : Place} (hgives : address.Gives size.log2 place) {offset : Nat}
    {w : Word} (h : transferPair isLoad rt rt2 address size offset = .ok w) :
    decodeTransfer w =
      some (.pair isLoad rt rt2 size.log2 (if isLoad then size.extension else none) place) := by
  simp only [transferPair] at h
  split at h
  · cases h
  next hpair =>
  split at h
  · cases h
  next opc hopc =>
  simp only [except_bind_eq_ok, registerField_ok_iff] at h
  obtain ⟨_, ⟨t2, ht2, rfl⟩, _, ⟨t, ht, rfl⟩, h⟩ := h
  obtain rfl := Except.ok.inj h
  apply decode_pair (hgives.pair (by simpa using hpair)) ht ht2
  cases size <;> cases isLoad <;> cases hopc <;> rfl

namespace Operation

/-- The load or store that an operation asks for. The size of the access is that for which its
address was made. -/
inductive Transfers : Operation → Transfer → Prop
  | load (rt : Register) {address : Address} {size : AccessSize} {place : Place}
    (h : address.MadeFor size.log2 place) :
    Transfers (.load rt address size) (.single true rt size.log2 size.extension place)
  | store (rt : Register) {address : Address} {size : AccessSize} {place : Place}
    (h : address.MadeFor size.log2 place) :
    Transfers (.store rt address size) (.single false rt size.log2 none place)
  | transferPair (isLoad : Bool) (rt rt2 : Register) {address : Address} {size : AccessSize}
    {place : Place} (h : address.MadeFor size.log2 place) :
    Transfers (.transferPair isLoad rt rt2 address size)
      (.pair isLoad rt rt2 size.log2 (if isLoad then size.extension else none) place)
  | push (rt : Register) : Transfers (.push rt) (.single false rt 3 none (.preIndex .sp (-8)))
  | pop (rt : Register) : Transfers (.pop rt) (.single true rt 3 none (.postIndex .sp 8))
  | pushPair (rt rt2 : Register) :
    Transfers (.pushPair rt rt2) (.pair false rt rt2 3 none (.preIndex .sp (-16)))
  | popPair (rt rt2 : Register) :
    Transfers (.popPair rt rt2) (.pair true rt rt2 3 none (.postIndex .sp 16))

private theorem Transfers.encoder {operation : Operation} {transfer : Transfer}
    (h : operation.Transfers transfer) :
    ∃ encoder, operation.run = emitAll [encoder] ∧
      ∀ offset w, encoder offset = .ok w → decodeTransfer w = some transfer := by
  cases h with
  | load rt hmade => exact ⟨_, rfl, fun _ _ hw => decode_load hmade.gives hw⟩
  | store rt hmade => exact ⟨_, rfl, fun _ _ hw => decode_store hmade.gives hw⟩
  | transferPair isLoad rt rt2 hmade =>
    exact ⟨_, rfl, fun _ _ hw => decode_transferPair hmade.gives hw⟩
  | push rt =>
    refine ⟨_, rfl, fun offset w hw => ?_⟩
    obtain ⟨address, hmade, hstore⟩ := except_bind_eq_ok.mp hw
    exact decode_store (Address.MadeFor.offset hmade rfl).gives hstore
  | pop rt =>
    refine ⟨_, rfl, fun offset w hw => ?_⟩
    obtain ⟨address, hmade, hload⟩ := except_bind_eq_ok.mp hw
    exact decode_load (Address.MadeFor.offset hmade rfl).gives hload
  | pushPair rt rt2 =>
    refine ⟨_, rfl, fun offset w hw => ?_⟩
    obtain ⟨address, hmade, hpair⟩ := except_bind_eq_ok.mp hw
    exact decode_transferPair (Address.MadeFor.offset hmade rfl).gives hpair
  | popPair rt rt2 =>
    refine ⟨_, rfl, fun offset w hw => ?_⟩
    obtain ⟨address, hmade, hpair⟩ := except_bind_eq_ok.mp hw
    exact decode_transferPair (Address.MadeFor.offset hmade rfl).gives hpair

end Operation

private theorem Register.exists_slot_stackPointer_iff {r : Register} :
    (∃ n, r.slot .stackPointer = some n) ↔ r ≠ .zr := by
  cases r <;> simp [slot]

/-- An offset is made into an address exactly if its mode is one of offsets, the base is not the
zero register and the mode takes the offset. A load or store through an address made for its size
that succeeds appends one word, and the word reads as the transfer that was asked for. -/
theorem transfer_word_reads_back :
    (∀ (rn : Register) (bytes : Int) (mode : AddressMode) (size : AccessSize),
      (∃ address, Address.ofOffset rn bytes mode size = .ok address) ↔
        (mode ≠ .index ∧ mode ≠ .literal) ∧ rn ≠ .zr ∧
          Address.takesOffset bytes mode size = true) ∧
    ∀ {operation : Operation} {transfer : Transfer}, operation.Transfers transfer →
      ∀ {b c : CodeBuffer}, operation.run b = .ok () c →
        ∃ w, c.bytes = b.bytes ++ (littleEndian 4 w).toArray ∧
          decodeTransfer w = some transfer := by
  refine ⟨fun rn bytes mode size => ?_, fun {operation transfer} hasks {b c} hrun => ?_⟩
  · simp only [Address.ofOffset_ok_iff, ← Register.exists_slot_stackPointer_iff]
    constructor
    · rintro ⟨_, hmode, htakes, n, hn, -⟩
      exact ⟨hmode, ⟨n, hn⟩, htakes⟩
    · rintro ⟨hmode, ⟨n, hn⟩, htakes⟩
      exact ⟨_, hmode, htakes, n, hn, rfl⟩
  · obtain ⟨encoder, hencoder, hreads⟩ := hasks.encoder
    obtain ⟨w, hw, hbytes⟩ := emitOne_appends (hencoder ▸ hrun)
    exact ⟨w, hbytes, hreads b.size w hw⟩

/-- A load that extends the sign and writes an address below the stack pointer back to it. -/
theorem preIndexed_load_reads_back :
    ∃ address b c w, Address.ofOffset .sp (-250) .preIndex .word = .ok address ∧
      (Operation.load .lr address .word).run b = .ok () c ∧
      c.bytes = b.bytes ++ (littleEndian 4 w).toArray ∧
      decodeTransfer w = some (.single true .lr 2 (some .x) (.preIndex .sp (-250))) := by
  have hmade : Address.ofOffset .sp (-250) .preIndex .word = .ok ⟨.preIndex, 0x106FE0#32⟩ := rfl
  obtain ⟨b, c, hrun⟩ :
      ∃ b c, (Operation.load .lr ⟨.preIndex, 0x106FE0#32⟩ .word).run b = .ok () c :=
    Operation.exists_run (by decide +kernel)
  obtain ⟨w, hbytes, hdecode⟩ :=
    transfer_word_reads_back.2 (.load .lr (.offset hmade rfl)) hrun
  exact ⟨_, b, c, w, hmade, hrun, hbytes, hdecode⟩

end MachineCode.A64
