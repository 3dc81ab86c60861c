import MachineCode.Proofs.A64Core
import MachineCode.Proofs.A64Transfer

/-!
# Addresses at other access sizes

An address is made for accesses of one size and keeps no record of it. Where its bits count
accesses, a load or store of another size goes to another offset; where they count bytes, the offset
is the one that was given.
-/

namespace MachineCode.A64

private theorem AccessSize.bytes_ne_zero (size : AccessSize) : (size.bytes : Int) ≠ 0 := by
  cases size <;> decide

private theorem AccessSize.bytes_inj {size used : AccessSize} :
    (size.bytes : Int) = used.bytes ↔ size.log2 = used.log2 := by
  cases size <;> cases used <;> decide

namespace Address

/-! ## What the bits of an offset count -/

/-- The bits of the offset count accesses of the size that the address is made for. -/
def CountsAccesses (offset : Int) (mode : AddressMode) (size : AccessSize) : Prop :=
  mode.isPair = true ∨ mode = .offset ∧ IsScaled offset size.log2

instance (offset : Int) (mode : AddressMode) (size : AccessSize) :
    Decidable (CountsAccesses offset mode size) :=
  inferInstanceAs (Decidable (_ ∨ _))

/-- The offset in bytes that an address made for accesses of `size` has for those of `used`. -/
def offsetAt (offset : Int) (mode : AddressMode) (size used : AccessSize) : Int :=
  if CountsAccesses offset mode size then offset / size.bytes * used.bytes else offset

section

variable {rn : Register} {offset count : Int} {mode : AddressMode} {size : AccessSize}
  {address : Address}

private theorem isScaled_count_iff :
    IsScaled (count * size.bytes) size.log2 ↔ 0 ≤ count ∧ count < 4096 := by
  rw [IsScaled, IsUint, IsAligned, AccessSize.bytes]
  cases size <;> simp only [AccessSize.log2, Nat.reduceAdd, Nat.reduceShiftLeft] <;> omega

private theorem isPairOffset_count_iff :
    IsInt (7 + size.log2) (count * size.bytes) ∧ IsAligned (count * size.bytes) size.log2 ↔
      -64 ≤ count ∧ count < 64 := by
  rw [IsInt, IsAligned, AccessSize.bytes]
  cases size <;>
    simp only [AccessSize.log2, Nat.reduceAdd, Nat.reduceSub, Nat.reduceShiftLeft] <;> omega

private theorem ofOffset_count (hcounts : CountsAccesses (count * size.bytes) mode size)
    (h : ofOffset rn (count * size.bytes) mode size = .ok address) (used : AccessSize) :
    ofOffset rn (count * used.bytes) mode used = .ok address := by
  obtain ⟨hmode, htakes, n, hn, rfl⟩ := ofOffset_ok_iff.mp h
  have hcount (size : AccessSize) : count * size.bytes / size.bytes = count :=
    Int.mul_ediv_cancel _ size.bytes_ne_zero
  refine ofOffset_ok_iff.mpr ⟨hmode, ?_⟩
  rcases hcounts with hpair | ⟨rfl, hscaled⟩
  · obtain rfl | rfl | rfl := AddressMode.isPair_iff.mp hpair
    all_goals
      have hfits := isPairOffset_count_iff.mp (of_decide_eq_true htakes)
      refine ⟨decide_eq_true (isPairOffset_count_iff.mpr hfits), n, hn, ?_⟩
      simp only [offsetBits, hcount]
  · have hscaled' : IsScaled (count * used.bytes) used.log2 :=
      isScaled_count_iff.mpr (isScaled_count_iff.mp hscaled)
    refine ⟨decide_eq_true (.inl hscaled'), n, hn, ?_⟩
    simp only [offsetBits, hcount, if_pos hscaled, if_pos hscaled']

private theorem exists_count (hcounts : CountsAccesses offset mode size)
    (h : ofOffset rn offset mode size = .ok address) : ∃ count, offset = count * size.bytes := by
  obtain ⟨-, htakes, -⟩ := ofOffset_ok_iff.mp h
  have haligned : IsAligned offset size.log2 := by
    rcases hcounts with hpair | ⟨-, hscaled⟩
    · obtain rfl | rfl | rfl := AddressMode.isPair_iff.mp hpair
      all_goals exact (of_decide_eq_true htakes).2
    · exact hscaled.2
  exact ⟨_, (Int.ediv_mul_cancel (Int.dvd_of_emod_eq_zero haligned)).symm⟩

private theorem offsetAt_count (hcounts : CountsAccesses (count * size.bytes) mode size)
    (used : AccessSize) : offsetAt (count * size.bytes) mode size used = count * used.bytes := by
  rw [offsetAt, if_pos hcounts, Int.mul_ediv_cancel _ size.bytes_ne_zero]

private theorem offsetAt_eq_iff (h : ofOffset rn offset mode size = .ok address)
    {used : AccessSize} :
    offsetAt offset mode size used = offset ↔
      size.log2 = used.log2 ∨ offset = 0 ∨ ¬CountsAccesses offset mode size := by
  by_cases hcounts : CountsAccesses offset mode size
  · obtain ⟨count, rfl⟩ := exists_count hcounts h
    rw [offsetAt_count hcounts, ← AccessSize.bytes_inj, Int.mul_eq_zero]
    constructor
    · intro heq
      by_cases hzero : count = 0
      · exact .inr (.inl (.inl hzero))
      · exact .inl (Int.eq_of_mul_eq_mul_left hzero heq).symm
    · rintro (hbytes | (rfl | hzero) | hbytes)
      · rw [hbytes]
      · rw [Int.zero_mul, Int.zero_mul]
      · exact absurd hzero size.bytes_ne_zero
      · exact absurd hcounts hbytes
  · rw [offsetAt, if_neg hcounts]
    exact ⟨fun _ => .inr (.inr hcounts), fun _ => rfl⟩

/-- At every size the address gives the place of the offset that it has there. -/
private theorem gives_offsetAt (h : ofOffset rn offset mode size = .ok address) (used : AccessSize)
    {place : Place} (hplace : mode.place? rn (offsetAt offset mode size used) = some place) :
    address.Gives used.log2 place := by
  by_cases hcounts : CountsAccesses offset mode size
  · obtain ⟨count, rfl⟩ := exists_count hcounts h
    rw [offsetAt_count hcounts] at hplace
    exact (MadeFor.offset (ofOffset_count hcounts h used) hplace).gives
  · rw [offsetAt, if_neg hcounts] at hplace
    obtain ⟨hpair, hscaled⟩ := not_or.mp hcounts
    obtain ⟨hmode, htakes, n, hn, rfl⟩ := ofOffset_ok_iff.mp h
    cases mode with
    | offset =>
      have hapart : ¬IsScaled offset size.log2 := fun h => hscaled ⟨rfl, h⟩
      have hint : IsInt 9 offset := (of_decide_eq_true htakes).resolve_left hapart
      obtain rfl := Option.some.inj hplace
      refine ⟨fun _ _ => ?_, fun hpair => absurd hpair Bool.false_ne_true, fun hliteral => ?_⟩
      · simp only [offsetBits, if_neg hapart]
        exact singleBits_plain hn used.log2 hint
      · exact absurd hliteral hmode.2
    | preIndex | postIndex =>
      have hused : ofOffset rn offset _ used = .ok _ := h
      exact (MadeFor.offset hused hplace).gives
    | pairOffset | pairPreIndex | pairPostIndex => exact absurd rfl hpair
    | index | literal => cases hplace

private theorem IsInt.mono {m n : Nat} {value : Int} (h : IsInt m value) (hmn : m ≤ n) :
    IsInt n value := by
  have hle : 1 <<< (m - 1) ≤ 1 <<< (n - 1) := by
    rw [Nat.one_shiftLeft, Nat.one_shiftLeft]
    exact Nat.pow_le_pow_right (by decide) (by omega)
  obtain ⟨hmin, hmax⟩ := h
  constructor <;> omega

private theorem IsUint.isInt {n : Nat} {value : Int} (h : IsUint n value) :
    IsInt (n + 1) value := by
  obtain ⟨hnonneg, hlt⟩ := h
  rw [IsInt, Nat.add_sub_cancel]
  exact ⟨by omega, hlt⟩

private theorem isInt16_of_ofOffset (h : ofOffset rn offset mode size = .ok address) :
    IsInt 16 offset := by
  obtain ⟨hmode, htakes, -⟩ := ofOffset_ok_iff.mp h
  have hlog2 := size.log2_le
  cases mode with
  | offset =>
    rcases of_decide_eq_true htakes with hscaled | hint
    · exact hscaled.1.isInt.mono (by omega)
    · exact hint.mono (by decide)
  | preIndex | postIndex =>
    have hint : IsInt 9 offset := of_decide_eq_true htakes
    exact hint.mono (by decide)
  | pairOffset | pairPreIndex | pairPostIndex =>
    exact (of_decide_eq_true htakes).1.mono (by omega)
  | index => exact absurd rfl hmode.1
  | literal => exact absurd rfl hmode.2

private theorem isInt16_offsetAt (h : ofOffset rn offset mode size = .ok address)
    (used : AccessSize) :
    IsInt 16 (offsetAt offset mode size used) := by
  by_cases hcounts : CountsAccesses offset mode size
  · obtain ⟨count, rfl⟩ := exists_count hcounts h
    rw [offsetAt_count hcounts]
    exact isInt16_of_ofOffset (ofOffset_count hcounts h used)
  · rw [offsetAt, if_neg hcounts]
    exact isInt16_of_ofOffset h

end

end Address

/-! ## Where an access goes -/

/-- Where an access of a base and an offset goes, and what the base is after it. -/
def Core.reach? (m : Core) : Place → Option (BitVec 64 × BitVec 64)
  | .offset rn bytes => some (m.read rn + BitVec.ofInt 64 bytes, m.read rn)
  | .preIndex rn bytes =>
    some (m.read rn + BitVec.ofInt 64 bytes, m.read rn + BitVec.ofInt 64 bytes)
  | .postIndex rn bytes => some (m.read rn, m.read rn + BitVec.ofInt 64 bytes)
  | .index .. | .literal _ => none

private theorem ofInt_inj {a b : Int} (ha : Address.IsInt 16 a) (hb : Address.IsInt 16 b) :
    BitVec.ofInt 64 a = BitVec.ofInt 64 b ↔ a = b := by
  simp only [Address.IsInt, Nat.reduceSub, Nat.reduceShiftLeft] at ha hb
  constructor
  · intro h
    have htoInt := congrArg BitVec.toInt h
    rwa [BitVec.toInt_ofInt_eq_self (by decide) (by omega) (by omega),
      BitVec.toInt_ofInt_eq_self (by decide) (by omega) (by omega)] at htoInt
  · exact congrArg _

private theorem Core.reach?_inj {mode : AddressMode} {rn : Register} {a b : Int}
    {place other : Place} (hplace : mode.place? rn a = some place)
    (hother : mode.place? rn b = some other) (ha : Address.IsInt 16 a) (hb : Address.IsInt 16 b)
    (m : Core) :
    m.reach? place = m.reach? other ↔ a = b := by
  rw [← ofInt_inj ha hb]
  cases mode with
  | index | literal => cases hplace
  | _ =>
    obtain rfl := Option.some.inj hplace
    obtain rfl := Option.some.inj hother
    simp [reach?]

namespace Operation

/-- The address of a load or store, the size of its access, and the transfer it makes at a place. -/
def access? : Operation → Option (Address × AccessSize × (Place → Transfer))
  | .load rt address size =>
    some (address, size, .single true rt size.log2 size.extension)
  | .store rt address size =>
    some (address, size, .single false rt size.log2 none)
  | .transferPair isLoad rt rt2 address size =>
    some (address, size, .pair isLoad rt rt2 size.log2 (if isLoad then size.extension else none))
  | _ => none

private theorem access_appends {operation : Operation} {address : Address} {size : AccessSize}
    {transferAt : Place → Transfer} (h : operation.access? = some (address, size, transferAt))
    {place : Place} (hgives : address.Gives size.log2 place) {b c : CodeBuffer}
    (hrun : operation.run b = .ok () c) :
    ∃ w, c.bytes = b.bytes ++ (littleEndian 4 w).toArray ∧
      decodeTransfer w = some (transferAt place) := by
  cases operation with
  | load rt address size =>
    cases h
    obtain ⟨w, hw, hbytes⟩ := emitOne_appends hrun
    exact ⟨w, hbytes, decode_load hgives hw⟩
  | store rt address size =>
    cases h
    obtain ⟨w, hw, hbytes⟩ := emitOne_appends hrun
    exact ⟨w, hbytes, decode_store hgives hw⟩
  | transferPair isLoad rt rt2 address size =>
    cases h
    obtain ⟨w, hw, hbytes⟩ := emitOne_appends hrun
    exact ⟨w, hbytes, decode_transferPair hgives hw⟩
  | _ => cases h

end Operation

private theorem AddressMode.exists_place {mode : AddressMode}
    (hmode : mode ≠ .index ∧ mode ≠ .literal) (rn : Register) (bytes : Int) :
    ∃ place, mode.place? rn bytes = some place := by
  cases mode with
  | index => exact absurd rfl hmode.1
  | literal => exact absurd rfl hmode.2
  | _ => exact ⟨_, rfl⟩

/-- A load or store of any size through an address made from an offset, if it succeeds, appends one
word, which reads as an access at the offset that the address has for that size. The access goes
where the given offset would and leaves the same base exactly if the size is that of the address,
the offset is zero or its bits count bytes. -/
theorem offset_kept_iff {rn : Register} {offset : Int} {mode : AddressMode} {size : AccessSize}
    {address : Address} (h : Address.ofOffset rn offset mode size = .ok address)
    (used : AccessSize) :
    ∃ place asked, mode.place? rn (Address.offsetAt offset mode size used) = some place ∧
      mode.place? rn offset = some asked ∧
      (∀ {operation : Operation} {transferAt : Place → Transfer},
        operation.access? = some (address, used, transferAt) →
        ∀ {b c : CodeBuffer}, operation.run b = .ok () c →
          ∃ w, c.bytes = b.bytes ++ (littleEndian 4 w).toArray ∧
            decodeTransfer w = some (transferAt place)) ∧
      ∀ m : Core, m.reach? place = m.reach? asked ↔
        size.log2 = used.log2 ∨ offset = 0 ∨ ¬Address.CountsAccesses offset mode size := by
  obtain ⟨hmode, -⟩ := Address.ofOffset_ok_iff.mp h
  obtain ⟨place, hplace⟩ :=
    AddressMode.exists_place hmode rn (Address.offsetAt offset mode size used)
  obtain ⟨asked, hasked⟩ := AddressMode.exists_place hmode rn offset
  refine ⟨place, asked, hplace, hasked, fun haccess _ _ hrun => ?_, fun m => ?_⟩
  · exact Operation.access_appends haccess (Address.gives_offsetAt h used hplace) hrun
  · rw [Core.reach?_inj hplace hasked (Address.isInt16_offsetAt h used)
      (Address.isInt16_of_ofOffset h), Address.offsetAt_eq_iff h]

/-- An offset below the base counts bytes, and a load of one byte keeps it. -/
theorem byte_below_base_kept :
    ∃ address b c w, Address.ofOffset .sp (-16) .offset .doubleWord = .ok address ∧
      (Operation.load .lr address .unsignedByte).run b = .ok () c ∧
      c.bytes = b.bytes ++ (littleEndian 4 w).toArray ∧
      decodeTransfer w = some (.single true .lr 0 none (.offset .sp (-16))) := by
  have hmade : Address.ofOffset .sp (-16) .offset .doubleWord =
      .ok ⟨.offset, 0x1F03E0#32⟩ := rfl
  obtain ⟨b, c, hrun⟩ :
      ∃ b c, (Operation.load .lr ⟨.offset, 0x1F03E0#32⟩ .unsignedByte).run b = .ok () c :=
    Operation.exists_run (by decide +kernel)
  obtain ⟨place, _, hplace, -, hword, -⟩ := offset_kept_iff hmade .unsignedByte
  obtain rfl := Option.some.inj hplace
  obtain ⟨w, hbytes, hdecode⟩ := hword rfl hrun
  exact ⟨_, b, c, w, hmade, hrun, hbytes, hdecode⟩

/-- Two double words above the base become two bytes above it in a load of one byte. -/
theorem byte_above_base_moves :
    ∃ address b c w, Address.ofOffset .sp 16 .offset .doubleWord = .ok address ∧
      (Operation.load .lr address .unsignedByte).run b = .ok () c ∧
      c.bytes = b.bytes ++ (littleEndian 4 w).toArray ∧
      decodeTransfer w = some (.single true .lr 0 none (.offset .sp 2)) ∧
      ∀ m : Core, m.reach? (.offset .sp 2) ≠ m.reach? (.offset .sp 16) := by
  have hmade : Address.ofOffset .sp 16 .offset .doubleWord = .ok ⟨.offset, 0x1000BE0#32⟩ := rfl
  obtain ⟨b, c, hrun⟩ :
      ∃ b c, (Operation.load .lr ⟨.offset, 0x1000BE0#32⟩ .unsignedByte).run b = .ok () c :=
    Operation.exists_run (by decide +kernel)
  have hgives := Address.gives_offsetAt hmade .unsignedByte rfl
  obtain ⟨w, hbytes, hdecode⟩ := Operation.access_appends rfl hgives hrun
  refine ⟨_, b, c, w, hmade, hrun, hbytes, hdecode, fun m hsame => ?_⟩
  have hplace (bytes : Int) : AddressMode.offset.place? .sp bytes = some (.offset .sp bytes) := rfl
  have hoffsets : (2 : Int) = 16 :=
    (Core.reach?_inj (hplace 2) (hplace 16) (by decide) (by decide) m).mp hsame
  revert hoffsets
  decide

end MachineCode.A64
