import MachineCode.A64.Logical

/-!
# Bitmask immediates are an exact code

A value is a bitmask immediate exactly if copies of one element fill the register, where the element
is a run of ones, neither empty nor whole, rotated within the element. The fields of an immediate
and its element determine each other.
-/

namespace MachineCode.A64

/-- The lower `width` bits of a register, filled with copies of an element of `size` bits: `run`
ones at its lower end, rotated to the right by `turn` places. -/
def pattern (width size run turn : Nat) : BitVec 64 :=
  ((((BitVec.allOnes run).setWidth size).rotateRight turn).replicate (width / size)).setWidth 64

/-- An element of a bitmask. It holds a one and a zero, and is rotated by less than a full turn. -/
structure Element where
  size : Nat
  run : Nat
  turn : Nat
  size_mem : size ∈ [2, 4, 8, 16, 32, 64]
  run_pos : 0 < run
  run_lt : run < size
  turn_lt : turn < size

namespace Element

def fill (e : Element) (width : Nat) : BitVec 64 :=
  pattern width e.size e.run e.turn

private theorem exists_log (e : Element) : ∃ k, k ≤ 5 ∧ e.size = 2 <<< k := by
  have hall : ∀ size ∈ [2, 4, 8, 16, 32, 64], ∃ k, k ≤ 5 ∧ size = 2 <<< k := by decide
  exact hall e.size e.size_mem

private theorem size_dvd (e : Element) : e.size ∣ 64 := by
  have hall : ∀ size ∈ [2, 4, 8, 16, 32, 64], size ∣ 64 := by decide
  exact hall e.size e.size_mem

private theorem size_dvd_half (e : Element) (h : e.size ≤ 32) : e.size ∣ 32 := by
  have hall : ∀ size ∈ [2, 4, 8, 16, 32, 64], size ≤ 32 → size ∣ 32 := by decide
  exact hall e.size e.size_mem h

theorem size_le (e : Element) : e.size ≤ 64 :=
  Nat.le_of_dvd (by decide) e.size_dvd

end Element

private theorem add_mod_of_lt {i turn size : Nat} (hi : i < size) (hturn : turn < size) :
    (i + turn) % size = if i + turn < size then i + turn else i + turn - size := by
  split
  · next h => exact Nat.mod_eq_of_lt h
  · rw [Nat.mod_eq_sub_mod (by omega), Nat.mod_eq_of_lt (by omega)]

private theorem getLsbD_pattern {width size run turn : Nat} (hdvd : size ∣ width)
    (hwidth : width ≤ 64) (hturn : turn < size) (i : Nat) :
    (pattern width size run turn).getLsbD i =
      (decide (i < width) && decide ((i + turn) % size < run)) := by
  have hmod : i % size < size := Nat.mod_lt _ (by omega)
  have hsum : (i + turn) % size =
      if i % size + turn < size then i % size + turn else i % size + turn - size := by
    rw [← add_mod_of_lt hmod hturn, Nat.mod_add_mod]
  rw [pattern, BitVec.getLsbD_setWidth, BitVec.getLsbD_replicate, BitVec.getLsbD_rotateRight,
    Nat.mul_div_cancel' hdvd, Nat.mod_eq_of_lt hturn, hsum]
  simp only [BitVec.getLsbD_setWidth, BitVec.getLsbD_allOnes]
  by_cases hi : i < width
  · by_cases hwrap : i % size + turn < size
    · simp [hi, hwrap, show i < 64 by omega, show i % size < size - turn by omega,
        Nat.add_comm turn]
    · simp [hi, hwrap, hmod, show i < 64 by omega, show ¬i % size < size - turn by omega,
        show i % size - (size - turn) = i % size + turn - size by omega,
        show i % size + turn - size < size by omega]
  · simp [hi]

namespace Element

private theorem getLsbD_fill (e : Element) {width : Nat} (hdvd : e.size ∣ width)
    (hwidth : width ≤ 64) (i : Nat) :
    (e.fill width).getLsbD i =
      (decide (i < width) && decide ((i + e.turn) % e.size < e.run)) :=
  getLsbD_pattern hdvd hwidth e.turn_lt i

end Element

namespace BitmaskImm

/-! ## The operations, bit by bit -/

private theorem getLsbD_ones {count : Nat} (h : count ≤ 64) (i : Nat) :
    (ones count).getLsbD i = decide (i < count) := by
  by_cases hfull : count = 64
  · subst hfull
    exact BitVec.getLsbD_allOnes
  · have hlt : count < 64 := by omega
    have hone : ones count = BitVec.ofNat 64 (2 ^ count - 1) := by
      have hle : 2 ^ count ≤ 2 ^ 63 := Nat.pow_le_pow_right (by decide) (by omega)
      apply BitVec.eq_of_toNat_eq
      rw [ones, BitVec.toNat_sub, BitVec.toNat_shiftLeft, BitVec.toNat_ofNat, Nat.shiftLeft_eq]
      have := Nat.two_pow_pos count
      simp only [BitVec.toNat_ofNat]
      omega
    rw [hone, BitVec.getLsbD_ofNat, Nat.testBit_two_pow_sub_one]
    by_cases hi : i < count
    · simp [hi, show i < 64 by omega]
    · simp [hi]

def Within (element : BitVec 64) (size : Nat) : Prop :=
  ∀ i, size ≤ i → element.getLsbD i = false

private theorem getLsbD_rotate {element : BitVec 64} {r size : Nat} (hr : r < size)
    (hsize : size ≤ 64) (hwithin : Within element size) (i : Nat) :
    (rotate element r size).getLsbD i =
      (decide (i < size) && element.getLsbD ((i + r) % size)) := by
  by_cases hi : i < size
  · rw [add_mod_of_lt hi hr]
    simp only [rotate]
    split
    · next h => simp [h, hi]
    · simp only [BitVec.getLsbD_and, BitVec.getLsbD_or, BitVec.getLsbD_ushiftRight,
        BitVec.getLsbD_shiftLeft, getLsbD_ones hsize, hi, decide_true, Bool.and_true,
        Bool.true_and]
      by_cases hwrap : i + r < size
      · simp [hwrap, show i < size - r by omega, Nat.add_comm r]
      · simp [hwrap, hwithin (r + i) (by omega), show ¬i < size - r by omega,
          show i < 64 by omega, show i - (size - r) = i + r - size by omega]
  · simp only [rotate, hi, decide_false, Bool.false_and]
    split
    · exact hwithin i (by omega)
    · simp [getLsbD_ones hsize, hi]

private theorem within_rotate {element : BitVec 64} {r size : Nat} (hr : r < size)
    (hsize : size ≤ 64) (hwithin : Within element size) : Within (rotate element r size) size := by
  intro i hi
  rw [getLsbD_rotate hr hsize hwithin, decide_eq_false (by omega), Bool.false_and]

private theorem getLsbD_spread {element value : BitVec 64} {size filled doublings : Nat}
    (hdvd : size ∣ filled) (hfull : 64 ≤ filled <<< doublings)
    (hvalue : ∀ i < 64, value.getLsbD i = (decide (i < filled) && element.getLsbD (i % size))) :
    ∀ i < 64, (spread value filled doublings).getLsbD i = element.getLsbD (i % size) := by
  induction doublings generalizing value filled with
  | zero =>
    intro i hi
    have hlt : i < filled := Nat.lt_of_lt_of_le hi hfull
    rw [spread, hvalue i hi, decide_eq_true hlt, Bool.true_and]
  | succ doublings ih =>
    rw [spread]
    split
    · have hdouble : 64 ≤ (2 * filled) <<< doublings := by
        rw [Nat.shiftLeft_eq] at hfull ⊢
        rw [Nat.pow_succ] at hfull
        calc 64 ≤ filled * (2 ^ doublings * 2) := hfull
          _ = 2 * filled * 2 ^ doublings := by
            rw [Nat.mul_comm 2 filled, Nat.mul_assoc, Nat.mul_comm 2]
      apply ih (Nat.dvd_mul_left_of_dvd hdvd 2) hdouble
      intro i hi
      rw [BitVec.getLsbD_or, BitVec.getLsbD_shiftLeft, hvalue i hi]
      by_cases hlow : i < filled
      · simp [hlow, show i < 2 * filled by omega]
      · have hmod : (i - filled) % size = i % size := by
          obtain ⟨c, rfl⟩ := hdvd
          exact Nat.sub_mul_mod (by omega)
        rw [hvalue (i - filled) (by omega), hmod]
        by_cases hhigh : i < 2 * filled
        · simp [hlow, hhigh, hi, show i - filled < filled by omega]
        · simp [hlow, hhigh, show ¬i - filled < filled by omega]
    · intro i hi
      rw [hvalue i hi, decide_eq_true (by omega), Bool.true_and]

private theorem getLsbD_replicate {element : BitVec 64} {size : Nat} (hpos : 0 < size)
    (hwithin : Within element size) :
    ∀ i < 64, (replicate element size).getLsbD i = element.getLsbD (i % size) := by
  apply getLsbD_spread (Nat.dvd_refl size)
  · rw [Nat.shiftLeft_eq]
    omega
  · intro i _
    by_cases hi : i < size
    · simp [hi, Nat.mod_eq_of_lt hi]
    · simp [hi, hwithin i (by omega)]

/-! ## The element of a value -/

/-- The value consists of copies of its lowest `size` bits. -/
def Repeats (value : BitVec 64) (size : Nat) : Prop :=
  ∀ i < 64, value.getLsbD i = value.getLsbD (i % size)

private theorem Repeats.of_dvd {value : BitVec 64} {size size' : Nat} (h : Repeats value size)
    (hdvd : size ∣ size') : Repeats value size' := by
  intro i hi
  rw [h i hi, h (i % size') (Nat.lt_of_le_of_lt (Nat.mod_le i size') hi),
    Nat.mod_mod_of_dvd i hdvd]

private theorem halves_agree_iff {value : BitVec 64} {half : Nat} (hhalf : half ≤ 32) :
    value &&& ones half = (value >>> half) &&& ones half ↔
      ∀ i < half, value.getLsbD i = value.getLsbD (i + half) := by
  constructor
  · intro h i hi
    have hbit := congrArg (BitVec.getLsbD · i) h
    simpa [getLsbD_ones (show half ≤ 64 by omega), hi, Nat.add_comm half] using hbit
  · intro h
    apply BitVec.eq_of_getLsbD_eq
    intro i _
    rw [BitVec.getLsbD_and, BitVec.getLsbD_and, BitVec.getLsbD_ushiftRight,
      getLsbD_ones (by omega)]
    by_cases hi : i < half
    · rw [h i hi, Nat.add_comm half]
    · rw [decide_eq_false hi, Bool.and_false, Bool.and_false]

private theorem Repeats.halves_agree_iff {value : BitVec 64} {half : Nat}
    (h : Repeats value (2 * half)) (hhalf : half ≤ 32) :
    value &&& ones half = (value >>> half) &&& ones half ↔ Repeats value half := by
  rw [BitmaskImm.halves_agree_iff hhalf]
  constructor
  · intro hagree i hi
    rw [h i hi]
    by_cases hpos : half = 0
    · subst hpos
      rfl
    have hmod : i % (2 * half) % half = i % half := Nat.mod_mul_left_mod i 2 half
    have hlt : i % (2 * half) < 2 * half := Nat.mod_lt _ (by omega)
    by_cases hlow : i % (2 * half) < half
    · rw [← hmod, Nat.mod_eq_of_lt hlow]
    · have hhigh : i % half = i % (2 * half) - half := by
        rw [← hmod, Nat.mod_eq_sub_mod (Nat.le_of_not_lt hlow), Nat.mod_eq_of_lt (by omega)]
      rw [hhigh, hagree (i % (2 * half) - half) (by omega), Nat.sub_add_cancel (by omega)]
  · intro hrepeats i hi
    rw [hrepeats (i + half) (by omega), Nat.add_mod_right, Nat.mod_eq_of_lt hi]

/-- The search ends at the least size that the value repeats with. -/
private theorem elementSize_least {value : BitVec 64} {halvings : Nat} (hle : halvings ≤ 5)
    (h : Repeats value (2 <<< halvings)) :
    ∃ k, k ≤ halvings ∧ elementSize value (2 <<< halvings) halvings = 2 <<< k ∧
      Repeats value (2 <<< k) ∧ ∀ j < k, ¬Repeats value (2 <<< j) := by
  induction halvings with
  | zero => exact ⟨0, Nat.le_refl 0, rfl, h, fun j hj => absurd hj (Nat.not_lt_zero j)⟩
  | succ n ih =>
    have hdouble : 2 <<< (n + 1) = 2 * (2 <<< n) := Nat.shiftLeft_succ 2 n
    have hhalf : 2 <<< (n + 1) / 2 = 2 <<< n := by omega
    have hbound : 2 <<< n ≤ 32 := by
      have hall : ∀ n ≤ 4, 2 <<< n ≤ 32 := by decide
      exact hall n (by omega)
    rw [elementSize, hhalf]
    rw [hdouble] at h
    by_cases hagree : value &&& ones (2 <<< n) = (value >>> (2 <<< n)) &&& ones (2 <<< n)
    · rw [if_pos hagree]
      obtain ⟨k, hk, hsize⟩ := ih (by omega) ((h.halves_agree_iff hbound).mp hagree)
      exact ⟨k, by omega, hsize⟩
    · rw [if_neg hagree]
      refine ⟨n + 1, Nat.le_refl _, rfl, hdouble ▸ h, fun j hj hrepeats => hagree ?_⟩
      rw [h.halves_agree_iff hbound]
      apply hrepeats.of_dvd
      rw [Nat.shiftLeft_eq, Nat.shiftLeft_eq]
      exact Nat.mul_dvd_mul_left 2 (Nat.pow_dvd_pow 2 (by omega))

private theorem countOnes_of_within {value : BitVec 64} {size n : Nat} (h : Within value size)
    (hn : size ≤ n) : countOnes value n = countOnes value size := by
  induction hn with
  | refl => rfl
  | step hn ih => rw [countOnes, h _ hn, Bool.toNat_false, Nat.add_zero, ih]

private theorem countOnes_turned {value : BitVec 64} {size run turn n : Nat} (hrun : run ≤ size)
    (hturn : turn < size) (hn : n ≤ size)
    (hbits : ∀ i < size, value.getLsbD i = decide ((i + turn) % size < run)) :
    countOnes value n = min n (run - turn) + min (n - (size - turn)) run := by
  induction n with
  | zero => simp [countOnes]
  | succ n ih =>
    rw [countOnes, ih (by omega), hbits n hn, add_mod_of_lt hn hturn]
    by_cases hwrap : n + turn < size
    · have hnone : n - (size - turn) = 0 ∧ n + 1 - (size - turn) = 0 := by omega
      rw [if_pos hwrap, hnone.1, hnone.2]
      by_cases hone : n + turn < run
      · rw [decide_eq_true hone, Bool.toNat_true]
        omega
      · rw [decide_eq_false hone, Bool.toNat_false]
        omega
    · rw [if_neg hwrap, Nat.min_eq_right (show run - turn ≤ n by omega),
        Nat.min_eq_right (show run - turn ≤ n + 1 by omega)]
      by_cases hone : n + turn - size < run
      · rw [decide_eq_true hone, Bool.toNat_true]
        omega
      · rw [decide_eq_false hone, Bool.toNat_false]
        omega

private theorem countOnes_le (value : BitVec 64) (n : Nat) : countOnes value n ≤ n := by
  induction n with
  | zero => exact Nat.le_refl 0
  | succ n ih =>
    have := Bool.toNat_le (value.getLsbD n)
    rw [countOnes]
    omega

end BitmaskImm

/-! ## Values made of an element -/

namespace Element

open BitmaskImm

def fields (e : Element) : BitmaskImm where
  n := if e.size = 64 then 1 else 0
  immR := BitVec.ofNat 32 e.turn
  immS := (~~~(BitVec.ofNat 32 (2 * e.size - 1)) &&& 63#32) ||| BitVec.ofNat 32 (e.run - 1)

private theorem getLsbD_fill_full (e : Element) {i : Nat} (hi : i < 64) :
    (e.fill 64).getLsbD i = decide ((i + e.turn) % e.size < e.run) := by
  rw [e.getLsbD_fill e.size_dvd (Nat.le_refl 64), decide_eq_true hi, Bool.true_and]

private theorem getLsbD_fill_place (e : Element) {j : Nat} (hj : j < e.size) :
    (e.fill 64).getLsbD ((j + (e.size - e.turn)) % e.size) = decide (j < e.run) := by
  have hsize := e.size_le
  have hturn := e.turn_lt
  have hlt : (j + (e.size - e.turn)) % e.size < e.size := Nat.mod_lt _ (by omega)
  have hsum : j + (e.size - e.turn) + e.turn = j + e.size := by omega
  rw [e.getLsbD_fill_full (by omega), Nat.mod_add_mod, hsum, Nat.add_mod_right,
    Nat.mod_eq_of_lt hj]

private theorem repeats_fill (e : Element) : Repeats (e.fill 64) e.size := by
  intro i hi
  rw [e.getLsbD_fill_full hi, e.getLsbD_fill_full (Nat.lt_of_le_of_lt (Nat.mod_le i _) hi),
    Nat.mod_add_mod]

/-- A run does not fall into two equal halves: the ends of the run would have to be half an element
apart on both sides. -/
private theorem not_repeats_half (e : Element) {half : Nat} (hhalf : e.size = 2 * half) :
    ¬Repeats (e.fill 64) half := by
  intro hrepeats
  have hsize := e.size_le
  have hrun := e.run_lt
  have hpos := e.run_pos
  have hagree : ∀ j < half, decide (j < e.run) = decide (j + half < e.run) := by
    intro j hj
    have hlow := e.getLsbD_fill_place (show j < e.size by omega)
    have hhigh := e.getLsbD_fill_place (show j + half < e.size by omega)
    have hlt : ∀ k, (k + (e.size - e.turn)) % e.size < 64 := fun k =>
      Nat.lt_of_lt_of_le (Nat.mod_lt _ (by omega)) hsize
    rw [hrepeats _ (hlt j), Nat.mod_mod_of_dvd _ ⟨2, by omega⟩] at hlow
    rw [hrepeats _ (hlt (j + half)), Nat.mod_mod_of_dvd _ ⟨2, by omega⟩, Nat.add_right_comm,
      Nat.add_mod_right] at hhigh
    exact hlow.symm.trans hhigh
  have hfirst := hagree 0 (by omega)
  have hlast := hagree (half - 1) (by omega)
  simp only [decide_eq_decide] at hfirst hlast
  omega

private theorem elementSize_fill (e : Element) : elementSize (e.fill 64) 64 5 = e.size := by
  obtain ⟨k, hk, hlog⟩ := e.exists_log
  have hrepeats : Repeats (e.fill 64) (2 <<< 5) := e.repeats_fill.of_dvd e.size_dvd
  obtain ⟨m, hm, hfound, hleast, hsmaller⟩ := elementSize_least (Nat.le_refl 5) hrepeats
  have hle : m ≤ k := by
    apply Nat.le_of_not_lt
    intro hlt
    exact hsmaller k hlt (hlog ▸ e.repeats_fill)
  have hge : k ≤ m := by
    apply Nat.le_of_not_lt
    intro hlt
    obtain ⟨n, rfl⟩ : ∃ n, k = n + 1 := ⟨k - 1, by omega⟩
    have hhalf : e.size = 2 * (2 <<< n) := hlog.trans (Nat.shiftLeft_succ 2 n)
    apply e.not_repeats_half hhalf
    apply hleast.of_dvd
    rw [Nat.shiftLeft_eq, Nat.shiftLeft_eq]
    exact Nat.mul_dvd_mul_left 2 (Nat.pow_dvd_pow 2 (by omega))
  obtain rfl : m = k := by omega
  exact hfound.trans hlog.symm

def single (e : Element) : BitVec 64 :=
  e.fill 64 &&& ones e.size

private theorem getLsbD_single (e : Element) (i : Nat) :
    e.single.getLsbD i = (decide (i < e.size) && decide ((i + e.turn) % e.size < e.run)) := by
  have hsize := e.size_le
  rw [single, BitVec.getLsbD_and, getLsbD_ones hsize]
  by_cases hi : i < e.size
  · rw [e.getLsbD_fill_full (by omega), Bool.and_comm]
  · simp [hi]

private theorem within_single (e : Element) : Within e.single e.size := by
  intro i hi
  rw [e.getLsbD_single, decide_eq_false (by omega), Bool.false_and]

private theorem countOnes_single (e : Element) : countOnes e.single 64 = e.run := by
  have hsize := e.size_le
  have hrun := e.run_lt
  have hturn := e.turn_lt
  have hbits : ∀ i < e.size, e.single.getLsbD i = decide ((i + e.turn) % e.size < e.run) := by
    intro i hi
    rw [e.getLsbD_single, decide_eq_true hi, Bool.true_and]
  rw [countOnes_of_within e.within_single hsize,
    countOnes_turned (Nat.le_of_lt hrun) hturn (Nat.le_refl _) hbits]
  omega

private theorem rotate_single_iff (e : Element) {r : Nat} (hr : r < e.size) :
    rotate e.single r e.size = ones e.run ↔ (r + e.turn) % e.size = 0 := by
  have hsize := e.size_le
  have hrun := e.run_lt
  have hpos := e.run_pos
  have hbit : ∀ i < e.size, (rotate e.single r e.size).getLsbD i =
      decide ((i + (r + e.turn) % e.size) % e.size < e.run) := by
    intro i hi
    rw [getLsbD_rotate hr hsize e.within_single, e.getLsbD_single, decide_eq_true hi,
      decide_eq_true (Nat.mod_lt _ (by omega)), Bool.true_and, Bool.true_and, Nat.mod_add_mod,
      Nat.add_mod_mod, Nat.add_assoc]
  have hlt : (r + e.turn) % e.size < e.size := Nat.mod_lt _ (by omega)
  constructor
  · intro h
    rw [h] at hbit
    have hfirst := hbit 0 (by omega)
    have hlast := hbit (e.size - 1) (by omega)
    rw [getLsbD_ones (by omega), add_mod_of_lt (by omega) hlt, decide_eq_decide] at hfirst hlast
    split at hfirst <;> split at hlast <;> omega
  · intro h
    apply BitVec.eq_of_getLsbD_eq
    intro i _
    rw [getLsbD_ones (by omega)]
    by_cases hi : i < e.size
    · rw [hbit i hi, h, Nat.add_zero, Nat.mod_eq_of_lt hi]
    · rw [within_rotate hr hsize e.within_single i (by omega), decide_eq_false (by omega)]

private theorem fill_ne_zero (e : Element) : e.fill 64 ≠ 0#64 := by
  intro h
  have hpos := e.run_pos
  have hone := e.getLsbD_fill_place (j := 0) (by have := e.run_lt; omega)
  rw [h, BitVec.getLsbD_zero, decide_eq_true hpos] at hone
  cases hone

private theorem fill_ne_allOnes (e : Element) : e.fill 64 ≠ BitVec.allOnes 64 := by
  intro h
  have hsize := e.size_le
  have hrun := e.run_lt
  have hzero := e.getLsbD_fill_place (j := e.size - 1) (by omega)
  have hlt : (e.size - 1 + (e.size - e.turn)) % e.size < 64 :=
    Nat.lt_of_lt_of_le (Nat.mod_lt _ (by omega)) hsize
  rw [h, BitVec.getLsbD_allOnes, decide_eq_true hlt, decide_eq_false (by omega)] at hzero
  cases hzero

/-- The encoder finds the element of a value that is made of one. -/
theorem encode64_fill (e : Element) : encode64 (e.fill 64) = some e.fields := by
  have hturn := e.turn_lt
  have hsearch : ∃ r, (List.range e.size).find?
      (fun r => rotate e.single r e.size = ones e.run) = some r := by
    apply Option.isSome_iff_exists.mp
    rw [List.find?_isSome]
    refine ⟨(e.size - e.turn) % e.size, List.mem_range.mpr (Nat.mod_lt _ (by omega)), ?_⟩
    rw [decide_eq_true_eq, e.rotate_single_iff (Nat.mod_lt _ (by omega)), Nat.mod_add_mod,
      Nat.sub_add_cancel (by omega), Nat.mod_self]
  obtain ⟨r, hfind⟩ := hsearch
  have hr : r < e.size := List.mem_range.mp (List.mem_of_find?_eq_some hfind)
  have hback : (r + e.turn) % e.size = 0 := by
    rw [← e.rotate_single_iff hr]
    simpa using List.find?_some hfind
  have hrest : (e.size - r) % e.size = e.turn := by
    rw [add_mod_of_lt hr hturn] at hback
    by_cases hzero : r = 0
    · subst hzero
      rw [Nat.sub_zero, Nat.mod_self]
      split at hback <;> omega
    · rw [Nat.mod_eq_of_lt (by omega)]
      split at hback <;> omega
  have hnot : ¬(e.fill 64 = 0#64 ∨ e.fill 64 = BitVec.allOnes 64) := by
    rintro (h | h)
    · exact e.fill_ne_zero h
    · exact e.fill_ne_allOnes h
  rw [encode64, if_neg hnot]
  simp only [e.elementSize_fill]
  rw [show e.fill 64 &&& ones e.size = e.single from rfl, e.countOnes_single, hfind]
  simp only [hrest]
  rfl

end Element

namespace BitmaskImm

/-- What the search of the encoder finds: `count` ones come to the lower end of the lowest `size`
bits when these are rotated by `r` places. -/
private theorem exists_element {value : BitVec 64} {size count r : Nat}
    (hsize : size ∈ [2, 4, 8, 16, 32, 64]) (hrepeats : Repeats value size) (hcount : count ≤ 64)
    (hr : r < size) (hfound : rotate (value &&& ones size) r size = ones count)
    (hzero : value ≠ 0#64) (hones : value ≠ BitVec.allOnes 64) :
    ∃ e : Element, value = e.fill 64 := by
  have hle : size ≤ 64 := by
    have hall : ∀ size ∈ [2, 4, 8, 16, 32, 64], size ≤ 64 := by decide
    exact hall size hsize
  have hwithin : Within (value &&& ones size) size := by
    intro i hi
    rw [BitVec.getLsbD_and, getLsbD_ones hle, decide_eq_false (by omega), Bool.and_false]
  have hbit : ∀ i, (decide (i < size) && value.getLsbD ((i + r) % size)) = decide (i < count) := by
    intro i
    have hmod : (i + r) % size < size := Nat.mod_lt _ (by omega)
    rw [← getLsbD_ones hcount, ← hfound, getLsbD_rotate hr hle hwithin, BitVec.getLsbD_and,
      getLsbD_ones hle, decide_eq_true hmod, Bool.and_true]
  -- Every bit of the value is one of these, since the value repeats.
  have hvalue : ∀ i < 64,
      value.getLsbD i = decide ((i + (size - r) % size) % size < count) := by
    intro i hi
    have hlt : (i + (size - r) % size) % size < size := Nat.mod_lt _ (by omega)
    have hplace := hbit ((i + (size - r) % size) % size)
    have hturned : i + (size - r) + r = i + size := by omega
    rw [decide_eq_true hlt, Bool.true_and] at hplace
    rw [← hplace, Nat.add_mod_mod, Nat.mod_add_mod, hturned, Nat.add_mod_right, ← hrepeats i hi]
  have hpos : 0 < count := by
    apply Nat.pos_of_ne_zero
    rintro rfl
    apply hzero
    apply BitVec.eq_of_getLsbD_eq
    intro i hi
    rw [hvalue i hi, BitVec.getLsbD_zero, decide_eq_false (Nat.not_lt_zero _)]
  have hlt : count < size := by
    apply Nat.lt_of_not_le
    intro hge
    apply hones
    apply BitVec.eq_of_getLsbD_eq
    intro i hi
    have hmod : (i + (size - r) % size) % size < size := Nat.mod_lt _ (by omega)
    rw [hvalue i hi, BitVec.getLsbD_allOnes, decide_eq_true hi, decide_eq_true (by omega)]
  refine ⟨⟨size, count, (size - r) % size, hsize, hpos, hlt, Nat.mod_lt _ (by omega)⟩, ?_⟩
  apply BitVec.eq_of_getLsbD_eq
  intro i hi
  rw [Element.getLsbD_fill_full _ hi]
  exact hvalue i hi

/-- The encoder accepts the values that are made of an element, and gives its fields. -/
theorem encode64_eq_some_iff {value : BitVec 64} {imm : BitmaskImm} :
    encode64 value = some imm ↔ ∃ e : Element, value = e.fill 64 ∧ imm = e.fields := by
  constructor
  · intro h
    have haccepted := h
    rw [encode64] at h
    split at h
    · cases h
    next hnot =>
    rw [not_or] at hnot
    have hwhole : Repeats value (2 <<< 5) := fun i hi => by
      rw [Nat.mod_eq_of_lt (show i < 2 <<< 5 from hi)]
    obtain ⟨k, hk, hsize, hrepeats, -⟩ := elementSize_least (Nat.le_refl 5) hwhole
    have hmem : ∀ k ≤ 5, 2 <<< k ∈ [2, 4, 8, 16, 32, 64] := by decide
    simp only at h
    split at h
    · cases h
    next r hfind =>
    rw [show elementSize value 64 5 = 2 <<< k from hsize] at hfind
    have hr := List.mem_range.mp (List.mem_of_find?_eq_some hfind)
    obtain ⟨e, rfl⟩ := exists_element (hmem k hk) hrepeats (countOnes_le _ 64) hr
      (by simpa using List.find?_some hfind) hnot.1 hnot.2
    rw [e.encode64_fill] at haccepted
    exact ⟨e, rfl, (Option.some.inj haccepted).symm⟩
  · rintro ⟨e, rfl, rfl⟩
    exact e.encode64_fill

end BitmaskImm

/-! ## Operands of 32 bits -/

private theorem Element.fill_half_or (e : Element) (h : e.size ≤ 32) :
    e.fill 32 ||| (e.fill 32 <<< 32) = e.fill 64 := by
  have hdvd := e.size_dvd_half h
  apply BitVec.eq_of_getLsbD_eq
  intro i hi
  rw [BitVec.getLsbD_or, BitVec.getLsbD_shiftLeft, e.getLsbD_fill hdvd (by decide),
    e.getLsbD_fill hdvd (by decide), e.getLsbD_fill_full hi]
  by_cases hlow : i < 32
  · simp [hlow]
  · obtain ⟨c, hc⟩ := hdvd
    have hmod : (i - 32 + e.turn) % e.size = (i + e.turn) % e.size := by
      rw [show i + e.turn = i - 32 + e.turn + e.size * c by omega, Nat.add_mul_mod_self_left]
    simp [hlow, hi, show i - 32 < 32 by omega, hmod]

private theorem Element.fill_and_half (e : Element) (h : e.size ≤ 32) :
    e.fill 64 &&& 0xFFFFFFFF#64 = e.fill 32 := by
  apply BitVec.eq_of_getLsbD_eq
  intro i hi
  rw [show 0xFFFFFFFF#64 = BitmaskImm.ones 32 from rfl, BitVec.getLsbD_and,
    BitmaskImm.getLsbD_ones (by decide), e.getLsbD_fill_full hi,
    e.getLsbD_fill (e.size_dvd_half h) (by decide), Bool.and_comm]

private theorem encode32_eq_some_iff {value : BitVec 64} {imm : BitmaskImm} :
    BitmaskImm.encode32 value = some imm ↔
      ∃ e : Element, e.size ≤ 32 ∧ value = e.fill 32 ∧ imm = e.fields := by
  rw [BitmaskImm.encode32]
  constructor
  · intro h
    split at h
    · next hfits =>
      obtain ⟨e, hvalue, rfl⟩ := BitmaskImm.encode64_eq_some_iff.mp h
      have hhigh : ∀ i, 32 ≤ i → value.getLsbD i = false := by
        intro i hi
        have hbit := congrArg (BitVec.getLsbD · (i - 32)) hfits
        simpa [Nat.add_sub_cancel' hi] using hbit
      have hsmall : e.size ≤ 32 := by
        apply Nat.le_of_not_lt
        intro hlt
        have hall : ∀ size ∈ [2, 4, 8, 16, 32, 64], 32 < size → size = 2 * 32 := by decide
        apply e.not_repeats_half (hall e.size e.size_mem hlt)
        rw [← hvalue]
        intro i hi
        rw [BitVec.getLsbD_or, BitVec.getLsbD_or, BitVec.getLsbD_shiftLeft,
          BitVec.getLsbD_shiftLeft]
        by_cases hlow : i < 32
        · rw [Nat.mod_eq_of_lt hlow]
        · rw [show i % 32 = i - 32 by omega, hhigh i (by omega)]
          simp [hlow, hi, show i - 32 < 32 by omega]
      refine ⟨e, hsmall, ?_, rfl⟩
      rw [← e.fill_and_half hsmall, ← hvalue]
      apply BitVec.eq_of_getLsbD_eq
      intro i hi
      rw [show 0xFFFFFFFF#64 = BitmaskImm.ones 32 from rfl, BitVec.getLsbD_and,
        BitmaskImm.getLsbD_ones (by decide), BitVec.getLsbD_or, BitVec.getLsbD_shiftLeft]
      by_cases hlow : i < 32
      · simp [hlow]
      · simp [hlow, hhigh i (by omega)]
    · cases h
  · rintro ⟨e, hsmall, rfl, rfl⟩
    have hfits : e.fill 32 >>> 32 = 0#64 := by
      apply BitVec.eq_of_getLsbD_eq
      intro i _
      rw [BitVec.getLsbD_ushiftRight, e.getLsbD_fill (e.size_dvd_half hsmall) (by decide),
        decide_eq_false (by omega), Bool.false_and, BitVec.getLsbD_zero]
    rw [if_pos hfits, e.fill_half_or hsmall]
    exact e.encode64_fill

theorem bitmask?_eq_some_iff {width : Width} {value : BitVec 64} {imm : BitmaskImm} :
    width.bitmask? value = some imm ↔
      ∃ e : Element, e.size ≤ width.bits ∧ value = e.fill width.bits ∧ imm = e.fields := by
  cases width with
  | w => exact encode32_eq_some_iff
  | x =>
    rw [Width.bitmask?, BitmaskImm.encode64_eq_some_iff]
    constructor
    · rintro ⟨e, h⟩
      exact ⟨e, e.size_le, h⟩
    · rintro ⟨e, -, h⟩
      exact ⟨e, h⟩

/-! ## Fields -/

namespace BitmaskImm

/-- The element size that the fields mark: `n` marks 64 bits, and otherwise the highest zero among
the six bits of `immS` does. All other fields are reserved. -/
def markedSize? (imm : BitmaskImm) : Option Nat :=
  if imm.n = 1#32 ∧ imm.immS.toNat < 0b1000000 then some 64
  else if imm.n ≠ 0#32 then none
  else if imm.immS.toNat < 0b100000 then some 32
  else if imm.immS.toNat < 0b110000 then some 16
  else if imm.immS.toNat < 0b111000 then some 8
  else if imm.immS.toNat < 0b111100 then some 4
  else if imm.immS.toNat < 0b111110 then some 2
  else none

/-- The number of ones in an element of `size` bits: the bits of `immS` below the mark, and one
more. -/
def markedRun (imm : BitmaskImm) (size : Nat) : Nat :=
  imm.immS.toNat % size + 1

/-- Size and run of an element are read back from its fields, by the table and by the decoder. -/
theorem marks_fields (e : Element) :
    e.fields.markedSize? = some e.size ∧ e.fields.markedRun e.size = e.run ∧
      e.fields.sizeMark ≠ 0#32 ∧ 1 <<< e.fields.sizeMark.toNat.log2 = e.size ∧
      e.fields.n.toNat ≤ 1 ∧ e.fields.immS.toNat < 64 ∧ (e.size ≤ 32 → e.fields.n = 0#32) := by
  have hall : ∀ size ∈ [2, 4, 8, 16, 32, 64], ∀ run < size, 0 < run →
      let imm : BitmaskImm := ⟨if size = 64 then 1 else 0, 0#32,
        (~~~(BitVec.ofNat 32 (2 * size - 1)) &&& 63#32) ||| BitVec.ofNat 32 (run - 1)⟩
      imm.markedSize? = some size ∧ imm.markedRun size = run ∧ imm.sizeMark ≠ 0#32 ∧
        1 <<< imm.sizeMark.toNat.log2 = size ∧ imm.n.toNat ≤ 1 ∧ imm.immS.toNat < 64 ∧
        (size ≤ 32 → imm.n = 0#32) := by
    decide +kernel
  exact hall e.size e.size_mem e.run e.run_lt e.run_pos

theorem toNat_immR_fields (e : Element) : e.fields.immR.toNat = e.turn := by
  have hsize := e.size_le
  have hturn := e.turn_lt
  rw [Element.fields, BitVec.toNat_ofNat, Nat.mod_eq_of_lt (by omega)]

private theorem lt_of_markedSize? {imm : BitmaskImm} {size : Nat}
    (h : imm.markedSize? = some size) :
    imm.n.toNat < 2 ∧ imm.immS.toNat < 64 := by
  rw [markedSize?] at h
  split at h
  · next hwide =>
    rw [hwide.1]
    exact ⟨by decide, hwide.2⟩
  · split at h
    · cases h
    next hn =>
    rw [Decidable.not_not.mp hn]
    refine ⟨by decide, Nat.lt_of_not_le fun hge => ?_⟩
    repeat rw [if_neg (by omega)] at h
    cases h

private theorem eq_fields_of_marked {imm : BitmaskImm} {size : Nat}
    (hsize : imm.markedSize? = some size) (hrun : imm.markedRun size < size)
    (hturn : imm.immR.toNat < size) :
    ∃ e : Element, e.size = size ∧ imm = e.fields := by
  have hsizes : ∀ n < 2, ∀ s < 64, ∀ size,
      markedSize? ⟨BitVec.ofNat 32 n, 0#32, BitVec.ofNat 32 s⟩ = some size →
      size ∈ [2, 4, 8, 16, 32, 64] := by
    decide +kernel
  have hfields : ∀ n < 2, ∀ s < 64, ∀ size ∈ [2, 4, 8, 16, 32, 64],
      markedSize? ⟨BitVec.ofNat 32 n, 0#32, BitVec.ofNat 32 s⟩ = some size → s % size + 1 < size →
      BitVec.ofNat 32 n = (if size = 64 then 1 else 0) ∧
        BitVec.ofNat 32 s =
          (~~~(BitVec.ofNat 32 (2 * size - 1)) &&& 63#32) ||| BitVec.ofNat 32 (s % size) := by
    decide +kernel
  obtain ⟨n, r, s⟩ := imm
  obtain ⟨hn, hs⟩ := lt_of_markedSize? hsize
  have hmarked : markedSize? ⟨BitVec.ofNat 32 n.toNat, 0#32, BitVec.ofNat 32 s.toNat⟩ =
      some size := by
    rw [BitVec.ofNat_toNat, BitVec.ofNat_toNat, BitVec.setWidth_eq, BitVec.setWidth_eq]
    exact hsize
  have hmem := hsizes n.toNat hn s.toNat hs size hmarked
  obtain ⟨hwide, hmark⟩ := hfields n.toNat hn s.toNat hs size hmem hmarked hrun
  rw [BitVec.ofNat_toNat, BitVec.setWidth_eq] at hwide hmark
  refine ⟨⟨size, s.toNat % size + 1, r.toNat, hmem, Nat.succ_pos _, hrun, hturn⟩, rfl, ?_⟩
  rw [Element.fields, ← hwide, BitVec.ofNat_toNat, BitVec.setWidth_eq]
  exact congrArg (mk n r) hmark

private theorem decode64_fields (e : Element) : e.fields.decode64 = .ok (e.fill 64) := by
  obtain ⟨-, hrun, hmark, hsize, -⟩ := marks_fields e
  have hle := e.size_le
  have hlt := e.run_lt
  have hturn := e.turn_lt
  have hwithin : Within (ones e.run) e.size := by
    intro i hi
    rw [getLsbD_ones (by omega), decide_eq_false (by omega)]
  rw [markedRun] at hrun
  rw [decode64, if_neg hmark, hsize]
  simp only [hrun, toNat_immR_fields, Nat.mod_eq_of_lt hturn]
  rw [if_neg (by omega), if_neg (by omega), if_neg (by omega)]
  congr 1
  apply BitVec.eq_of_getLsbD_eq
  intro i hi
  have hmod : i % e.size < e.size := Nat.mod_lt _ (by omega)
  rw [getLsbD_replicate (by omega) (within_rotate hturn hle hwithin) i hi,
    getLsbD_rotate hturn hle hwithin, getLsbD_ones (by omega), e.getLsbD_fill_full hi,
    decide_eq_true hmod, Bool.true_and, Nat.mod_add_mod]

private theorem decode_fields (e : Element) {width : Width} (h : e.size ≤ width.bits) :
    e.fields.decode width.bits = .ok (e.fill width.bits) := by
  rw [decode, decode64_fields]
  cases width with
  | w => exact congrArg Except.ok (e.fill_and_half h)
  | x => rfl

theorem encode_eq (value : BitVec 64) (width : Width) :
    encode value width.bits = .ok (width.bitmask? value) := by
  cases width <;> rfl

end BitmaskImm

private theorem Element.fill_ne_ends (e : Element) {width : Width} (h : e.size ≤ width.bits) :
    e.fill width.bits ≠ 0#64 ∧ e.fill width.bits ≠ (BitVec.allOnes width.bits).setWidth 64 := by
  cases width with
  | x => exact ⟨e.fill_ne_zero, e.fill_ne_allOnes⟩
  | w =>
    have hfull := e.fill_half_or h
    refine ⟨fun hzero => e.fill_ne_zero ?_, fun hones => e.fill_ne_allOnes ?_⟩
    · rw [← hfull, show e.fill 32 = 0#64 from hzero]
      rfl
    · rw [← hfull, show e.fill 32 = (BitVec.allOnes 32).setWidth 64 from hones]
      decide

/-- Bitmask immediates are an exact code, for operands of both widths. Encoding succeeds exactly for
the values that are made of an element; the fields it gives keep to their widths and decode to the
value; and fields that mark an element within the width and leave a zero in it are what their value
encodes to. -/
theorem bitmask_code_exact (width : Width) :
    (∀ value : BitVec 64, ∃ result, BitmaskImm.encode value width.bits = .ok result ∧
      (result.isSome ↔ ∃ e : Element, e.size ≤ width.bits ∧ value = e.fill width.bits) ∧
      ∀ imm, result = some imm →
        value ≠ 0#64 ∧ value ≠ (BitVec.allOnes width.bits).setWidth 64 ∧
        imm.decode width.bits = .ok value ∧ imm.n.toNat ≤ 1 ∧ imm.immR.toNat < 64 ∧
        imm.immS.toNat < 64 ∧ (width = .w → imm.n = 0#32)) ∧
    ∀ (imm : BitmaskImm) (size : Nat), imm.markedSize? = some size → size ≤ width.bits →
      imm.immR.toNat < size → imm.markedRun size < size →
      ∃ value, imm.decode width.bits = .ok value ∧
        BitmaskImm.encode value width.bits = .ok (some imm) := by
  refine ⟨fun value => ⟨width.bitmask? value, BitmaskImm.encode_eq value width, ?_, ?_⟩, ?_⟩
  · rw [Option.isSome_iff_exists]
    constructor
    · rintro ⟨imm, himm⟩
      obtain ⟨e, hsize, hvalue, -⟩ := bitmask?_eq_some_iff.mp himm
      exact ⟨e, hsize, hvalue⟩
    · rintro ⟨e, hsize, hvalue⟩
      exact ⟨e.fields, bitmask?_eq_some_iff.mpr ⟨e, hsize, hvalue, rfl⟩⟩
  · intro imm himm
    obtain ⟨e, hsize, rfl, rfl⟩ := bitmask?_eq_some_iff.mp himm
    obtain ⟨hzero, hones⟩ := e.fill_ne_ends hsize
    obtain ⟨-, -, -, -, hn, hs, hnarrow⟩ := BitmaskImm.marks_fields e
    have hle := e.size_le
    have hturn := e.turn_lt
    refine ⟨hzero, hones, BitmaskImm.decode_fields e hsize, hn, ?_, hs, ?_⟩
    · rw [BitmaskImm.toNat_immR_fields]
      omega
    · rintro rfl
      exact hnarrow hsize
  · intro imm size hmarked hsize hturn hrun
    obtain ⟨e, rfl, rfl⟩ := BitmaskImm.eq_fields_of_marked hmarked hrun hturn
    refine ⟨e.fill width.bits, BitmaskImm.decode_fields e hsize, ?_⟩
    rw [BitmaskImm.encode_eq, bitmask?_eq_some_iff.mpr ⟨e, hsize, rfl, rfl⟩]

/-- A run that wraps around the end of the register, and three ones in each half of 32 bits. -/
theorem wrapped_run_code_exact :
    (∃ imm, BitmaskImm.encode 0x8000000000000001#64 64 = .ok (some imm) ∧
      imm.decode 64 = .ok 0x8000000000000001#64 ∧ imm.n.toNat ≤ 1) ∧
    BitmaskImm.markedSize? ⟨0#32, 13#32, 0b100010#32⟩ = some 16 ∧
    ∃ value, BitmaskImm.decode ⟨0#32, 13#32, 0b100010#32⟩ 32 = .ok value ∧
      BitmaskImm.encode value 32 = .ok (some ⟨0#32, 13#32, 0b100010#32⟩) := by
  have hmarked : BitmaskImm.markedSize? ⟨0#32, 13#32, 0b100010#32⟩ = some 16 := by decide
  refine ⟨?_, hmarked, ?_⟩
  · obtain ⟨result, hencode, hsome, hgood⟩ := (bitmask_code_exact .x).1 0x8000000000000001#64
    have hwrapped : ∃ e : Element, e.size ≤ Width.x.bits ∧
        0x8000000000000001#64 = e.fill Width.x.bits :=
      ⟨⟨64, 2, 1, by decide, by decide, by decide, by decide⟩, by decide, by decide⟩
    obtain ⟨imm, rfl⟩ := Option.isSome_iff_exists.mp (hsome.mpr hwrapped)
    obtain ⟨-, -, hdecode, hn, -⟩ := hgood imm rfl
    exact ⟨imm, hencode, hdecode, hn⟩
  · exact (bitmask_code_exact .w).2 _ 16 hmarked (by decide) (by decide) (by decide)

end MachineCode.A64
