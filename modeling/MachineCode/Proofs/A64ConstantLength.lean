import MachineCode.Proofs.A64Constant

/-!
# How many words a constant takes

A move that keeps the rest of a register changes one halfword at most. So as many moves are needed
as the constant has halfwords other than zeros, or other than ones, and so many are enough. The
assembler does with the least number of words for all constants but those that `Detours` names.
-/

namespace MachineCode

namespace A64

/-! ## Moves that are needed -/

/-- The number of halfwords of a value that are not blank. -/
def unlike (value : BitVec 64) (blank : BitVec 16) : Nat :=
  [0, 1, 2, 3].countP fun j => halfword value j ≠ blank

private theorem unlike_eq (value : BitVec 64) (blank : BitVec 16) :
    unlike value blank =
      (if halfword value 0 = blank then 0 else 1) + (if halfword value 1 = blank then 0 else 1) +
        (if halfword value 2 = blank then 0 else 1) +
        (if halfword value 3 = blank then 0 else 1) := by
  have hplace : ∀ j, (if decide (halfword value j ≠ blank) = true then 1 else 0) =
      if halfword value j = blank then 0 else 1 := by
    intro j
    by_cases h : halfword value j = blank <;> simp [h]
  simp only [unlike, List.countP_cons, List.countP_nil, hplace]
  omega

/-- The least number of moves that leave a value, from zeros or from ones. -/
def leastMoves (value : BitVec 64) : Nat :=
  min (max 1 (unlike value 0#16)) (max 1 (unlike value 0xFFFF#16))

/-- The moves start with one that sets the whole register and go on with ones that keep the rest of
it. They leave the value, whatever the register held. -/
structure Makes (moves : List (MoveWide × BitVec 16 × Nat)) (value : BitVec 64) : Prop where
  start : ∃ first rest, moves = first :: rest ∧ first.1 ≠ .keep ∧ ∀ m ∈ rest, m.1 = .keep
  inside : ∀ m ∈ moves, m.2.2 < 4
  leaves : ∀ old, afterMoves moves old = value

private theorem countP_le_succ {positions : List Nat} (hnodup : positions.Nodup)
    {test other : Nat → Bool} {p : Nat} (h : ∀ j ∈ positions, j ≠ p → test j = other j) :
    positions.countP test ≤ positions.countP other + 1 := by
  induction positions with
  | nil => exact Nat.zero_le _
  | cons i rest ih =>
    obtain ⟨hfirst, hrest⟩ := List.nodup_cons.mp hnodup
    simp only [List.countP_cons]
    by_cases hip : i = p
    · have hsame : rest.countP test = rest.countP other := by
        apply List.countP_congr
        intro j hj
        have hne : j ≠ p := fun hjp => hfirst (hip ▸ hjp ▸ hj)
        rw [h j (.tail _ hj) hne]
      rw [hsame]
      split <;> omega
    · have hlater := ih hrest fun j hj => h j (.tail _ hj)
      rw [h i (.head _) hip]
      omega

private theorem mem_positions_iff {j : Nat} : j ∈ [0, 1, 2, 3] ↔ j < 4 := by
  simp only [List.mem_cons, List.not_mem_nil, or_false]
  omega

private theorem unlike_keep_le {old : BitVec 64} {imm : BitVec 16} {p : Nat} (hp : p < 4)
    (blank : BitVec 16) :
    unlike (MoveWide.keep.result old imm p) blank ≤ unlike old blank + 1 := by
  apply countP_le_succ (by decide) (p := p)
  intro j hj hne
  have hlt : j < 4 := mem_positions_iff.mp hj
  rw [halfword_keep hlt hp, if_neg hne]

private theorem unlike_afterMoves_le {moves : List (MoveWide × BitVec 16 × Nat)}
    (hkeep : ∀ m ∈ moves, m.1 = .keep) (hinside : ∀ m ∈ moves, m.2.2 < 4) (old : BitVec 64)
    (blank : BitVec 16) :
    unlike (afterMoves moves old) blank ≤ unlike old blank + moves.length := by
  induction moves generalizing old with
  | nil => exact Nat.le_refl _
  | cons first rest ih =>
    obtain ⟨move, imm, p⟩ := first
    obtain rfl : move = .keep := hkeep _ (.head _)
    have hp : p < 4 := hinside _ (.head _)
    have hstep : unlike (MoveWide.keep.result old imm p) blank ≤ unlike old blank + 1 :=
      unlike_keep_le hp blank
    have hrest := ih (fun m hm => hkeep m (.tail _ hm)) (fun m hm => hinside m (.tail _ hm))
      (MoveWide.keep.result old imm p)
    simp only [afterMoves, List.foldl_cons, List.length_cons] at hrest ⊢
    omega

private theorem unlike_start_le {move : MoveWide} {blank : BitVec 16}
    (hblank : move.blank? = some blank) (old : BitVec 64) {imm : BitVec 16} {p : Nat} (hp : p < 4) :
    unlike (move.result old imm p) blank ≤ 1 := by
  refine @countP_le_succ [0, 1, 2, 3] (by decide) _ (fun _ => false) p ?_
  intro j hj hne
  have hlt : j < 4 := mem_positions_iff.mp hj
  rw [halfword_start hblank old hlt hp, if_neg hne]
  simp

private theorem Makes.leastMoves_le {moves : List (MoveWide × BitVec 16 × Nat)} {value : BitVec 64}
    (h : Makes moves value) : leastMoves value ≤ moves.length := by
  obtain ⟨⟨move, imm, p⟩, rest, rfl, hstart, hkeep⟩ := h.start
  have hp : p < 4 := h.inside _ (.head _)
  have hneeded : ∀ blank, move.blank? = some blank → unlike value blank ≤ rest.length + 1 := by
    intro blank hblank
    have hfirst : unlike (move.result 0#64 imm p) blank ≤ 1 := unlike_start_le hblank 0#64 hp
    have hrest := unlike_afterMoves_le hkeep (fun m hm => h.inside m (.tail _ hm))
      (move.result 0#64 imm p) blank
    rw [show afterMoves rest (move.result 0#64 imm p) = value from h.leaves 0#64] at hrest
    omega
  rw [List.length_cons, leastMoves]
  cases move with
  | zero =>
    have := hneeded _ rfl
    omega
  | invert =>
    have := hneeded _ rfl
    omega
  | keep => exact absurd rfl hstart

/-! ## Moves that are enough -/

/-- The moves that leave a value, started from a register of blanks. -/
def movesFrom (move : MoveWide) (blank : BitVec 16) (value : BitVec 64) :
    List (MoveWide × BitVec 16 × Nat) :=
  match [0, 1, 2, 3].filter (fun i => halfword value i ≠ blank) with
  | [] => [(move, halfword value 0 ^^^ blank, 0)]
  | first :: rest => (move, halfword value first ^^^ blank, first) :: keepMoves value rest

private theorem length_movesFrom (move : MoveWide) (blank : BitVec 16) (value : BitVec 64) :
    (movesFrom move blank value).length = max 1 (unlike value blank) := by
  rw [unlike, List.countP_eq_length_filter, movesFrom]
  split
  · next hfilter =>
    rw [hfilter]
    rfl
  · next first rest hfilter =>
    rw [hfilter, List.length_cons, List.length_cons, keepMoves, List.length_map]
    omega

private theorem makes_movesFrom {move : MoveWide} {blank : BitVec 16}
    (hblank : move.blank? = some blank) (value : BitVec 64) :
    Makes (movesFrom move blank value) value := by
  have hstart : move ≠ .keep := by
    rintro rfl
    cases hblank
  have hcover : ∀ j < 4, j ∈ [0, 1, 2, 3].filter (fun i => halfword value i ≠ blank) ∨
      halfword value j = blank :=
    fun j hj => mem_filter_or_eq blank (mem_positions_iff.mpr hj)
  have hbound : ∀ j ∈ [0, 1, 2, 3].filter (fun i => halfword value i ≠ blank), j < 4 :=
    fun j hj => mem_positions_iff.mp (List.mem_filter.mp hj).1
  rw [movesFrom]
  split
  · next hfilter =>
    rw [hfilter] at hcover
    refine ⟨⟨_, [], rfl, hstart, by simp⟩, by simp, ?_⟩
    exact afterMoves_start_keepMoves hblank (by decide) (by simp) fun j hj => .inr (hcover j hj)
  · next first rest hfilter =>
    rw [hfilter] at hcover hbound
    have hkept : ∀ m ∈ keepMoves value rest, m.1 = .keep ∧ m.2.2 < 4 := by
      intro m hm
      obtain ⟨i, hi, rfl⟩ := List.mem_map.mp hm
      exact ⟨rfl, hbound i (.tail _ hi)⟩
    refine ⟨⟨_, _, rfl, hstart, fun m hm => (hkept m hm).1⟩, ?_, ?_⟩
    · intro m hm
      cases hm with
      | head => exact hbound first (.head _)
      | tail _ hm => exact (hkept m hm).2
    · apply afterMoves_start_keepMoves hblank (hbound first (.head _))
      · exact fun i hi => hbound i (.tail _ hi)
      · intro j hj
        rw [← or_assoc, ← List.mem_cons]
        exact hcover j hj

private theorem exists_makes_leastMoves (value : BitVec 64) :
    ∃ moves, Makes moves value ∧ moves.length = leastMoves value := by
  by_cases hle : max 1 (unlike value 0#16) ≤ max 1 (unlike value 0xFFFF#16)
  · refine ⟨movesFrom .zero 0#16 value, makes_movesFrom rfl value, ?_⟩
    rw [length_movesFrom, leastMoves, Nat.min_eq_left hle]
  · refine ⟨movesFrom .invert 0xFFFF#16 value, makes_movesFrom rfl value, ?_⟩
    rw [length_movesFrom, leastMoves, Nat.min_eq_right (Nat.le_of_not_le hle)]

/-! ## Moves that are made -/

private theorem length_constantMoves_of_ne {value : BitVec 64} (h : halfword value 3 ≠ 0xFFFF#16) :
    (constantMoves value).length = max 1 (unlike value 0#16) := by
  rw [← length_movesFrom .zero]
  simp only [constantMoves, if_neg h, movesFrom]
  cases [0, 1, 2, 3].filter (fun i => halfword value i ≠ 0#16) with
  | nil => rfl
  | cons first rest => rfl

private theorem length_constantMoves_of_eq {value : BitVec 64} (h : halfword value 3 = 0xFFFF#16) :
    (constantMoves value).length =
      if halfword value 2 = 0xFFFF#16 ∧ halfword value 1 ≠ 0xFFFF#16 then 2
      else max 1 (unlike value 0xFFFF#16) := by
  simp only [constantMoves, unlike_eq, h]
  by_cases h2 : halfword value 2 = 0xFFFF#16
  · by_cases h1 : halfword value 1 = 0xFFFF#16
    · by_cases h0 : halfword value 0 = 0xFFFF#16 <;> simp [h2, h1, h0]
    · simp [h2, h1]
  · by_cases h1 : halfword value 1 = 0xFFFF#16 <;>
      by_cases h0 : halfword value 0 = 0xFFFF#16 <;> simp [h2, h1, h0]

/-! ## Words that are needed and words that are made -/

/-- The least number of words that leave a constant: one for a mask, else a word for each move. -/
def shortestLength (value : BitVec 64) : Nat :=
  if (BitmaskImm.encode64 value).isSome then 1 else leastMoves value

/-- Constants that take more words than the least number. A mask of two halfwords is not made as a
mask if it is an immediate of an addition. Without a mask, the upper halfword alone decides whether
the moves start from ones, and a second move follows the first one at position one in any case. -/
def Detours (value : BitVec 64) : Prop :=
  if (BitmaskImm.encode64 value).isSome then
    (Operand.ofImmediate? value.toInt).isSome ∧ unlike value 0#16 = 2
  else if halfword value 3 = 0xFFFF#16 then
    unlike value 0#16 < unlike value 0xFFFF#16 ∨
      halfword value 2 = 0xFFFF#16 ∧ halfword value 1 ≠ 0xFFFF#16 ∧ halfword value 0 = 0xFFFF#16
  else
    unlike value 0xFFFF#16 < unlike value 0#16

instance (value : BitVec 64) : Decidable (Detours value) :=
  inferInstanceAs (Decidable (ite _ _ _))

private theorem unlike_pos {value : BitVec 64} {blank : BitVec 16} {j : Nat} (hj : j < 4)
    (h : halfword value j ≠ blank) : 0 < unlike value blank :=
  List.countP_pos_iff.mpr ⟨j, mem_positions_iff.mpr hj, decide_eq_true h⟩

private theorem halfword_eq_zero_of_immediate {value : BitVec 64} {operand : Operand}
    (h : Operand.ofImmediate? value.toInt = some operand) :
    halfword value 2 = 0#16 ∧ halfword value 3 = 0#16 := by
  obtain ⟨imm12, raised, -, hfits, hvalue⟩ := Operand.ofImmediate?_eq_some h
  have hsmall : value.toNat < 0x1000000 := by
    rw [BitVec.toInt_eq_toNat_cond, Source.immediateValue] at hvalue
    split at hvalue <;> split at hvalue <;> omega
  have hzero : ∀ j, 2 ≤ j → halfword value j = 0#16 := by
    intro j hj
    apply BitVec.eq_of_getLsbD_eq
    intro i hi
    have hbit : value.getLsbD (16 * j + i) = false :=
      Nat.testBit_lt_two_pow (Nat.lt_of_lt_of_le hsmall
        (show 2 ^ 24 ≤ _ from Nat.pow_le_pow_right (by decide) (by omega)))
    rw [halfword, BitVec.getLsbD_extractLsb', hbit, BitVec.getLsbD_zero, Bool.and_false]
  exact ⟨hzero 2 (by decide), hzero 3 (by decide)⟩

private theorem isMask_eq_true_iff {value : BitVec 64} :
    isMask value = true ↔
      (Operand.ofImmediate? value.toInt).isSome = false ∧
        (BitmaskImm.encode64 value).isSome = true := by
  rw [isMask, Bool.and_eq_true, Option.isNone_iff_eq_none, Option.isSome_eq_false_iff,
    Option.isNone_iff_eq_none]

section

variable {value : BitVec 64}

private theorem constantMoves_of_mask (hmask : (BitmaskImm.encode64 value).isSome = true)
    (himmediate : (Operand.ofImmediate? value.toInt).isSome = true) :
    1 ≤ (constantMoves value).length ∧
      ((constantMoves value).length = 1 ↔ ¬Detours value) := by
  obtain ⟨operand, hoperand⟩ := Option.isSome_iff_exists.mp himmediate
  obtain ⟨h2, h3⟩ := halfword_eq_zero_of_immediate hoperand
  have htwo : unlike value 0#16 ≤ 2 := by
    rw [unlike_eq, if_pos h2, if_pos h3]
    split <;> split <;> decide
  have hdetours : Detours value ↔ unlike value 0#16 = 2 := by
    rw [Detours, if_pos hmask, himmediate]
    exact and_iff_right rfl
  rw [length_constantMoves_of_ne (by rw [h3]; decide), hdetours]
  omega

private theorem constantMoves_of_ones (hmask : (BitmaskImm.encode64 value).isSome = false)
    (h3 : halfword value 3 = 0xFFFF#16) :
    leastMoves value ≤ (constantMoves value).length ∧
      ((constantMoves value).length = leastMoves value ↔ ¬Detours value) := by
  have hdetours : Detours value ↔ unlike value 0#16 < unlike value 0xFFFF#16 ∨
      halfword value 2 = 0xFFFF#16 ∧ halfword value 1 ≠ 0xFFFF#16 ∧
        halfword value 0 = 0xFFFF#16 := by
    rw [Detours, hmask, if_neg (by decide), if_pos h3]
  have hzero : 0 < unlike value 0#16 := unlike_pos (j := 3) (by decide) (by rw [h3]; decide)
  rw [length_constantMoves_of_eq h3, hdetours, leastMoves]
  by_cases hlate : halfword value 2 = 0xFFFF#16 ∧ halfword value 1 ≠ 0xFFFF#16
  · obtain ⟨h2, h1⟩ := hlate
    have hones : unlike value 0xFFFF#16 = (if halfword value 0 = 0xFFFF#16 then 0 else 1) + 1 := by
      rw [unlike_eq, if_neg h1, if_pos h2, if_pos h3]
    have hpair : 2 ≤ unlike value 0#16 := by
      rw [unlike_eq, h2, h3]
      exact Nat.le_add_left 2 _
    rw [if_pos ⟨h2, h1⟩]
    by_cases h0 : halfword value 0 = 0xFFFF#16
    · rw [if_pos h0] at hones
      simp only [h0, h1, h2, ne_eq, not_false_eq_true, and_self, or_true, not_true, iff_false]
      omega
    · rw [if_neg h0] at hones
      simp only [h0, and_false, or_false]
      omega
  · have hnever : ¬(halfword value 2 = 0xFFFF#16 ∧ halfword value 1 ≠ 0xFFFF#16 ∧
        halfword value 0 = 0xFFFF#16) := fun h => hlate ⟨h.1, h.2.1⟩
    rw [if_neg hlate, or_iff_left hnever]
    omega

private theorem constantMoves_of_zeros (hmask : (BitmaskImm.encode64 value).isSome = false)
    (h3 : halfword value 3 ≠ 0xFFFF#16) :
    leastMoves value ≤ (constantMoves value).length ∧
      ((constantMoves value).length = leastMoves value ↔ ¬Detours value) := by
  have hdetours : Detours value ↔ unlike value 0xFFFF#16 < unlike value 0#16 := by
    rw [Detours, hmask, if_neg (by decide), if_neg h3]
  have hones : 0 < unlike value 0xFFFF#16 := unlike_pos (by decide) h3
  rw [length_constantMoves_of_ne h3, hdetours, leastMoves]
  omega

/-- The instructions of a constant are as few as can be unless it takes a detour. -/
theorem length_constantInsns_iff (rd : Register) (value : BitVec 64) :
    shortestLength value ≤ (constantInsns rd value).length ∧
      ((constantInsns rd value).length = shortestLength value ↔ ¬Detours value) := by
  rw [constantInsns, shortestLength]
  cases hmask : (BitmaskImm.encode64 value).isSome with
  | true =>
    rw [if_pos rfl]
    cases himmediate : (Operand.ofImmediate? value.toInt).isSome with
    | true =>
      have hmoves : ¬isMask value = true := by
        rw [isMask_eq_true_iff, himmediate]
        simp
      rw [if_neg hmoves, List.length_map]
      exact constantMoves_of_mask hmask himmediate
    | false =>
      rw [if_pos (isMask_eq_true_iff.mpr ⟨himmediate, hmask⟩), Detours, if_pos hmask, himmediate]
      simp
  | false =>
    have hmoves : ¬isMask value = true := by
      rw [isMask_eq_true_iff, hmask]
      simp
    rw [if_neg (by decide), if_neg hmoves, List.length_map]
    by_cases h3 : halfword value 3 = 0xFFFF#16
    · exact constantMoves_of_ones hmask h3
    · exact constantMoves_of_zeros hmask h3

end

/-- A constant is loaded unless memory runs out, and takes the least number of words exactly if it
is none that takes a detour. The least number is one for a mask. For other constants it is that of
the shortest sequence of moves which starts with `movz` or `movn`, goes on with `movk` and leaves
the constant. -/
theorem constant_shortest_iff (r : Fin 31) (value : BitVec 64) (b : CodeBuffer) :
    Ends (Operation.loadConstant (.x r) value).run b
      (fun _ c => ∃ words : List Word, LeavesInRegister r value words b c ∧
        shortestLength value ≤ words.length ∧
        (words.length = shortestLength value ↔ ¬Detours value))
      (fun e _ => e.isMemory = true) ∧
    ((BitmaskImm.encode64 value).isSome = true → shortestLength value = 1) ∧
    ((BitmaskImm.encode64 value).isSome = false →
      shortestLength value = leastMoves value ∧
      (∃ moves, Makes moves value ∧ moves.length = shortestLength value) ∧
      ∀ moves, Makes moves value → shortestLength value ≤ moves.length) := by
  refine ⟨?_, fun hmask => if_pos hmask, fun hmask => ?_⟩
  · apply (loadConstant_appends r value b).mono
    · rintro _ c ⟨words, hlength, hleaves⟩
      have hcount := length_constantInsns_iff (.x r) value
      rw [← hlength] at hcount
      exact ⟨words, hleaves, hcount⟩
    · exact fun _ _ h => h
  · have hshortest : shortestLength value = leastMoves value := by
      rw [shortestLength, hmask, if_neg (by decide)]
    rw [hshortest]
    exact ⟨rfl, exists_makes_leastMoves value, fun _ h => h.leastMoves_le⟩

end A64

open Session A64

private def roomyRun : List Event :=
  [.add 4096 .a64 { Options.standard with initialCapacity := 64 }]

/-- A mask of bytes is loaded by one word, the least number. Ones with another upper halfword are no
mask but one move away, and more words than that are emitted. -/
theorem bytes_and_ones_shortest :
    (BitmaskImm.encode64 0xFF00FF00FF00FF00#64).isSome = true ∧
      (∃ b c words,
        (Operation.loadConstant (.x (Fin.last 30)) 0xFF00FF00FF00FF00#64).run b = .ok () c ∧
        LeavesInRegister (Fin.last 30) 0xFF00FF00FF00FF00#64 words b c ∧ words.length = 1) ∧
      (BitmaskImm.encode64 0x1234FFFFFFFFFFFF#64).isSome = false ∧
      (∃ b c words,
        (Operation.loadConstant (.x (Fin.last 30)) 0x1234FFFFFFFFFFFF#64).run b = .ok () c ∧
        LeavesInRegister (Fin.last 30) 0x1234FFFFFFFFFFFF#64 words b c ∧ 1 < words.length) ∧
      ∃ moves, Makes moves 0x1234FFFFFFFFFFFF#64 ∧ moves.length = 1 := by
  have hmask : (BitmaskImm.encode64 0xFF00FF00FF00FF00#64).isSome = true := by decide +kernel
  have hmoves : (BitmaskImm.encode64 0x1234FFFFFFFFFFFF#64).isSome = false := by decide +kernel
  obtain ⟨b, c, hrun⟩ :
      ∃ b c, (Operation.loadConstant (.x (Fin.last 30)) 0xFF00FF00FF00FF00#64).run b = .ok () c :=
    Operation.exists_run (by decide +kernel)
  obtain ⟨b', c', hrun'⟩ :
      ∃ b c, (Operation.loadConstant (.x (Fin.last 30)) 0x1234FFFFFFFFFFFF#64).run b = .ok () c :=
    Operation.exists_run (by decide +kernel)
  obtain ⟨hbytes, hone, -⟩ := constant_shortest_iff (Fin.last 30) 0xFF00FF00FF00FF00#64 b
  obtain ⟨hones, -, hleast⟩ := constant_shortest_iff (Fin.last 30) 0x1234FFFFFFFFFFFF#64 b'
  obtain ⟨hshortest, hmade, -⟩ := hleast hmoves
  have hone' : shortestLength 0x1234FFFFFFFFFFFF#64 = 1 := hshortest.trans (by decide)
  rw [hone'] at hmade
  rw [Ends, hrun] at hbytes
  rw [Ends, hrun'] at hones
  obtain ⟨words, hleaves, -, hiff⟩ := hbytes
  obtain ⟨words', hleaves', hle', hiff'⟩ := hones
  rw [hone hmask] at hiff
  rw [hone'] at hle' hiff'
  have hdetour : words'.length ≠ 1 := fun h => hiff'.mp h (by decide +kernel)
  exact ⟨hmask, ⟨b, c, words, hrun, hleaves, hiff.mpr (by decide +kernel)⟩, hmoves,
    ⟨b', c', words', hrun', hleaves', by omega⟩, hmade⟩

private def loadedCode (value : BitVec 64) : Option (Array Byte) :=
  (((empty.run roomyRun).step 0 (.a64 (.loadConstant .lr value))).1.assembler? 0).map
    (·.buffer.bytes)

/-- A mask takes two words, and a constant that is one move away takes four. -/
theorem constants_take_detours :
    (BitmaskImm.encode64 0xFFF000#64).isSome = true ∧
      (loadedCode 0xFFF000#64).map Array.size = some 8 ∧
      (BitmaskImm.encode64 0x1234FFFFFFFFFFFF#64).isSome = false ∧
      Makes [(.invert, 0xEDCB#16, 3)] 0x1234FFFFFFFFFFFF#64 ∧
      (loadedCode 0x1234FFFFFFFFFFFF#64).map Array.size = some 16 := by
  refine ⟨by decide +kernel, by decide +kernel, by decide +kernel, ⟨?_, by decide, ?_⟩,
    by decide +kernel⟩
  · exact ⟨_, [], rfl, by decide, by simp⟩
  · exact fun _ => rfl

end MachineCode
