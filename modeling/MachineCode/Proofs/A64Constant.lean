import MachineCode.Proofs.A64Core
import MachineCode.Proofs.Atomicity

/-!
# Constants come out right

The instructions that load a constant leave it in the register, whatever the register held before,
and touch nothing else.
-/

namespace MachineCode

namespace A64

/-! ## Halfwords -/

section

variable {value old : BitVec 64} {imm : BitVec 16} {j p : Nat}

private theorem eq_of_halfword_eq {value' : BitVec 64}
    (h : ∀ j < 4, halfword value j = halfword value' j) : value = value' := by
  apply BitVec.eq_of_getLsbD_eq
  intro i hi
  have hbit := congrArg (BitVec.getLsbD · (i % 16)) (h (i / 16) (by omega))
  simp only [halfword, BitVec.getLsbD_extractLsb', Nat.div_add_mod] at hbit
  simpa [Nat.mod_lt] using hbit

private theorem halfword_placed (hj : j < 4) (hp : p < 4) :
    halfword (imm.setWidth 64 <<< (16 * p)) j = if j = p then imm else 0#16 := by
  apply BitVec.eq_of_getLsbD_eq
  intro i hi
  rw [halfword, BitVec.getLsbD_extractLsb', BitVec.getLsbD_shiftLeft, BitVec.getLsbD_setWidth]
  split
  · next h =>
    subst h
    simp [hi, show 16 * j + i < 64 by omega, show i < 64 by omega]
  · next h =>
    rw [BitVec.getLsbD_zero]
    by_cases hlt : 16 * j + i < 16 * p
    · simp [hlt]
    · rw [BitVec.getLsbD_of_ge imm _ (by omega)]
      simp

private theorem halfword_not (hj : j < 4) : halfword (~~~value) j = ~~~halfword value j := by
  apply BitVec.eq_of_getLsbD_eq
  intro i hi
  simp only [halfword, BitVec.getLsbD_extractLsb', BitVec.getLsbD_not]
  simp [hi, show 16 * j + i < 64 by omega]

theorem halfword_keep (hj : j < 4) (hp : p < 4) :
    halfword (MoveWide.keep.result old imm p) j = if j = p then imm else halfword old j := by
  have hmask : halfword ((0xFFFF#16).setWidth 64 <<< (16 * p)) j =
      if j = p then 0xFFFF#16 else 0#16 := halfword_placed hj hp
  rw [show (0xFFFF#16).setWidth 64 = 0xFFFF#64 by decide] at hmask
  have hparts : halfword (MoveWide.keep.result old imm p) j =
      (halfword old j &&& halfword (~~~(0xFFFF#64 <<< (16 * p))) j) |||
        halfword (imm.setWidth 64 <<< (16 * p)) j := by
    simp only [MoveWide.result, halfword, BitVec.extractLsb'_or, BitVec.extractLsb'_and]
  rw [hparts, halfword_not hj, hmask, halfword_placed hj hp]
  split
  · rw [show ~~~0xFFFF#16 = 0#16 from rfl, BitVec.and_zero, BitVec.zero_or]
  · rw [BitVec.not_zero, BitVec.and_allOnes, BitVec.or_zero]

end

/-- What a wide move that starts a constant leaves in the other halfwords. -/
def MoveWide.blank? : MoveWide → Option (BitVec 16)
  | .zero => some 0#16
  | .invert => some 0xFFFF#16
  | .keep => none

theorem halfword_start {move : MoveWide} {blank : BitVec 16} (hblank : move.blank? = some blank)
    (old : BitVec 64) {imm : BitVec 16} {j p : Nat} (hj : j < 4) (hp : p < 4) :
    halfword (move.result old imm p) j = if j = p then imm ^^^ blank else blank := by
  cases move with
  | zero =>
    cases hblank
    rw [BitVec.xor_zero]
    exact halfword_placed hj hp
  | invert =>
    cases hblank
    rw [MoveWide.result, halfword_not hj, halfword_placed hj hp]
    split
    · exact BitVec.xor_allOnes.symm
    · rfl
  | keep => cases hblank

/-! ## The moves of a constant -/

/-- The register after a list of wide moves. -/
def afterMoves (moves : List (MoveWide × BitVec 16 × Nat)) (old : BitVec 64) : BitVec 64 :=
  moves.foldl (fun register (move, imm, position) => move.result register imm position) old

/-- The moves that put halfwords of a value in their places. -/
def keepMoves (value : BitVec 64) (positions : List Nat) : List (MoveWide × BitVec 16 × Nat) :=
  positions.map fun i => (.keep, halfword value i, i)

private theorem halfword_afterMoves_keepMoves {value : BitVec 64} {positions : List Nat}
    (hpositions : ∀ i ∈ positions, i < 4) (old : BitVec 64) {j : Nat} (hj : j < 4) :
    halfword (afterMoves (keepMoves value positions) old) j =
      if j ∈ positions then halfword value j else halfword old j := by
  induction positions generalizing old with
  | nil => rfl
  | cons p rest ih =>
    have hp : p < 4 := hpositions p (.head _)
    have hrest := ih (fun i hi => hpositions i (.tail _ hi))
      (MoveWide.keep.result old (halfword value p) p)
    rw [halfword_keep hj hp] at hrest
    rw [show afterMoves (keepMoves value (p :: rest)) old =
      afterMoves (keepMoves value rest) (MoveWide.keep.result old (halfword value p) p) from rfl,
      hrest]
    by_cases hjp : j = p
    · simp [hjp]
    · simp [hjp]

theorem mem_filter_or_eq {value : BitVec 64} {positions : List Nat} (blank : BitVec 16) {j : Nat}
    (hj : j ∈ positions) :
    j ∈ positions.filter (fun i => halfword value i ≠ blank) ∨ halfword value j = blank := by
  by_cases h : halfword value j = blank
  · exact .inr h
  · exact .inl (List.mem_filter.mpr ⟨hj, decide_eq_true h⟩)

/-- A constant starts with a move that blanks all halfwords but its own; the other moves cover what
is not blank. -/
private theorem constantMoves_eq (value : BitVec 64) :
    ∃ move blank p rest, MoveWide.blank? move = some blank ∧ p < 4 ∧ (∀ i ∈ rest, i < 4) ∧
      rest.length ≤ 3 ∧ (∀ j < 4, j = p ∨ j ∈ rest ∨ halfword value j = blank) ∧
      constantMoves value = (move, halfword value p ^^^ blank, p) :: keepMoves value rest := by
  have hflip : ∀ i, ~~~halfword value i = halfword value i ^^^ 0xFFFF#16 :=
    fun i => BitVec.xor_allOnes.symm
  have hplace : ∀ j < 4, j = 0 ∨ j = 1 ∨ j = 2 ∨ j = 3 := by omega
  simp only [constantMoves, hflip]
  split
  · next h3 =>
    split
    · next h2 =>
      split
      · next h1 =>
        refine ⟨.invert, _, 0, [], rfl, by decide, by simp, by simp, fun j hj => ?_, rfl⟩
        obtain rfl | rfl | rfl | rfl := hplace j hj <;> simp [h1, h2, h3]
      · refine ⟨.invert, _, 1, [0], rfl, by decide, by simp, by simp, fun j hj => ?_, rfl⟩
        obtain rfl | rfl | rfl | rfl := hplace j hj <;> simp [h2, h3]
    · refine ⟨.invert, _, 2, _, rfl, by decide, ?_, ?_, fun j hj => ?_, rfl⟩
      · intro i hi
        have hall : ∀ i ∈ [1, 0], i < 4 := by decide
        exact hall i (List.mem_filter.mp hi).1
      · exact Nat.le_trans (List.length_filter_le _ _) (by decide)
      · obtain rfl | rfl | rfl | rfl := hplace j hj
        · exact .inr (mem_filter_or_eq _ (by decide))
        · exact .inr (mem_filter_or_eq _ (by decide))
        · exact .inl rfl
        · exact .inr (.inr h3)
  · have hcover : ∀ j < 4, j ∈ [0, 1, 2, 3].filter (fun i => halfword value i ≠ 0#16) ∨
        halfword value j = 0#16 := by
      intro j hj
      apply mem_filter_or_eq
      obtain rfl | rfl | rfl | rfl := hplace j hj <;> decide
    split
    · next hfilter =>
      have hzero : ∀ j < 4, halfword value j = 0#16 := by
        intro j hj
        have := hcover j hj
        rw [hfilter] at this
        exact this.resolve_left List.not_mem_nil
      refine ⟨.zero, _, 0, [], rfl, by decide, by simp, by simp, fun j hj => ?_, ?_⟩
      · exact .inr (.inr (hzero j hj))
      · rw [hzero 0 (by decide)]
        rfl
    · next first rest hfilter =>
      have hbound : ∀ i ∈ first :: rest, i < 4 := by
        intro i hi
        rw [← hfilter] at hi
        have hall : ∀ i ∈ [0, 1, 2, 3], i < 4 := by decide
        exact hall i (List.mem_filter.mp hi).1
      have hlength : (first :: rest).length ≤ 4 := by
        rw [← hfilter]
        exact List.length_filter_le _ _
      refine ⟨.zero, _, first, rest, rfl, hbound first (.head _),
        fun i hi => hbound i (.tail _ hi), Nat.le_of_succ_le_succ hlength, fun j hj => ?_, ?_⟩
      · have := hcover j hj
        rw [hfilter, List.mem_cons, or_assoc] at this
        exact this
      · rw [BitVec.xor_zero]
        rfl

/-- A start that blanks all halfwords but its own, and moves that cover what is not blank, leave the
value. -/
theorem afterMoves_start_keepMoves {move : MoveWide} {blank : BitVec 16}
    (hblank : move.blank? = some blank) {value : BitVec 64} {p : Nat} {rest : List Nat} (hp : p < 4)
    (hrest : ∀ i ∈ rest, i < 4) (hcover : ∀ j < 4, j = p ∨ j ∈ rest ∨ halfword value j = blank)
    (old : BitVec 64) :
    afterMoves ((move, halfword value p ^^^ blank, p) :: keepMoves value rest) old = value := by
  -- A halfword is set by a later move, or by the first one, or is blank in the value too.
  apply eq_of_halfword_eq
  intro j hj
  rw [show afterMoves ((move, halfword value p ^^^ blank, p) :: keepMoves value rest) old =
    afterMoves (keepMoves value rest) (move.result old (halfword value p ^^^ blank) p) from rfl,
    halfword_afterMoves_keepMoves hrest _ hj, halfword_start hblank old hj hp]
  by_cases hkept : j ∈ rest
  · rw [if_pos hkept]
  · rw [if_neg hkept]
    split
    · next h => rw [h, BitVec.xor_assoc, BitVec.xor_self, BitVec.xor_zero]
    · next h => exact (((hcover j hj).resolve_left h).resolve_left hkept).symm

private theorem afterMoves_constantMoves (value old : BitVec 64) :
    afterMoves (constantMoves value) old = value := by
  obtain ⟨move, blank, p, rest, hblank, hp, hrest, -, hcover, hmoves⟩ := constantMoves_eq value
  rw [hmoves]
  exact afterMoves_start_keepMoves hblank hp hrest hcover old

private theorem length_constantMoves (value : BitVec 64) :
    1 ≤ (constantMoves value).length ∧ (constantMoves value).length ≤ 4 := by
  obtain ⟨_, _, _, rest, _, _, _, hlength, _, hmoves⟩ := constantMoves_eq value
  rw [hmoves, List.length_cons, keepMoves, List.length_map]
  omega

/-! ## The instructions of a constant -/

def constantInsns (rd : Register) (value : BitVec 64) : List DataInsn :=
  if isMask value then [.logicalImmediate .orr .x rd .zr value]
  else (constantMoves value).map fun (move, imm, position) => .moveWide move .x rd imm position

private theorem length_constantInsns (rd : Register) (value : BitVec 64) :
    1 ≤ (constantInsns rd value).length ∧ (constantInsns rd value).length ≤ 4 := by
  rw [constantInsns]
  split
  · exact ⟨Nat.le_refl 1, Nat.le_add_left 1 3⟩
  · rw [List.length_map]
    exact length_constantMoves value

theorem executeAll?_moves (r : Fin 31) (moves : List (MoveWide × BitVec 16 × Nat)) (m : Core) :
    Core.executeAll?
        (moves.map fun (move, imm, position) => .moveWide move .x (.x r) imm position) m =
      some ((m.write (.x r) (afterMoves moves (m.read (.x r)))).goTo
        (m.pc + 4 * moves.length)) := by
  induction moves generalizing m with
  | nil => simp [Core.executeAll?, afterMoves]
  | cons first rest ih =>
    obtain ⟨move, imm, position⟩ := first
    have hpc : m.pc + 4 + 4 * (rest.length : Int) = m.pc + 4 * ((rest.length + 1 : Nat) : Int) := by
      omega
    simp only [List.map_cons, Core.executeAll?, Core.execute?, Option.bind_eq_bind,
      Option.bind_some, ih, Width.keep_x, Core.read_goTo, Core.read_write_x, Core.goTo_write,
      Core.write_write, Core.goTo_goTo, Core.pc_goTo, List.length_cons, hpc]
    rfl

theorem executeAll?_constantInsns (r : Fin 31) (value : BitVec 64) (m : Core) :
    Core.executeAll? (constantInsns (.x r) value) m =
      some ((m.write (.x r) value).goTo (m.pc + 4 * (constantInsns (.x r) value).length)) := by
  rw [constantInsns]
  split
  · simp [Core.executeAll?, Core.execute?, LogicalOp.result, Core.read]
  · rw [executeAll?_moves, afterMoves_constantMoves, List.length_map]

theorem Encodes.reads {α β : Type} {encode : α → Encoder} {decode : Word → Option β} {insn : α → β}
    {items : List α} (hreads : ∀ item ∈ items, ∀ offset w, encode item offset = .ok w →
      decode w = some (insn item)) {offset : Nat} {words : List Word}
    (h : Encodes (items.map encode) offset words) :
    words.map decode = (items.map insn).map some := by
  induction items generalizing offset words with
  | nil =>
    cases words with
    | nil => rfl
    | cons w words => cases h
  | cons item items ih =>
    cases words with
    | nil => cases h
    | cons w words =>
      rw [List.map_cons, List.map_cons, List.map_cons, hreads item (.head _) offset w h.1,
        ih (fun item hitem => hreads item (.tail _ hitem)) h.2]

private theorem loadConstant_reads {rd : Register} {value : BitVec 64} {offset : Nat}
    {words : List Word} (h : Encodes (loadConstant rd value) offset words) :
    words.map decodeData = (constantInsns rd value).map some := by
  rw [loadConstant] at h
  rw [constantInsns]
  split at h
  · obtain ⟨w, -, hw⟩ := h.exists_word
    cases hw
  split at h
  · next hmask =>
    rw [if_pos hmask]
    obtain ⟨w, rfl, hw⟩ := h.exists_word
    rw [List.map_singleton, decode_logicalImmediate hw]
    rfl
  · next hmask =>
    rw [if_neg hmask]
    exact h.reads fun _ _ _ _ hw => decode_moveWide hw

private theorem loadConstant_total (r : Fin 31) (value : BitVec 64) :
    ∀ encoder ∈ loadConstant (.x r) value, encoder.Total := by
  have hslot : (Register.x r).slot .zero ≠ none := Option.some_ne_none _
  intro encoder hencoder
  rw [loadConstant, if_neg hslot] at hencoder
  split at hencoder
  · next hmask =>
    obtain rfl := List.mem_singleton.mp hencoder
    obtain ⟨imm, himm⟩ := Option.isSome_iff_exists.mp (Bool.and_eq_true_iff.mp hmask).2
    intro offset
    simp only [logicalImmediate, Width.bitmask?, himm, registerField, Register.slot]
    exact ⟨_, rfl⟩
  · obtain ⟨move, hmove, rfl⟩ := List.mem_map.mp hencoder
    exact moveWide_total _ _ hslot (position_lt_of_mem_constantMoves hmove)

/-- The words at the end of the code leave a value in a register when they are executed. -/
def LeavesInRegister (r : Fin 31) (value : BitVec 64) (words : List Word) (b c : CodeBuffer) :
    Prop :=
  c.bytes = b.bytes ++ (words.flatMap (littleEndian 4)).toArray ∧
    ∀ m : Core, m.pc = b.size →
      m.steps c.bytes words.length = some ((m.write (.x r) value).goTo c.size)

/-- A constant is loaded by the words of its instructions, unless memory runs out. -/
theorem loadConstant_appends (r : Fin 31) (value : BitVec 64) (b : CodeBuffer) :
    Ends (Operation.loadConstant (.x r) value).run b
      (fun _ c => ∃ words : List Word, words.length = (constantInsns (.x r) value).length ∧
        LeavesInRegister r value words b c)
      (fun e _ => e.isMemory = true) := by
  apply (emitAll_ends (loadConstant (.x r) value) b).mono
  · rintro _ c ⟨words, hwords, happ⟩
    have hreads := loadConstant_reads hwords
    have hlength : words.length = (constantInsns (.x r) value).length := by
      simpa using congrArg List.length hreads
    have hsize : c.size = b.size + 4 * words.length := by
      rw [happ.size, List.size_toArray, length_flatMap_littleEndian]
    refine ⟨words, hlength, happ.bytes, fun m hpc => ?_⟩
    rw [Core.steps_eq_executeAll? hreads happ.holds hpc, executeAll?_constantInsns, hpc, ← hlength,
      hsize]
    rfl
  · rintro e c (hmemory | ⟨encoder, hencoder, offset, cause, hcause⟩)
    · exact hmemory
    · obtain ⟨w, hw⟩ := loadConstant_total r value encoder hencoder offset
      rw [hw] at hcause
      cases hcause

private theorem loadConstant_ends (r : Fin 31) (value : BitVec 64) (b : CodeBuffer) :
    Ends (Operation.loadConstant (.x r) value).run b
      (fun _ c => ∃ words : List Word, (1 ≤ words.length ∧ words.length ≤ 4) ∧
        LeavesInRegister r value words b c)
      (fun e _ => e.isMemory = true) := by
  apply (loadConstant_appends r value b).mono
  · rintro _ c ⟨words, hlength, hleaves⟩
    exact ⟨words, hlength ▸ length_constantInsns (.x r) value, hleaves⟩
  · exact fun _ _ h => h

end A64

namespace Session

open A64

/-- In every state that a session can reach, a numbered register can be loaded with any constant
unless memory runs out. One to four words are appended. Executing them leaves the constant in the
register, whatever it held before, and changes nothing else. -/
theorem constant_left_in_register (events : List Event) {i : Nat} {a : Assembler} {far : Bool}
    (ha : (empty.run events).assembler? i = some a) (htarget : a.target = .a64 far) (r : Fin 31)
    (value : BitVec 64) :
    (∃ failure, answer events i (.a64 (.loadConstant (.x r) value)) = .failed failure ∧
      failure.isMemory = true) ∨
    answer events i (.a64 (.loadConstant (.x r) value)) = .reply .done ∧
    ∃ (b : Assembler) (words : List Word),
      ((empty.run events).step i (.a64 (.loadConstant (.x r) value))).1.assembler? i = some b ∧
      (1 ≤ words.length ∧ words.length ≤ 4) ∧
      b.buffer.bytes = a.buffer.bytes ++ (words.flatMap (littleEndian 4)).toArray ∧
      ∀ m : Core, m.pc = a.buffer.size →
        m.steps b.buffer.bytes words.length =
          some ((m.write (.x r) value).goTo b.buffer.size) := by
  obtain ⟨target, buffer⟩ := a
  obtain rfl : target = .a64 far := htarget
  have hends : Ends ((fun _ => Reply.done) <$> (Operation.loadConstant (.x r) value).run) buffer
      (fun reply c => reply = .done ∧ ∃ words : List Word,
        (1 ≤ words.length ∧ words.length ≤ 4) ∧ LeavesInRegister r value words buffer c)
      (fun e _ => e.isMemory = true) :=
    ends_map.mpr ((loadConstant_ends r value buffer).mono (fun _ _ h => ⟨rfl, h⟩) fun _ _ h => h)
  rw [answer, assembler?_step ha, if_pos rfl, step_eq ha]
  rcases onBuffer_cases hends (.a64 far) (empty.run events).labels with
    ⟨_, c, ⟨rfl, words, hlength, hleaves⟩, hserved⟩ | ⟨failure, c, hmemory, hserved⟩
  · right
    exact ⟨congrArg (·.2.2) hserved, ⟨.a64 far, c⟩, words, congrArg (·.1) hserved, hlength,
      hleaves.1, hleaves.2⟩
  · left
    exact ⟨failure, congrArg (·.2.2) hserved, hmemory⟩

private def padRun : List Event :=
  [.add 4096 .a64 { Options.standard with initialCapacity := 64 }, .request 0 (.a64 .nop)]

/-- A constant with two halfwords of ones between the others, after a `nop`. -/
theorem padRun_leaves_constant :
    ∃ (a b : Assembler) (words : List Word), (empty.run padRun).assembler? 0 = some a ∧
      a.buffer.size = 4 ∧
      ((empty.run padRun).step 0
        (.a64 (.loadConstant (.x (Fin.last 30)) 0xFFFF1234FFFF5678#64))).1.assembler? 0 = some b ∧
      (1 ≤ words.length ∧ words.length ≤ 4) ∧
      ∀ m : Core, m.pc = 4 →
        m.steps b.buffer.bytes words.length =
          some ((m.write .lr 0xFFFF1234FFFF5678#64).goTo b.buffer.size) := by
  obtain ⟨a, ha, hpair⟩ := Option.map_eq_some_iff.mp
    (show ((empty.run padRun).assembler? 0).map (fun a => (a.target, a.buffer.size)) =
      some (.a64 false, 4) by decide +kernel)
  obtain ⟨htarget, hsize⟩ := Prod.mk.inj hpair
  have hreply : (answer padRun 0
      (.a64 (.loadConstant (.x (Fin.last 30)) 0xFFFF1234FFFF5678#64))).isReply = true := by
    decide +kernel
  rcases constant_left_in_register padRun ha htarget (Fin.last 30) 0xFFFF1234FFFF5678#64 with
    ⟨_, hfailed, -⟩ | ⟨-, b, words, hb, hlength, -, hsteps⟩
  · rw [hfailed] at hreply
    cases hreply
  · rw [hsize] at hsteps
    exact ⟨a, b, words, ha, hsize, hb, hlength, hsteps⟩

end Session

end MachineCode
