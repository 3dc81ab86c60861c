import MachineCode.Proofs.A64Loads
import MachineCode.Proofs.PoolLoad

/-!
# The word that a pool load reads

A load from the object pool takes one to three instructions, by the size and the alignment of the
offset. Whichever it takes, it makes one access: eight bytes at the base plus the offset.
-/

namespace MachineCode.A64

/-! ## Loads of 64 bits -/

def wideLoad (dst : Register) (place : Place) : StraightInsn :=
  .transfer (.single true dst 3 none place)

section

variable {dst base index : Register} {offset : Nat} {w : Word}

private theorem decode_loadAt {displacement : Int}
    (h : loadAt dst base displacement offset = .ok w) :
    decodeStraight w = some (wideLoad dst (.offset base displacement)) := by
  obtain ⟨address, hmade, hload⟩ := except_bind_eq_ok.mp h
  have hgives := (Address.MadeFor.offset hmade rfl).gives
  exact decodeStraight_of_transfer (decode_load hgives hload)

private theorem decode_loadIndexed (h : loadIndexed dst base index offset = .ok w) :
    decodeStraight w = some (wideLoad dst (.index base index .uxtx false)) := by
  obtain ⟨address, hmade, hload⟩ := except_bind_eq_ok.mp h
  have hgives := (Address.MadeFor.index hmade .doubleWord).gives
  exact decodeStraight_of_transfer (decode_load hgives hload)

end

private theorem performAll?_wideLoad {space : AddressSpace} {m : Core} {dst : Register}
    {place : Place} {address : BitVec 64} (h : m.address? 3 place = some address) :
    Core.performAll? space [wideLoad dst place] m =
      some ((m.write dst (space.read 64 address 8)).goTo (m.pc + 4), [⟨address, 8⟩]) := by
  have hvalue : loadResult (space.read (8 * (1 <<< 3)) address (1 <<< 3)) none =
      space.read 64 address 8 := BitVec.setWidth_eq _
  simp only [Core.performAll?, wideLoad, Core.perform?, h, Option.bind_eq_bind, Option.bind_some,
    hvalue]
  rfl

/-! ## The forms of a pool load -/

/-- Encoders whose words read as instructions that load the word of the pool at a position: they
make one access and leave the word in the register. -/
structure LoadsWord (r : Fin 31) (pp : Register) (position : BitVec 32)
    (items : List (Encoder × StraightInsn)) : Prop where
  length : 1 ≤ items.length ∧ items.length ≤ 3
  reads : ∀ item ∈ items, ∀ offset w, item.1 offset = .ok w → decodeStraight w = some item.2
  performs : ∀ (space : AddressSpace) (m : Core),
    Core.performAll? space (items.map Prod.snd) m =
      some ((m.write (.x r) (space.read 64 (m.read pp + position.setWidth 64) 8)).goTo
        (m.pc + 4 * items.length), [⟨m.read pp + position.setWidth 64, 8⟩])
  total : pp ≠ .zr → position.toNat % 8 = 0 → ∀ item ∈ items, item.1.Total

section

variable {r : Fin 31} {pp : Register} {position : BitVec 32}

private theorem setWidth_eq_ofInt (position : BitVec 32) :
    position.setWidth 64 = BitVec.ofInt 64 position.toNat := by
  rw [BitVec.ofInt_natCast, BitVec.ofNat_toNat]

private theorem loadsWord_direct
    (h : Address.takesOffset position.toNat .offset .doubleWord = true) :
    LoadsWord r pp position
      [(loadAt (.x r) pp position.toNat, wideLoad (.x r) (.offset pp position.toNat))] where
  length := by simp
  reads := by
    intro item hitem offset w hw
    obtain rfl := List.mem_singleton.mp hitem
    exact decode_loadAt hw
  performs := by
    intro space m
    rw [setWidth_eq_ofInt]
    exact performAll?_wideLoad rfl
  total := by
    intro hpp _ item hitem
    obtain rfl := List.mem_singleton.mp hitem
    exact loadAt_total hpp (by simp) h

private theorem loadsWord_added {imm12 : BitVec 16} {raised : Bool} (hfits : imm12.toNat < 4096)
    (hupper : (position.toNat : Int) - (position.toNat : Int) % 4096 =
      Source.immediateValue imm12.toNat raised) :
    LoadsWord r pp position
      [(addSub .add .x false (.x r) pp (.immediate imm12 raised),
        .data (.addSub .add .x false (.x r) pp (.immediate imm12.toNat raised))),
      (loadAt (.x r) (.x r) ((position.toNat : Int) % 4096),
        wideLoad (.x r) (.offset (.x r) ((position.toNat : Int) % 4096)))] where
  length := by simp
  reads := by
    intro item hitem offset w hw
    simp only [List.mem_cons, List.not_mem_nil, or_false] at hitem
    obtain rfl | rfl := hitem
    · exact decodeStraight_of_data (decode_addSub_immediate hfits hw)
    · exact decode_loadAt hw
  performs := by
    intro space m
    have hfirst : m.perform? space
        (.data (.addSub .add .x false (.x r) pp (.immediate imm12.toNat raised))) =
        some ((m.write (.x r) (m.read pp + BitVec.ofInt 64
          ((position.toNat : Int) - (position.toNat : Int) % 4096))).goTo (m.pc + 4), []) := by
      rw [hupper, Core.perform?, Width.keep_x]
      rfl
    have hsum : m.read pp + BitVec.ofInt 64 ((position.toNat : Int) - (position.toNat : Int) % 4096)
        + BitVec.ofInt 64 ((position.toNat : Int) % 4096) = m.read pp + position.setWidth 64 := by
      rw [BitVec.add_assoc, ← BitVec.ofInt_add, Int.sub_add_cancel, setWidth_eq_ofInt]
    rw [List.map_cons, Core.performAll?_cons hfirst, List.map_singleton,
      performAll?_wideLoad (by rw [Core.address?, Core.read_goTo, Core.read_write_x, hsum])]
    simp only [Core.goTo_write, Core.write_write, Core.goTo_goTo, Core.pc_goTo, List.length_cons,
      List.length_nil]
    congr 3
    omega
  total := by
    intro hpp haligned item hitem
    simp only [List.mem_cons, List.not_mem_nil, or_false] at hitem
    obtain rfl | rfl := hitem
    · exact addSub_total imm12 raised hpp (by simp)
    · have hlower : (position.toNat : Int) % 4096 = (position.toNat % 4096 : Nat) := by omega
      rw [hlower]
      apply loadAt_total (by simp) (by simp)
      rw [takesOffset_iff]
      omega

def offsetMoves (position : BitVec 32) : List (MoveWide × BitVec 16 × Nat) :=
  [(.zero, position.extractLsb' 0 16, 0), (.keep, position.extractLsb' 16 16, 1)]

private theorem afterMoves_offsetMoves (position : BitVec 32) (old : BitVec 64) :
    afterMoves (offsetMoves position) old = position.setWidth 64 := by
  have hlow : position.extractLsb' 0 16 = halfword (position.setWidth 64) 0 ^^^ 0#16 := by
    simp [halfword, BitVec.extractLsb'_setWidth_of_le]
  have hhigh : position.extractLsb' 16 16 = halfword (position.setWidth 64) 1 := by
    simp [halfword, BitVec.extractLsb'_setWidth_of_le]
  have hzero : ∀ j, 2 ≤ j → halfword (position.setWidth 64) j = 0#16 := by
    intro j hj
    apply BitVec.eq_of_getLsbD_eq
    intro i hi
    rw [halfword, BitVec.getLsbD_extractLsb', BitVec.getLsbD_setWidth,
      BitVec.getLsbD_of_ge position _ (by omega)]
    simp
  rw [offsetMoves, hlow, hhigh]
  refine @afterMoves_start_keepMoves .zero 0#16 rfl (position.setWidth 64) 0 [1] (by decide)
    (by simp) (fun j hj => ?_) old
  by_cases hsmall : j < 2
  · rw [List.mem_singleton]
    omega
  · exact .inr (.inr (hzero j (by omega)))

private theorem loadsWord_indexed (hne : pp ≠ .x r) :
    LoadsWord r pp position
      ((offsetMoves position).map (fun (move, imm, i) =>
        (moveWide move (.x r) imm i, .data (.moveWide move .x (.x r) imm i))) ++
      [(loadIndexed (.x r) pp (.x r), wideLoad (.x r) (.index pp (.x r) .uxtx false))]) where
  length := by simp [offsetMoves]
  reads := by
    intro item hitem offset w hw
    rcases List.mem_append.mp hitem with hmove | hload
    · obtain ⟨move, -, rfl⟩ := List.mem_map.mp hmove
      exact decodeStraight_of_data (decode_moveWide hw)
    · obtain rfl := List.mem_singleton.mp hload
      exact decode_loadIndexed hw
  performs := by
    intro space m
    have hmoves := executeAll?_moves r (offsetMoves position) m
    rw [afterMoves_offsetMoves] at hmoves
    have haddress : ((m.write (.x r) (position.setWidth 64)).goTo
        (m.pc + 4 * (offsetMoves position).length)).address? 3 (.index pp (.x r) .uxtx false) =
        some (m.read pp + position.setWidth 64) := by
      simp [Core.address?, Core.read_write_of_ne _ _ _ hne, Extend.result, Extend.isSigned,
        Extend.bits]
    rw [List.map_append, List.map_singleton]
    refine (Core.performAll?_data_append hmoves _).trans ?_
    rw [performAll?_wideLoad haddress]
    simp only [Core.goTo_write, Core.write_write, Core.goTo_goTo, Core.pc_goTo, List.length_append,
      List.length_map, List.length_singleton]
    congr 3
    omega
  total := by
    intro hpp _ item hitem
    rcases List.mem_append.mp hitem with hmove | hload
    · obtain ⟨⟨move, imm, i⟩, hmem, rfl⟩ := List.mem_map.mp hmove
      have hi : i < 4 := by
        simp only [offsetMoves, List.mem_cons, List.not_mem_nil, or_false, Prod.mk.injEq] at hmem
        omega
      exact moveWide_total _ _ (Register.slot_zero_ne_none (by simp)) hi
    · obtain rfl := List.mem_singleton.mp hload
      exact loadIndexed_total hpp (by simp)

private theorem exists_loadsWord (hne : pp ≠ .x r) (position : BitVec 32) :
    ∃ items, loadFromPool (.x r) pp position = items.map Prod.fst ∧
      LoadsWord r pp position items := by
  simp only [loadFromPool, if_neg hne.symm]
  by_cases htakes : Address.takesOffset position.toNat .offset .doubleWord = true
  · rw [if_pos htakes]
    exact ⟨_, rfl, loadsWord_direct htakes⟩
  rw [if_neg htakes]
  cases hupper : Operand.ofImmediate?
      ((position.toNat : Int) - (position.toNat : Int) % 4096) with
  | some upper =>
    obtain ⟨imm12, raised, rfl, hfits, hvalue⟩ := Operand.ofImmediate?_eq_some hupper
    exact ⟨_, rfl, loadsWord_added hfits hvalue⟩
  | none =>
    have hhigh : position.extractLsb' 16 16 ≠ 0#16 := by
      intro hzero
      have hsmall := congrArg BitVec.toNat hzero
      rw [BitVec.extractLsb'_toNat, Nat.shiftRight_eq_div_pow, BitVec.toNat_zero] at hsmall
      obtain ⟨imm12, raised, himmediate⟩ :=
        ofImmediate?_upper (show position.toNat < 0x1000000 by omega)
      rw [himmediate] at hupper
      cases hupper
    simp only [if_pos hhigh]
    exact ⟨_, rfl, loadsWord_indexed hne⟩

end

/-- Words that load from the object pool: executing them from the end of the old code to the end of
the new one makes one access, of eight bytes at the base plus the offset. What it read is left in
the register, and nothing else changes. -/
def ReadsPoolWord (r : Fin 31) (pp : Register) (position : BitVec 32) (words : List Word)
    (b c : CodeBuffer) : Prop :=
  c.bytes = b.bytes ++ (words.flatMap (littleEndian 4)).toArray ∧
    ∀ (space : AddressSpace) (m : Core), m.pc = b.size →
      let address := m.read pp + position.setWidth 64
      m.runIn space c.bytes words.length =
        some ((m.write (.x r) (space.read 64 address 8)).goTo c.size, [⟨address, 8⟩])

/-- A load from the object pool to a numbered register that is not the base appends one to three
words which read the word of the pool, if it succeeds. It does unless memory runs out, for a base
other than the zero register and every offset that is a multiple of eight. -/
theorem pool_load_reads_word {r : Fin 31} {pp : Register} (hpp : pp ≠ .x r)
    (position : BitVec 32) (b : CodeBuffer) :
    Ends (Operation.loadFromPool (.x r) pp position).run b
      (fun _ c => ∃ words : List Word, (1 ≤ words.length ∧ words.length ≤ 3) ∧
        ReadsPoolWord r pp position words b c)
      (fun e _ => pp ≠ .zr → position.toNat % 8 = 0 → e.isMemory = true) := by
  obtain ⟨items, hitems, hloads⟩ := exists_loadsWord hpp position
  rw [show (Operation.loadFromPool (.x r) pp position).run = emitAll (items.map Prod.fst) from
    congrArg emitAll hitems]
  apply (emitAll_ends (items.map Prod.fst) b).mono
  · rintro _ c ⟨words, hwords, happ⟩
    have hreads := hwords.reads hloads.reads
    have hlength : words.length = items.length := by
      simpa using congrArg List.length hreads
    have hsize : c.size = b.size + 4 * items.length := by
      rw [happ.size, List.size_toArray, length_flatMap_littleEndian, hlength]
    refine ⟨words, hlength ▸ hloads.length, happ.bytes, fun space m hpc => ?_⟩
    rw [Core.runIn_eq_performAll? hreads happ.holds hpc, hloads.performs, hpc, hsize]
    rfl
  · rintro e c (hmemory | ⟨encoder, hencoder, offset, cause, hcause⟩) hzr haligned
    · exact hmemory
    · obtain ⟨item, hitem, rfl⟩ := List.mem_map.mp hencoder
      obtain ⟨w, hw⟩ := hloads.total hzr haligned item hitem offset
      rw [hw] at hcause
      cases hcause

/-- An offset beyond the reach of an addition, from a pool on the stack. -/
theorem distant_pool_word_read :
    ∃ (b c : CodeBuffer) (words : List Word),
      (Operation.loadFromPool .lr .sp 0x12345678#32).run b = .ok () c ∧
      (1 ≤ words.length ∧ words.length ≤ 3) ∧
      ReadsPoolWord (Fin.last 30) .sp 0x12345678#32 words b c := by
  obtain ⟨b, c, hrun⟩ : ∃ b c, (Operation.loadFromPool .lr .sp 0x12345678#32).run b = .ok () c :=
    Operation.exists_run (by decide +kernel)
  have hends := @pool_load_reads_word (Fin.last 30) .sp (by decide) 0x12345678#32 b
  rw [Ends, show (Operation.loadFromPool (.x (Fin.last 30)) .sp 0x12345678#32).run b = .ok () c
    from hrun] at hends
  obtain ⟨words, hlength, hwords⟩ := hends
  exact ⟨b, c, words, hrun, hlength, hwords⟩

end MachineCode.A64
