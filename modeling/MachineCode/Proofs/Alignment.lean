import MachineCode.Proofs.A64Reach
import MachineCode.Proofs.X86Program

/-!
# Alignment by padding

Padding is a loop of single `nop`s: as long as the end of the code is not aligned, append one more.
The loop stops, since each pass brings the end closer to the next multiple of the alignment and none
goes past it. On A64 that needs code in whole words, which all code of an assembler is.
-/

namespace MachineCode

open CodeBuffer

/-! ## The distance to the next multiple -/

section

variable {alignment : Nat} (h : 0 < alignment) (position : Nat)

include h

private theorem padding_lt : padding alignment position < alignment :=
  Nat.mod_lt _ h

private theorem padding_eq_zero_iff :
    padding alignment position = 0 ↔ position % alignment = 0 := by
  have hlt := Nat.mod_lt position h
  rw [padding]
  by_cases hzero : position % alignment = 0
  · simp [hzero]
  · rw [Nat.mod_eq_of_lt (by omega)]
    omega

private theorem padding_add {count : Nat} (hle : count ≤ padding alignment position) :
    padding alignment (position + count) = padding alignment position - count := by
  have hlt := Nat.mod_lt position h
  by_cases hzero : position % alignment = 0
  · have hnone := (padding_eq_zero_iff h position).mpr hzero
    obtain rfl : count = 0 := by omega
    simp
  · have hrest : padding alignment position = alignment - position % alignment := by
      rw [padding, Nat.mod_eq_of_lt (by omega)]
    rw [hrest] at hle ⊢
    rw [padding, Nat.add_mod, Nat.add_mod_mod]
    by_cases hmore : position % alignment + count < alignment
    · rw [Nat.mod_eq_of_lt hmore, Nat.mod_eq_of_lt (by omega)]
      omega
    · have hend : position % alignment + count = alignment := by omega
      rw [hend, Nat.mod_self, Nat.sub_zero, Nat.mod_self]
      omega

private theorem add_padding_le {multiple : Nat} (hmultiple : multiple % alignment = 0)
    (hle : position ≤ multiple) : position + padding alignment position ≤ multiple := by
  apply Nat.le_of_not_lt
  intro hbefore
  have hcount : multiple - position ≤ padding alignment position := by omega
  have hstep := padding_add h position hcount
  rw [Nat.add_sub_of_le hle, (padding_eq_zero_iff h multiple).mpr hmultiple] at hstep
  omega

end

private theorem padding_mod_four {alignment position : Nat} (halignment : alignment % 4 = 0)
    (hposition : position % 4 = 0) : padding alignment position % 4 = 0 := by
  have hdvd : 4 ∣ alignment := Nat.dvd_of_mod_eq_zero halignment
  rw [padding, Nat.mod_mod_of_dvd _ hdvd]
  have hrest := Nat.mod_mod_of_dvd position hdvd
  omega

private theorem mod_four_of_isPowerOfTwo {n : Nat} (h : n.isPowerOfTwo) (hfour : 4 ≤ n) :
    n % 4 = 0 := by
  obtain ⟨k, rfl⟩ := h
  cases k with
  | zero => omega
  | succ k =>
    cases k with
    | zero => omega
    | succ k => omega

/-! ## Passes of the loop -/

def Unaligned (alignment offset : Nat) (b : CodeBuffer) : Prop :=
  (b.size + offset) % alignment ≠ 0

/-- Instructions that do nothing were appended, each of a kind that `nop` has, and the next multiple
is where it was. -/
structure Advances {ι : Type} (nop : ι → List Byte) (alignment offset : Nat) (b c : CodeBuffer) :
    Prop where
  nops : ∃ kinds : List ι, c.bytes = b.bytes ++ (kinds.flatMap nop).toArray
  next : c.size + offset + padding alignment (c.size + offset) =
    b.size + offset + padding alignment (b.size + offset)

namespace Advances

variable {ι : Type} {nop : ι → List Byte} {alignment offset : Nat} {start b c : CodeBuffer}

private theorem refl (b : CodeBuffer) : Advances nop alignment offset b b where
  nops := ⟨[], by simp⟩
  next := rfl

private theorem append (h : 0 < alignment) (hb : Advances nop alignment offset start b) {kind : ι}
    (happ : Appends (nop kind).toArray b c)
    (hle : c.size + offset ≤ b.size + offset + padding alignment (b.size + offset)) :
    Advances nop alignment offset start c := by
  obtain ⟨kinds, hkinds⟩ := hb.nops
  have hsize : c.size = b.size + (nop kind).length := happ.size
  refine ⟨⟨kinds ++ [kind], ?_⟩, ?_⟩
  · rw [happ.bytes, hkinds, List.flatMap_append, List.flatMap_singleton, ← List.append_toArray,
      Array.append_assoc]
  · have hcloser : padding alignment (b.size + offset + (nop kind).length) = _ :=
      padding_add h (b.size + offset) (by omega)
    rw [← hb.next, hsize, Nat.add_right_comm b.size _ offset, hcloser]
    omega

private theorem size_eq (h : 0 < alignment) (hc : Advances nop alignment offset start c)
    (hstop : ¬Unaligned alignment offset c) :
    c.size + offset = start.size + offset + padding alignment (start.size + offset) := by
  have haligned := (padding_eq_zero_iff h _).mpr (Decidable.not_not.mp hstop)
  have hnext := hc.next
  omega

end Advances

/-! ## x86-64 -/

namespace X86

/-- The longest `nop` that does not go past the next multiple. -/
def nopTowards (alignment offset : Nat) : Emit Unit := do
  let rest := padding alignment ((← get).size + offset)
  (Operation.nop (min rest 8)).run

private theorem length_nopBytes (extra : Fin 8) : (nopBytes extra).length = extra + 1 := by
  revert extra
  decide

private theorem run_nop {count : Nat} (hpos : 0 < count) (hle : count ≤ 8) :
    (Operation.nop count).run =
      emitInstruction (Instr.nop (Fin.ofNat 8 (count - 1))).encode := by
  have hcheck : (Operation.nop count).precheck = .ok () := if_pos ⟨hpos, hle⟩
  have hencode : encodeAll [Instr.nop (Fin.ofNat 8 (count - 1))] =
      (Instr.nop (Fin.ofNat 8 (count - 1))).encode := List.flatMap_singleton ..
  rw [← hencode]
  have hrun : (Operation.nop count).run = (do
      checked (Operation.nop count).precheck
      makeRoom
      let instructions ← checked ((Operation.nop count).instructions (← get).size)
      putInstruction (encodeAll instructions)) := rfl
  rw [hrun, hcheck]
  rfl

private theorem nop_ends {count : Nat} (hpos : 0 < count) (hle : count ≤ 8) (b : CodeBuffer) :
    Ends (Operation.nop count).run b
      (fun _ c => (∃ extra, Appends (nopBytes extra).toArray b c) ∧ c.size = b.size + count)
      (fun e _ => e.isMemory = true) := by
  rw [run_nop hpos hle]
  apply (emitInstruction_ends (Nat.le_trans (length_nopBytes_le _) (by decide)) b).mono
  · intro _ c happ
    have hsize : c.size = b.size + (nopBytes (Fin.ofNat 8 (count - 1))).length := happ.size
    rw [length_nopBytes, Fin.val_ofNat] at hsize
    exact ⟨⟨_, happ⟩, by omega⟩
  · exact fun _ _ h => h.2

private theorem pad_of_pos {count : Nat} (hpos : 0 < count) :
    pad count = (do (Operation.nop (min count 8)).run; pad (count - min count 8)) := by
  rw [run_nop (by omega) (by omega)]
  by_cases hlong : 8 ≤ count
  · have hcount : count / 8 = (count - 8) / 8 + 1 := by omega
    have hrest : count % 8 = (count - 8) % 8 := by omega
    rw [Nat.min_eq_right hlong, pad, hcount, hrest, emitLongNops, bind_assoc]
    rfl
  · rw [Nat.min_eq_left (by omega), Nat.sub_self, pad, Nat.div_eq_of_lt (by omega),
      Nat.mod_eq_of_lt (by omega), if_pos hpos]
    exact (bind_pure_unit).symm

theorem pad_loops {alignment : Nat} (h : 0 < alignment) (offset : Nat) (b : CodeBuffer) :
    Loops (Unaligned alignment offset) (nopTowards alignment offset) b
      (pad (padding alignment (b.size + offset)) b) := by
  induction hcount : padding alignment (b.size + offset) using Nat.strongRecOn generalizing b with
  | ind count ih =>
    have hzero := padding_eq_zero_iff h (b.size + offset)
    by_cases hgo : (b.size + offset) % alignment = 0
    · obtain rfl : count = 0 := by omega
      exact .done (not_not_intro hgo)
    · have hpos : 0 < count := by omega
      have hpass : nopTowards alignment offset b = (Operation.nop (min count 8)).run b := by
        rw [← hcount]
        rfl
      rw [pad_of_pos hpos]
      refine .step hgo hpass fun c hc => ih _ (by omega) c ?_
      have hends := nop_ends (show 0 < min count 8 by omega) (by omega) b
      rw [Ends, hc] at hends
      have hnext := padding_add h (b.size + offset) (show min count 8 ≤ _ by omega)
      rw [hends.2, Nat.add_right_comm, hnext, hcount]

private theorem nopTowards_advances {alignment offset : Nat} (h : 0 < alignment)
    {start b : CodeBuffer} (hb : Advances nopBytes alignment offset start b)
    (hgo : Unaligned alignment offset b) :
    Ends (nopTowards alignment offset) b (fun _ c => Advances nopBytes alignment offset start c)
      (fun e _ => e.isMemory = true) := by
  have hpos : padding alignment (b.size + offset) ≠ 0 := mt (padding_eq_zero_iff h _).mp hgo
  apply (nop_ends (show 0 < min (padding alignment (b.size + offset)) 8 by omega)
    (Nat.min_le_right ..) b).mono
  · intro _ c hc
    obtain ⟨⟨extra, happ⟩, hsize⟩ := hc
    exact hb.append h happ (by omega)
  · exact fun _ _ hmemory => hmemory

private theorem pad_ends {alignment : Nat} (h : 0 < alignment) (offset : Nat) (b : CodeBuffer) :
    Ends (pad (padding alignment (b.size + offset))) b
      (fun _ c => Advances nopBytes alignment offset b c ∧ ¬Unaligned alignment offset c)
      (fun e _ => e.isMemory = true) :=
  (pad_loops h offset b).ends (fun _ => nopTowards_advances h) (.refl b)

private theorem align_eq_pad {alignment offset : Nat} {b : CodeBuffer}
    (hpower : alignment.isPowerOfTwo) (hspace : b.size + offset < offsetSpace) :
    align alignment offset b = pad (padding alignment (b.size + offset)) b := by
  have hcheck := (isPowerOfTwo_iff alignment).mp hpower
  change (ite _ _ _ : Emit Unit) b = _
  rw [if_neg hcheck, if_neg (Nat.not_le.mpr hspace)]

private theorem align_refused {alignment : Nat} (hpower : ¬alignment.isPowerOfTwo) (offset : Nat)
    (b : CodeBuffer) :
    align alignment offset b =
      .error (.error (.invalidOperands (.byteAlignment alignment) (some b.size))) b := by
  have hcheck := Decidable.not_not.mp (mt (isPowerOfTwo_iff alignment).mpr hpower)
  change (ite _ _ _ : Emit Unit) b = _
  rw [if_pos hcheck]
  rfl

end X86

/-! ## A64 -/

namespace A64

def nopWord (_ : Unit) : List Byte :=
  littleEndian 4 wordNop

private theorem flatMap_nopWord (kinds : List Unit) :
    kinds.flatMap nopWord = (List.replicate kinds.length wordNop).flatMap (littleEndian 4) := by
  induction kinds with
  | nil => rfl
  | cons _ kinds ih =>
    rw [List.flatMap_cons, ih, List.length_cons, List.replicate_succ, List.flatMap_cons]
    rfl

private theorem run_nop : Operation.nop.run = emitWord wordNop := by
  have hrun : Operation.nop.run = (do emitWord wordNop; pure ()) := rfl
  rw [hrun, bind_pure_unit]

private theorem nop_ends (b : CodeBuffer) :
    Ends Operation.nop.run b
      (fun _ c => Appends (nopWord ()).toArray b c ∧ c.size = b.size + 4)
      (fun e _ => e.isMemory = true) := by
  rw [run_nop]
  apply (emitWord_ends wordNop b).mono
  · intro _ c happ
    exact ⟨happ, by simpa using happ.size⟩
  · exact fun _ _ h => h.2

section

variable {alignment : Nat} (halignment : 0 < alignment) (hunit : alignment % 4 = 0)

include halignment hunit

private theorem emitNops_loops {b : CodeBuffer} (hb : b.size % 4 = 0) :
    Loops (Unaligned alignment 0) Operation.nop.run b
      (emitNops (padding alignment b.size / 4) b) := by
  have hwords := padding_mod_four hunit hb
  induction hcount : padding alignment b.size / 4 generalizing b with
  | zero =>
    have haligned := (padding_eq_zero_iff halignment b.size).mp (by omega)
    exact .done (not_not_intro haligned)
  | succ count ih =>
    have hgo : Unaligned alignment 0 b := mt (padding_eq_zero_iff halignment b.size).mpr (by omega)
    refine .step hgo (by rw [run_nop]) fun c hc => ?_
    have hends := nop_ends b
    rw [run_nop, Ends, hc] at hends
    have hsize := hends.2
    have hnext := padding_add halignment b.size (show 4 ≤ padding alignment b.size by omega)
    rw [← hsize] at hnext
    exact ih (by omega) (by omega) (by omega)

private theorem nop_advances {start b : CodeBuffer}
    (hb : Advances nopWord alignment 0 start b ∧ b.size % 4 = 0) (hgo : Unaligned alignment 0 b) :
    Ends Operation.nop.run b
      (fun _ c => Advances nopWord alignment 0 start c ∧ c.size % 4 = 0)
      (fun e _ => e.isMemory = true) := by
  obtain ⟨hadvances, hsize⟩ := hb
  have hwords := padding_mod_four hunit hsize
  have hpos : padding alignment b.size ≠ 0 := mt (padding_eq_zero_iff halignment _).mp hgo
  apply (nop_ends b).mono
  · intro _ c hc
    obtain ⟨happ, hend⟩ := hc
    refine ⟨hadvances.append halignment happ ?_, by omega⟩
    rw [Nat.add_zero, Nat.add_zero]
    omega
  · exact fun _ _ hmemory => hmemory

private theorem emitNops_ends {b : CodeBuffer} (hb : b.size % 4 = 0) :
    Ends (emitNops (padding alignment b.size / 4)) b
      (fun _ c => Advances nopWord alignment 0 b c ∧ ¬Unaligned alignment 0 c)
      (fun e _ => e.isMemory = true) := by
  have hloops := emitNops_loops halignment hunit hb
  apply (hloops.ends (fun _ => nop_advances halignment hunit) ⟨.refl b, hb⟩).mono
  · exact fun _ _ hc => ⟨hc.1.1, hc.2⟩
  · exact fun _ _ hmemory => hmemory

end

private theorem align_check (alignment : Nat) :
    4 ≤ alignment ∧ alignment.isPowerOfTwo ↔
      ¬(alignment < 4 ∨ 1 <<< alignment.log2 ≠ alignment) := by
  rw [X86.isPowerOfTwo_iff]
  omega

private theorem align_eq_emitNops {alignment : Nat} (hfour : 4 ≤ alignment)
    (hpower : alignment.isPowerOfTwo) (b : CodeBuffer) :
    align alignment b = emitNops (padding alignment b.size / 4) b := by
  change (ite _ _ _ : Emit Unit) b = _
  rw [if_neg ((align_check alignment).mp ⟨hfour, hpower⟩)]

private theorem align_refused {alignment : Nat} (h : ¬(4 ≤ alignment ∧ alignment.isPowerOfTwo))
    (b : CodeBuffer) :
    align alignment b =
      .error (.error (.invalidOperands (.wordAlignment alignment) (some b.size))) b := by
  change (ite _ _ _ : Emit Unit) b = _
  rw [if_pos (Decidable.not_not.mp (mt (align_check alignment).mpr h))]
  rfl

end A64

/-! ## Reachable states -/

private theorem ends_of_eq {work work' : Emit Unit} {b : CodeBuffer} (h : work b = work' b)
    {ok : Unit → CodeBuffer → Prop} {err : Failure → CodeBuffer → Prop}
    (hends : Ends work' b ok err) : Ends work b ok err := by
  rw [Ends, h]
  exact hends

namespace Session

/-- In every state that a session can reach, padding to a power of two is a loop of single `nop`s
that stops, and it fails only for want of memory. On x86-64 it appends fewer bytes than the
alignment, all of whole `nop`s, and leaves the size plus the offset aligned. On A64, where all code
is in whole words, it appends words of `nop` up to the least multiple of the alignment. An alignment
that is no power of two, or less than a word on A64, is refused and nothing is appended. -/
theorem padding_reaches_alignment (events : List Event) {i : Nat} {a : Assembler}
    (ha : (empty.run events).assembler? i = some a) :
    (a.target = .x86 → ∀ alignment offset,
      (alignment.isPowerOfTwo → a.buffer.size + offset < offsetSpace →
        (∀ result, Loops (Unaligned alignment offset) (X86.nopTowards alignment offset)
          a.buffer result ↔ result = (X86.Operation.align alignment offset).run a.buffer) ∧
        Ends (X86.Operation.align alignment offset).run a.buffer
          (fun _ c => (∃ extras : List (Fin 8),
              c.bytes = a.buffer.bytes ++ (extras.flatMap X86.nopBytes).toArray) ∧
            c.size < a.buffer.size + alignment ∧ (c.size + offset) % alignment = 0)
          (fun e _ => e.isMemory = true)) ∧
      (¬alignment.isPowerOfTwo → (X86.Operation.align alignment offset).run a.buffer =
        .error (.error (.invalidOperands (.byteAlignment alignment) (some a.buffer.size)))
          a.buffer)) ∧
    (∀ far, a.target = .a64 far → a.buffer.size % 4 = 0 ∧ ∀ alignment,
      (4 ≤ alignment → alignment.isPowerOfTwo →
        (∀ result, Loops (Unaligned alignment 0) A64.Operation.nop.run a.buffer result ↔
          result = (A64.Operation.align alignment).run a.buffer) ∧
        Ends (A64.Operation.align alignment).run a.buffer
          (fun _ c => (∃ count, c.bytes = a.buffer.bytes ++
              ((List.replicate count A64.wordNop).flatMap (littleEndian 4)).toArray) ∧
            c.size % alignment = 0 ∧ a.buffer.size ≤ c.size ∧
            ∀ multiple, multiple % alignment = 0 → a.buffer.size ≤ multiple → c.size ≤ multiple)
          (fun e _ => e.isMemory = true)) ∧
      (¬(4 ≤ alignment ∧ alignment.isPowerOfTwo) →
        (A64.Operation.align alignment).run a.buffer =
          .error (.error (.invalidOperands (.wordAlignment alignment) (some a.buffer.size)))
            a.buffer)) := by
  constructor
  · intro _ alignment offset
    refine ⟨fun hpower hspace => ?_, fun hpower => X86.align_refused hpower offset a.buffer⟩
    have hpos : 0 < alignment := Nat.pos_of_isPowerOfTwo hpower
    have hrun : (X86.Operation.align alignment offset).run a.buffer = _ :=
      X86.align_eq_pad hpower hspace
    have hloops := X86.pad_loops hpos offset a.buffer
    rw [← hrun] at hloops
    refine ⟨fun result => ⟨fun h => h.unique hloops, fun h => h ▸ hloops⟩, ?_⟩
    apply (ends_of_eq hrun (X86.pad_ends hpos offset a.buffer)).mono
    · intro _ c hc
      obtain ⟨hadvances, hstop⟩ := hc
      have hsize := hadvances.size_eq hpos hstop
      have hlt := padding_lt hpos (a.buffer.size + offset)
      exact ⟨hadvances.nops, by omega, Decidable.not_not.mp hstop⟩
    · exact fun _ _ hmemory => hmemory
  · intro far htarget
    have hsize := (aligned_run events i a far ha htarget).size
    refine ⟨hsize, fun alignment => ⟨fun hfour hpower => ?_, fun h => A64.align_refused h a.buffer⟩⟩
    have hpos : 0 < alignment := by omega
    have hunit := mod_four_of_isPowerOfTwo hpower hfour
    have hrun : (A64.Operation.align alignment).run a.buffer = _ :=
      A64.align_eq_emitNops hfour hpower a.buffer
    have hloops := A64.emitNops_loops hpos hunit hsize
    rw [← hrun] at hloops
    refine ⟨fun result => ⟨fun h => h.unique hloops, fun h => h ▸ hloops⟩, ?_⟩
    apply (ends_of_eq hrun (A64.emitNops_ends hpos hunit hsize)).mono
    · intro _ c hc
      obtain ⟨hadvances, hstop⟩ := hc
      have hend : c.size = a.buffer.size + padding alignment a.buffer.size :=
        hadvances.size_eq hpos hstop
      obtain ⟨kinds, hbytes⟩ := hadvances.nops
      rw [A64.flatMap_nopWord] at hbytes
      refine ⟨⟨kinds.length, hbytes⟩, Decidable.not_not.mp hstop, by omega, ?_⟩
      intro multiple hmultiple hle
      rw [hend]
      exact add_padding_le hpos _ hmultiple hle
    · exact fun _ _ hmemory => hmemory

/-- The work has a result other than a failure. -/
private def finishes (result : EStateM.Result Failure CodeBuffer Unit) : Bool :=
  match result with
  | .ok _ _ => true
  | .error _ _ => false

/-- An assembler of each kind, neither of whose code ends at a multiple of 16. -/
private def unevenRun : List Event :=
  [.add 4096 .x86 { Options.standard with initialCapacity := 192 },
   .add 4096 .a64 { Options.standard with initialCapacity := 192 },
   .request 0 (.x86 (.bytes [0x90#8, 0x90#8, 0x90#8])),
   .request 1 (.a64 .nop)]

theorem unevenRun_aligns :
    ∃ a b c d, (empty.run unevenRun).assembler? 0 = some a ∧
      (empty.run unevenRun).assembler? 1 = some b ∧
      (X86.Operation.align 32 5).run a.buffer = .ok () c ∧ (c.size + 5) % 32 = 0 ∧
      c.size < 35 ∧ (A64.Operation.align 16).run b.buffer = .ok () d ∧ d.size = 16 ∧
      (A64.Operation.align 2).run b.buffer =
        .error (.error (.invalidOperands (.wordAlignment 2) (some 4))) b.buffer := by
  have hrun : ((empty.run unevenRun).assembler? 0).map (fun a => (a.target, a.buffer.size,
        finishes ((X86.Operation.align 32 5).run a.buffer))) = some (.x86, 3, true) ∧
      ((empty.run unevenRun).assembler? 1).map (fun a => (a.target, a.buffer.size,
        finishes ((A64.Operation.align 16).run a.buffer))) = some (.a64 false, 4, true) := by
    decide +kernel
  obtain ⟨hfirst, hsecond⟩ := hrun
  obtain ⟨a, ha, hpair⟩ := Option.map_eq_some_iff.mp hfirst
  obtain ⟨htarget, hpair⟩ := Prod.mk.inj hpair
  obtain ⟨hsize, hfinishes⟩ := Prod.mk.inj hpair
  obtain ⟨b, hb, hpair⟩ := Option.map_eq_some_iff.mp hsecond
  obtain ⟨htarget', hpair⟩ := Prod.mk.inj hpair
  obtain ⟨hsize', hfinishes'⟩ := Prod.mk.inj hpair
  have hx86 := (padding_reaches_alignment unevenRun ha).1 htarget 32 5
  have ha64 := ((padding_reaches_alignment unevenRun hb).2 false htarget').2
  have hends := (hx86.1 ⟨5, rfl⟩ (by rw [hsize]; decide)).2
  have hends' := ((ha64 16).1 (by decide) ⟨4, rfl⟩).2
  have hrefused := (ha64 2).2 (by omega)
  rw [Ends] at hends hends'
  rw [hsize'] at hrefused
  cases hc : (X86.Operation.align 32 5).run a.buffer with
  | error e c =>
    rw [hc] at hfinishes
    cases hfinishes
  | ok u c =>
    cases hd : (A64.Operation.align 16).run b.buffer with
    | error e d =>
      rw [hd] at hfinishes'
      cases hfinishes'
    | ok u' d =>
      rw [hc, hsize] at hends
      rw [hd, hsize'] at hends'
      obtain ⟨-, hlt, haligned⟩ := hends
      obtain ⟨-, hmultiple, hle, hleast⟩ := hends'
      have hupper := hleast 16 rfl (by decide)
      exact ⟨a, b, c, d, ha, hb, hc, haligned, hlt, hd, by omega, hrefused⟩

end Session

end MachineCode
