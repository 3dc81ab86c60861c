import MachineCode.Proofs.Atomicity

/-!
# Loads from the object pool

A load from the object pool that takes several instructions checks the operands of each when it
comes to it. Some loads fail at their last instruction, with the ones before it already in the
code. They are the only requests to an A64 assembler that are not atomic.
-/

namespace MachineCode

open CodeBuffer

namespace A64

/-! ## Registers, offsets and encoders -/

theorem Register.slot_zero_ne_none {r : Register} (h : r ≠ .sp) : r.slot .zero ≠ none := by
  cases r with
  | x number => simp [slot]
  | zr => simp [slot]
  | sp => exact absurd rfl h

theorem Register.slot_stackPointer_ne_none {r : Register} (h : r ≠ .zr) :
    r.slot .stackPointer ≠ none := by
  cases r with
  | x number => simp [slot]
  | zr => exact absurd rfl h
  | sp => simp [slot]

private theorem registerField_of_ne_none (lsb offset : Nat) {slot31 : Slot31} {r : Register}
    (h : r.slot slot31 ≠ none) : ∃ bits, registerField lsb slot31 r offset = .ok bits := by
  obtain ⟨number, hnumber⟩ := Option.ne_none_iff_exists'.mp h
  exact ⟨_, by rw [registerField, hnumber]⟩

theorem takesOffset_iff (n : Nat) :
    Address.takesOffset n .offset .doubleWord = true ↔ n < 256 ∨ n < 32768 ∧ n % 8 = 0 := by
  have hbits : (1 <<< (12 + 3) : Nat) = 32768 ∧ (1 <<< 3 : Nat) = 8 ∧
      (1 <<< (9 - 1) : Nat) = 256 := by
    decide
  simp only [Address.takesOffset, Address.IsScaled, Address.IsUint, Address.IsAligned,
    Address.IsInt, AccessSize.log2, hbits, decide_eq_true_eq]
  omega

theorem ofImmediate?_upper {n : Nat} (h : n < 0x1000000) :
    ∃ imm12 raised,
      Operand.ofImmediate? ((n : Int) - (n : Int) % 4096) = some (.immediate imm12 raised) := by
  simp only [Operand.ofImmediate?]
  split
  · exact ⟨_, _, rfl⟩
  · rw [if_pos (by omega)]
    exact ⟨_, _, rfl⟩

theorem ofImmediate?_beyond {n : Nat} (h : 0x1000000 ≤ n) :
    Operand.ofImmediate? ((n : Int) - (n : Int) % 4096) = none := by
  simp only [Operand.ofImmediate?]
  rw [if_neg (by omega), if_neg (by omega)]

def Encoder.Failing (encoder : Encoder) : Prop :=
  ∀ offset, ∃ cause, encoder offset = .error cause

section

variable {dst pp base : Register}

theorem addSub_total (imm12 : BitVec 16) (raised : Bool) (hpp : pp ≠ .zr) (hdst : dst ≠ .zr) :
    Encoder.Total (addSub .add .x false dst pp (.immediate imm12 raised)) := by
  intro offset
  obtain ⟨n, hn⟩ := registerField_of_ne_none 5 offset (Register.slot_stackPointer_ne_none hpp)
  obtain ⟨d, hd⟩ := registerField_of_ne_none 0 offset (Register.slot_stackPointer_ne_none hdst)
  simp only [addSub, Bool.false_eq_true, if_false, hn, hd]
  exact ⟨_, rfl⟩

private theorem addSub_failing (imm12 : BitVec 16) (raised : Bool) (h : pp = .zr ∨ dst = .zr) :
    Encoder.Failing (addSub .add .x false dst pp (.immediate imm12 raised)) := by
  intro offset
  rcases h with rfl | rfl
  · exact ⟨_, rfl⟩
  · simp only [addSub, Bool.false_eq_true, if_false]
    cases registerField 5 .stackPointer pp offset with
    | ok n => exact ⟨_, rfl⟩
    | error cause => exact ⟨cause, rfl⟩

private theorem ofOffset_eq {d : Int} (hbase : base ≠ .zr)
    (h : Address.takesOffset d .offset .doubleWord = true) :
    ∃ bits, Address.ofOffset base d .offset .doubleWord = .ok ⟨.offset, bits⟩ := by
  obtain ⟨slot, hslot⟩ := Option.ne_none_iff_exists'.mp (Register.slot_stackPointer_ne_none hbase)
  simp only [Address.ofOffset, reduceCtorEq, or_self, if_false, Address.baseBits, hslot, h, if_true]
  exact ⟨_, rfl⟩

theorem loadAt_total {d : Int} (hbase : base ≠ .zr) (hdst : dst ≠ .sp)
    (h : Address.takesOffset d .offset .doubleWord = true) :
    Encoder.Total (loadAt dst base d) := by
  intro offset
  obtain ⟨bits, haddress⟩ := ofOffset_eq hbase h
  obtain ⟨t, ht⟩ := registerField_of_ne_none 0 offset (Register.slot_zero_ne_none hdst)
  simp only [loadAt, haddress, load, ht]
  exact ⟨_, rfl⟩

private theorem loadAt_failing {d : Int} (hbase : base ≠ .zr)
    (h : dst = .sp ∨ Address.takesOffset d .offset .doubleWord = false) :
    Encoder.Failing (loadAt dst base d) := by
  intro offset
  cases htakes : Address.takesOffset d .offset .doubleWord with
  | true =>
    obtain rfl : dst = .sp := by simpa [htakes] using h
    obtain ⟨bits, haddress⟩ := ofOffset_eq hbase htakes
    simp only [loadAt, haddress]
    exact ⟨_, rfl⟩
  | false =>
    obtain ⟨slot, hslot⟩ :=
      Option.ne_none_iff_exists'.mp (Register.slot_stackPointer_ne_none hbase)
    simp only [loadAt, Address.ofOffset, reduceCtorEq, or_self, if_false, Address.baseBits, hslot,
      htakes, Bool.false_eq_true]
    exact ⟨_, rfl⟩

private theorem moveWide_failing (move : MoveWide) (imm : BitVec 16) (position : Nat) :
    Encoder.Failing (moveWide move .sp imm position) := by
  intro offset
  simp only [moveWide]
  cases unsignedField 2 position with
  | ok hw => exact ⟨_, rfl⟩
  | error cause => exact ⟨cause, rfl⟩

theorem loadIndexed_total (hpp : pp ≠ .zr) (hdst : dst ≠ .sp) :
    Encoder.Total (loadIndexed dst pp dst) := by
  intro offset
  obtain ⟨slot, hslot⟩ := Option.ne_none_iff_exists'.mp (Register.slot_stackPointer_ne_none hpp)
  obtain ⟨index, hindex⟩ := Option.ne_none_iff_exists'.mp (Register.slot_zero_ne_none hdst)
  simp only [loadIndexed, Address.ofIndexed, Address.baseBits, hslot, hindex, load, registerField]
  exact ⟨_, rfl⟩

private theorem loadIndexed_failing (dst : Register) : Encoder.Failing (loadIndexed dst .zr dst) :=
  fun _ => ⟨_, rfl⟩

end

/-! ## Sequences that fail in the middle -/

/-- The first instruction of a load can be encoded and the last one cannot: the part of the offset
that is left for the last instruction does not fit it, or the destination is the stack pointer, or
the base is the zero register. -/
def TornLoad (dst pp : Register) (offset : Nat) : Prop :=
  dst ≠ pp ∧ 256 ≤ offset ∧ (32768 ≤ offset ∨ offset % 8 ≠ 0) ∧
    (offset < 0x1000000 ∧ dst ≠ .zr ∧ pp ≠ .zr ∧
        (dst = .sp ∨ offset % 8 ≠ 0 ∧ 256 ≤ offset % 4096) ∨
      0x1000000 ≤ offset ∧ dst ≠ .sp ∧ pp = .zr)

instance (dst pp : Register) (offset : Nat) : Decidable (TornLoad dst pp offset) :=
  inferInstanceAs (Decidable (_ ∧ _ ∧ _ ∧ _))

section

variable {first : Encoder} {rest : List Encoder}

private theorem emitAll_whole (h : first.Failing ∨ ∀ encoder ∈ rest, encoder.Total) :
    Atomic (Appends #[]) (emitAll (first :: rest)) := by
  rcases h with hfailing | htotal
  · intro b
    obtain ⟨cause, hcause⟩ := hfailing b.size
    rw [emitAll, ends_bind, ends_get, ends_bind, hcause]
    exact fun _ => .refl b
  · exact emitAll_atomic first htotal

private theorem emitAll_fails (h : ∃ encoder ∈ rest, encoder.Failing) (b : CodeBuffer) :
    Ends (emitAll rest) b (fun _ _ => False) (fun _ c => Grows b c) := by
  induction rest generalizing b with
  | nil =>
    obtain ⟨encoder, hmem, -⟩ := h
    cases hmem
  | cons encoder rest ih =>
    rw [emitAll, ends_bind, ends_get, ends_bind, ends_checked]
    refine ⟨fun word hword => ?_, fun _ _ => Std.Refl.refl b⟩
    have hlater : ∃ e ∈ rest, e.Failing := by
      obtain ⟨e, hmem, hfailing⟩ := h
      rcases List.mem_cons.mp hmem with rfl | hmem
      · obtain ⟨cause, hcause⟩ := hfailing b.size
        rw [hcause] at hword
        cases hword
      · exact ⟨e, hmem, hfailing⟩
    rw [ends_bind]
    apply (emitInstruction_grows _ b).mono
    · intro _ c hc
      apply (ih hlater c).mono
      · exact fun _ _ h => h
      · exact fun _ _ hd => Trans.trans hc hd
    · exact fun _ _ hc => hc

/-- What was written before the encoder that fails stays. -/
private theorem emitAll_torn (hfirst : first.Total) (hrest : ∃ encoder ∈ rest, encoder.Failing)
    (b : CodeBuffer) :
    Ends (emitAll (first :: rest)) b (fun _ _ => False)
      (fun failure c => failure.isObjection = true → ∃ tail, 0 < tail.size ∧ Appends tail b c) := by
  obtain ⟨word, hword⟩ := hfirst b.size
  rw [emitAll, ends_bind, ends_get, ends_bind, hword, ends_checked]
  refine ⟨fun w hw => ?_, fun _ herror => by cases herror⟩
  cases hw
  have hlen : (littleEndian 4 word).length ≤ instructionGap := by
    simp [instructionGap]
  rw [ends_bind]
  apply (emitInstruction_ends hlen b).mono
  · intro _ c hc
    apply (emitAll_fails hrest c).mono
    · exact fun _ _ h => h
    · intro _ d hd _
      obtain ⟨tail, happ⟩ := hd
      have hsize : 0 < ((littleEndian 4 word).toArray ++ tail).size := by
        simp only [Array.size_append, List.size_toArray, littleEndian_length]
        omega
      exact ⟨_, hsize, hc.trans happ⟩
  · rintro _ _ ⟨-, hmemory⟩ hobjection
    simp [Failure.isObjection_of_isMemory hmemory] at hobjection

end

section

variable {dst pp : Register} {position : BitVec 32}

private theorem loadFromPool_torn (h : TornLoad dst pp position.toNat) :
    ∃ first rest, loadFromPool dst pp position = first :: rest ∧ first.Total ∧
      ∃ encoder ∈ rest, encoder.Failing := by
  obtain ⟨hne, hfrom, hscaled, hcase⟩ := h
  have htakes : Address.takesOffset position.toNat .offset .doubleWord = false := by
    rw [Bool.eq_false_iff, ne_eq, takesOffset_iff]
    omega
  simp only [loadFromPool, if_neg hne, htakes, Bool.false_eq_true, if_false]
  rcases hcase with ⟨hlt, hdst, hpp, hlast⟩ | ⟨hge, hdst, rfl⟩
  · obtain ⟨imm12, raised, hupper⟩ := ofImmediate?_upper hlt
    have hlower : (position.toNat : Int) % 4096 = (position.toNat % 4096 : Nat) := by omega
    rw [hupper, hlower]
    refine ⟨_, _, rfl, addSub_total imm12 raised hpp hdst, _, List.mem_singleton_self _,
      loadAt_failing hdst ?_⟩
    rw [Bool.eq_false_iff, ne_eq, takesOffset_iff]
    rcases hlast with hsp | hlower
    · exact .inl hsp
    · exact .inr (by omega)
  · rw [ofImmediate?_beyond hge]
    exact ⟨_, _, rfl, moveWide_total _ _ (Register.slot_zero_ne_none hdst) (by decide), _,
      List.mem_append_right _ (List.mem_singleton_self _), loadIndexed_failing dst⟩

private theorem loadFromPool_whole (h : ¬TornLoad dst pp position.toNat) :
    ∃ first rest, loadFromPool dst pp position = first :: rest ∧
      (first.Failing ∨ ∀ encoder ∈ rest, encoder.Total) := by
  simp only [loadFromPool]
  by_cases hne : dst = pp
  · rw [if_pos hne]
    exact ⟨_, [], rfl, .inr nofun⟩
  by_cases htakes : Address.takesOffset position.toNat .offset .doubleWord = true
  · rw [if_neg hne, if_pos htakes]
    exact ⟨_, [], rfl, .inr nofun⟩
  rw [if_neg hne, if_neg htakes]
  rw [takesOffset_iff] at htakes
  by_cases hlt : position.toNat < 0x1000000
  · obtain ⟨imm12, raised, hupper⟩ := ofImmediate?_upper hlt
    rw [hupper]
    refine ⟨_, _, rfl, ?_⟩
    by_cases hzero : pp = .zr ∨ dst = .zr
    · exact .inl (addSub_failing imm12 raised hzero)
    · rw [not_or] at hzero
      have hlast : ¬(dst = .sp ∨ position.toNat % 8 ≠ 0 ∧ 256 ≤ position.toNat % 4096) :=
        fun hlast => h ⟨hne, by omega, by omega, .inl ⟨hlt, hzero.2, hzero.1, hlast⟩⟩
      rw [not_or] at hlast
      right
      intro encoder hencoder
      rw [List.mem_singleton.mp hencoder]
      have hlower : (position.toNat : Int) % 4096 = (position.toNat % 4096 : Nat) := by omega
      rw [hlower]
      refine loadAt_total hzero.2 hlast.1 ?_
      rw [takesOffset_iff]
      omega
  · rw [ofImmediate?_beyond (Nat.le_of_not_lt hlt)]
    refine ⟨_, _, rfl, ?_⟩
    by_cases hdst : dst = .sp
    · subst hdst
      exact .inl (moveWide_failing _ _ _)
    · have hpp : pp ≠ .zr := fun hpp =>
        h ⟨hne, by omega, by omega, .inr ⟨by omega, hdst, hpp⟩⟩
      right
      intro encoder hencoder
      rcases List.mem_append.mp hencoder with hmove | hload
      · split at hmove
        · rw [List.mem_singleton.mp hmove]
          exact moveWide_total _ _ (Register.slot_zero_ne_none hdst) (by decide)
        · cases hmove
      · rw [List.mem_singleton.mp hload]
        exact loadIndexed_total hpp hdst

end

end A64

/-- The request is a load from the object pool that fails with a part of it in the code. -/
def Request.Tears (request : Request) : Prop :=
  ∃ dst pp position, request = .a64 (.loadFromPool dst pp position) ∧
    A64.TornLoad dst pp position.toNat

namespace Session

private theorem appends_of_tears {s : Session} {i : Nat} {a : Assembler} {far : Bool}
    (ha : s.assembler? i = some a) (htarget : a.target = .a64 far) {request : Request}
    (htears : request.Tears) {cause : EmitError}
    (hfailed : (s.step i request).2 = .failed (.error cause)) (hmemory : cause.isMemory = false) :
    (s.step i request).1.labels = s.labels ∧
      ∃ c tail, (s.step i request).1.assembler? i = some ⟨a.target, c⟩ ∧ 0 < tail.size ∧
        Appends tail a.buffer c := by
  obtain ⟨target, buffer⟩ := a
  cases htarget
  obtain ⟨dst, pp, position, rfl, htorn⟩ := htears
  obtain ⟨first, rest, hload, hfirst, hrest⟩ := A64.loadFromPool_torn htorn
  have hends := A64.emitAll_torn hfirst hrest buffer
  have hrun : (A64.Operation.loadFromPool dst pp position).run = A64.emitAll (first :: rest) :=
    congrArg A64.emitAll hload
  rw [assembler?_step ha, if_pos rfl]
  rw [step_eq ha] at hfailed ⊢
  simp only [Assembler.serve, onBuffer, hrun, Functor.map, EStateM.map] at hfailed ⊢
  simp only [Ends] at hends
  cases hresult : A64.emitAll (first :: rest) buffer with
  | ok u c =>
    rw [hresult] at hends
    exact hends.elim
  | error failure c =>
    simp only [hresult] at hends hfailed ⊢
    cases hfailed
    obtain ⟨tail, htail, happ⟩ := hends (Failure.isObjection_error hmemory)
    exact ⟨trivial, c, tail, rfl, htail, happ⟩

private theorem not_untouched_of_appends {s : Session} {i : Nat} {a : Assembler} {request : Request}
    (ha : s.assembler? i = some a) (hhand : request ≠ .handOver) {c : CodeBuffer}
    {tail : Array Byte} (hc : (s.step i request).1.assembler? i = some ⟨a.target, c⟩)
    (htail : 0 < tail.size) (happ : Appends tail a.buffer c) : ¬s.Untouched i request := by
  intro huntouched
  obtain ⟨b, hb, -, -, hsize, -⟩ := huntouched.code hhand a ha
  rw [hc] at hb
  cases hb
  have := happ.size
  simp only at hsize
  omega

end Session

open Session

/-- In every state that a session can reach, an A64 assembler that fails for another reason than
memory has changed nothing, except that a torn load leaves its first instructions in the code. -/
theorem A64.error_untouched_iff (events : List Event) {i : Nat} {a : Assembler} {far : Bool}
    (ha : (empty.run events).assembler? i = some a) (htarget : a.target = .a64 far)
    {request : Request} {cause : EmitError}
    (hfailed : answer events i request = .failed (.error cause))
    (hmemory : cause.isMemory = false) :
    ((empty.run events).Untouched i request ↔ ¬request.Tears) ∧
      (request.Tears →
        (∀ name, ((empty.run events).step i request).1.labels.get name =
          (empty.run events).labels.get name) ∧
        ∃ b tail, ((empty.run events).step i request).1.assembler? i = some b ∧
          b.buffer.bytes = a.buffer.bytes ++ tail ∧ 0 < tail.size ∧
          b.buffer.unresolved = a.buffer.unresolved) := by
  have htorn := fun htears : request.Tears => appends_of_tears ha htarget htears hfailed hmemory
  refine ⟨⟨fun huntouched htears => ?_, fun hwhole => ?_⟩, fun htears => ?_⟩
  · obtain ⟨-, c, tail, hc, htail, happ⟩ := htorn htears
    obtain ⟨dst, pp, position, rfl, -⟩ := htears
    exact not_untouched_of_appends ha (by simp) hc htail happ huntouched
  · refine (consistent_run events).untouched ha (by simp [htarget]) ?_ hfailed hmemory
    intro dst pp position heq _
    obtain ⟨first, rest, hload, hrest⟩ :=
      A64.loadFromPool_whole fun htorn => hwhole ⟨dst, pp, position, heq, htorn⟩
    rw [hload]
    exact A64.emitAll_whole hrest a.buffer
  · obtain ⟨hlabels, c, tail, hc, htail, happ⟩ := htorn htears
    exact ⟨fun name => by rw [hlabels], _, tail, hc, happ.bytes, htail, happ.unresolved⟩

private def pendingRun : List Event :=
  [.add 4096 .a64 { Options.standard with initialCapacity := 64 },
   .request 0 (.a64Branch "out" (.test true .lr 3))]

/-- A load whose destination is the base is refused at once, one whose offset is left over by the
addition is torn. -/
theorem A64.pendingRun_untouched_iff :
    (empty.run pendingRun).Untouched 0 (.a64 (.loadFromPool .pp .pp 4353#32)) ∧
      ¬(empty.run pendingRun).Untouched 0 (.a64 (.loadFromPool .tmp .pp 4353#32)) := by
  obtain ⟨a, ha, htarget⟩ := Option.map_eq_some_iff.mp
    (show ((empty.run pendingRun).assembler? 0).map (·.target) = some (.a64 false) by
      decide +kernel)
  have hwhole : answer pendingRun 0 (.a64 (.loadFromPool .pp .pp 4353#32)) =
      .failed (.error (.invalidOperands .poolDestination (some 4))) :=
    Outcome.eq_of_error? (by decide +kernel)
  have htorn : answer pendingRun 0 (.a64 (.loadFromPool .tmp .pp 4353#32)) =
      .failed (.error (.immediateOverflow 257 (-256) 32760)) :=
    Outcome.eq_of_error? (by decide +kernel)
  have htears : Request.Tears (.a64 (.loadFromPool .tmp .pp 4353#32)) :=
    ⟨_, _, _, rfl, by decide⟩
  have hnot : ¬Request.Tears (.a64 (.loadFromPool .pp .pp 4353#32)) := by
    rintro ⟨dst, pp, position, heq, hne, -⟩
    cases heq
    exact hne rfl
  refine ⟨(A64.error_untouched_iff pendingRun ha htarget hwhole rfl).1.mpr hnot, fun h => ?_⟩
  exact (A64.error_untouched_iff pendingRun ha htarget htorn rfl).1.mp h htears

private def freshRun : List Event :=
  [.add 4096 .a64 { Options.standard with initialCapacity := 64 }]

/-- The load at an offset that is no multiple of eight fails for its offset, and the addition that
was to come before it is in the code. -/
theorem A64.torn_load_leaves_addition :
    (answer freshRun 0 (.a64 (.loadFromPool .tmp .pp 257#32))).error? =
      some (.immediateOverflow 257 (-256) 32760) ∧
    ((empty.run freshRun).assembler? 0).map (·.buffer.bytes) = some #[] ∧
    (((empty.run freshRun).step 0 (.a64 (.loadFromPool .tmp .pp 257#32))).1.assembler? 0).map
      (·.buffer.bytes) = some #[0x70#8, 0x03#8, 0x00#8, 0x91#8] := by
  decide +kernel

end MachineCode
