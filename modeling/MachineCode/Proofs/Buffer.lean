import MachineCode.Buffer.Write
import MachineCode.Proofs.Code
import MachineCode.Proofs.Effect

/-!
# What emission and patches do to a buffer

Emission only appends: growth moves the code and a failure leaves it. A patch replaces bytes below
the cursor and keeps the size. Both keep the identity of the buffer and its count of pending labels.
-/

namespace MachineCode.CodeBuffer

@[simp] theorem size_bytes (b : CodeBuffer) : b.bytes.size = b.size := by
  have := b.cursor_le
  simp only [bytes, size, Array.size_extract]
  omega

theorem size_le_capacity (b : CodeBuffer) : b.size ≤ b.capacity :=
  b.cursor_le

theorem getElem?_bytes (b : CodeBuffer) (j : Nat) :
    b.bytes[j]? = if j < b.size then b.contents[j]? else none := by
  have := b.cursor_le
  simp only [bytes, size, Array.getElem?_extract, Nat.zero_add, Nat.sub_zero]
  congr 1
  exact propext (by omega)

/-- The block is one that an allocator can grant. -/
def Granted (b : CodeBuffer) : Prop :=
  b.capacity ≤ blockLimit

/-- What no work on the code changes. -/
structure Retains (b c : CodeBuffer) : Prop where
  id : c.id = b.id
  trap : c.trap = b.trap
  unresolved : c.unresolved = b.unresolved
  capacity : b.capacity ≤ c.capacity
  granted : b.Granted → c.Granted

/-- The code afterwards is the code before and `tail`. -/
structure Appends (tail : Array Byte) (b c : CodeBuffer) : Prop extends Retains b c where
  bytes : c.bytes = b.bytes ++ tail

/-- The code afterwards is the code before with the given runs of bytes replaced. -/
structure Patches (edits : List (Nat × List Byte)) (b c : CodeBuffer) : Prop extends
    Retains b c where
  bytes : c.bytes = edited b.bytes edits

theorem Retains.refl (b : CodeBuffer) : Retains b b :=
  ⟨rfl, rfl, rfl, Nat.le_refl _, fun h => h⟩

theorem Retains.trans {b c d : CodeBuffer} (h : Retains b c) (h' : Retains c d) : Retains b d where
  id := h'.id.trans h.id
  trap := h'.trap.trans h.trap
  unresolved := h'.unresolved.trans h.unresolved
  capacity := Nat.le_trans h.capacity h'.capacity
  granted hb := h'.granted (h.granted hb)

theorem Appends.refl (b : CodeBuffer) : Appends #[] b b where
  toRetains := .refl b
  bytes := by simp

theorem Appends.trans {tail tail' : Array Byte} {b c d : CodeBuffer} (h : Appends tail b c)
    (h' : Appends tail' c d) : Appends (tail ++ tail') b d where
  toRetains := h.toRetains.trans h'.toRetains
  bytes := by rw [h'.bytes, h.bytes, Array.append_assoc]

theorem Appends.size {tail : Array Byte} {b c : CodeBuffer} (h : Appends tail b c) :
    c.size = b.size + tail.size := by
  rw [← size_bytes, h.bytes, Array.size_append, size_bytes]

theorem Appends.holds {bytes : List Byte} {b c : CodeBuffer} (h : Appends bytes.toArray b c) :
    Holds c.bytes b.size bytes := by
  rw [h.bytes, ← size_bytes]
  exact holds_end b.bytes bytes

theorem Patches.refl (b : CodeBuffer) : Patches [] b b where
  toRetains := .refl b
  bytes := rfl

theorem Patches.trans {edits edits' : List (Nat × List Byte)} {b c d : CodeBuffer}
    (h : Patches edits b c) (h' : Patches edits' c d) : Patches (edits ++ edits') b d where
  toRetains := h.toRetains.trans h'.toRetains
  bytes := by rw [h'.bytes, h.bytes, edited_append]

theorem Patches.size {edits : List (Nat × List Byte)} {b c : CodeBuffer} (h : Patches edits b c) :
    c.size = b.size := by
  rw [← size_bytes, h.bytes, size_edited, size_bytes]

theorem Appends.notify {tail : Array Byte} {b c : CodeBuffer} (h : Appends tail b c)
    (n : Notice) : Appends tail b (c.notify n) :=
  ⟨⟨h.id, h.trap, h.unresolved, h.capacity, h.granted⟩, h.bytes⟩

theorem appends_forget (b : CodeBuffer) : Appends #[] b b.forget where
  toRetains := ⟨rfl, rfl, rfl, Nat.le_refl _, fun h => h⟩
  bytes := (Appends.refl b).bytes

theorem appends_allow (memory : Nat) (b : CodeBuffer) : Appends #[] b (b.allow memory) where
  toRetains := ⟨rfl, rfl, rfl, Nat.le_refl _, fun h => h⟩
  bytes := (Appends.refl b).bytes

/-! ## Growth -/

private theorem lt_grownCapacity {b : CodeBuffer} {memory : Nat}
    (h : grants memory (grownCapacity b.capacity) = true) :
    b.capacity + 2 * instructionGap ≤ grownCapacity b.capacity := by
  have hgap : 2 * instructionGap ≤ b.capacity := b.gaps_le
  simp only [grants, Bool.and_eq_true, decide_eq_true_eq] at h
  simp only [grownCapacity, blockLimit, offsetSpace, maxGrowth, instructionGap] at h hgap ⊢
  omega

private theorem bytes_moveTo (b : CodeBuffer) (capacity : Nat) (larger : b.capacity ≤ capacity) :
    (b.moveTo capacity larger).bytes = b.bytes := by
  have := b.cursor_le
  apply Array.ext_getElem?
  intro j
  simp only [bytes, moveTo, Array.getElem?_extract, Array.getElem?_append, Array.size_extract]
  grind

theorem capacity_moveTo (b : CodeBuffer) (capacity : Nat) (larger : b.capacity ≤ capacity) :
    (b.moveTo capacity larger).capacity = capacity := by
  have := b.cursor_le
  simp only [CodeBuffer.capacity] at larger
  simp only [CodeBuffer.capacity, moveTo, Array.size_append, Array.size_extract, fill_size]
  omega

/-- Growth adds at least two gaps; it fails only for want of memory. -/
theorem grow_ends (b : CodeBuffer) :
    Ends grow b (fun _ c => Appends #[] b c ∧ b.capacity + 2 * instructionGap ≤ c.capacity)
      (fun e c => c = b ∧ e.isMemory = true) := by
  by_cases larger : b.capacity < grownCapacity b.capacity
  · by_cases hgrants : grants b.memory (grownCapacity b.capacity) = true
    · have hgap := lt_grownCapacity hgrants
      have hcap := capacity_moveTo b _ (Nat.le_of_lt larger)
      have hmove : Appends #[] b (b.moveTo _ (Nat.le_of_lt larger)) := by
        refine ⟨⟨rfl, rfl, rfl, by omega, fun _ => ?_⟩, ?_⟩
        · simp only [grants, Bool.and_eq_true, decide_eq_true_eq] at hgrants
          simpa only [Granted, hcap] using hgrants.2
        · rw [bytes_moveTo, Array.append_empty]
      simp only [Ends, grow, dif_pos larger, if_pos hgrants]
      exact ⟨hmove.notify _, Nat.le_trans hgap (Nat.le_of_eq hcap.symm)⟩
    · simp only [Ends, grow, dif_pos larger, if_neg hgrants]
      exact ⟨trivial, rfl⟩
  · simp only [Ends, grow, dif_neg larger]
    exact ⟨trivial, rfl⟩

/-- After room was made, one instruction fits below the end of the block. -/
theorem makeRoom_ends (b : CodeBuffer) :
    Ends makeRoom b (fun _ c => Appends #[] b c ∧ c.size + instructionGap ≤ c.capacity)
      (fun e c => c = b ∧ e.isMemory = true) := by
  simp only [makeRoom, ends_bind, ends_get, ends_ite, ends_pure]
  have hgap : 2 * instructionGap ≤ b.capacity := b.gaps_le
  have hsize := b.size_le_capacity
  refine ⟨fun _ => ?_, fun hroom => ?_⟩
  · apply (grow_ends b).mono
    · rintro - c ⟨happ, hcap⟩
      have hc := happ.size
      simp only [List.size_toArray, List.length_nil] at hc
      exact ⟨happ, by omega⟩
    · exact fun _ _ h => h
  · refine ⟨.refl b, ?_⟩
    simp only [limit] at hroom
    simp only [size]
    omega

/-! ## Appending -/

/-- The code was kept and perhaps more was appended. -/
def Grows (b c : CodeBuffer) : Prop :=
  ∃ tail, Appends tail b c

instance : Std.Refl Retains := ⟨.refl⟩

instance : Trans Retains Retains Retains := ⟨.trans⟩

instance : Std.Refl (Appends #[]) := ⟨.refl⟩

instance : Trans (Appends #[]) (Appends #[]) (Appends #[]) :=
  ⟨fun h h' => by simpa using h.trans h'⟩

instance : Std.Refl Grows := ⟨fun b => ⟨#[], .refl b⟩⟩

instance : Trans Grows Grows Grows := ⟨fun ⟨_, h⟩ ⟨_, h'⟩ => ⟨_, h.trans h'⟩⟩

private theorem bytes_put {b : CodeBuffer} {bytes : List Byte}
    (room : b.cursor + bytes.length ≤ b.contents.size) :
    (overwrite b.contents b.cursor bytes).extract 0 (b.cursor + bytes.length) =
      b.bytes ++ bytes.toArray := by
  apply Array.ext_getElem?
  intro j
  have hsize : b.bytes.size = b.cursor := b.size_bytes
  rw [Array.getElem?_extract, getElem?_overwrite, Array.getElem?_append, getElem?_bytes,
    overwrite_size, hsize]
  simp only [Nat.zero_add, Nat.sub_zero, size, List.getElem?_toArray]
  grind

theorem put_ends (bytes : List Byte) (b : CodeBuffer) :
    Ends (put bytes) b (fun _ c => Appends bytes.toArray b c)
      (fun _ c => c = b ∧ b.capacity < b.size + bytes.length) := by
  by_cases room : b.cursor + bytes.length ≤ b.contents.size
  · simp only [Ends, put, dif_pos room]
    refine ⟨⟨rfl, rfl, rfl, ?_, fun h => ?_⟩, bytes_put room⟩
    · simp only [capacity, overwrite_size, Nat.le_refl]
    · simpa only [Granted, capacity, overwrite_size] using h
  · simp only [Ends, put, dif_neg room]
    exact ⟨trivial, Nat.lt_of_not_le room⟩

private theorem checkGap_ends (start : Nat) (b : CodeBuffer) :
    Ends (checkGap start) b (fun _ c => c = b)
      (fun _ c => c = b ∧ instructionGap < b.size - start) := by
  simp only [checkGap, ends_bind, ends_get, ends_ite, ends_throw, ends_pure]
  exact ⟨fun h => ⟨trivial, h⟩, fun _ => trivial⟩

theorem putInstruction_ends {bytes : List Byte} {b : CodeBuffer}
    (short : bytes.length ≤ instructionGap) (room : b.size + instructionGap ≤ b.capacity) :
    Ends (putInstruction bytes) b (fun _ c => Appends bytes.toArray b c) (fun _ _ => False) := by
  simp only [putInstruction, ends_bind, ends_get]
  apply (put_ends bytes b).mono
  · intro _ c happ
    have hsize := happ.size
    simp only [List.size_toArray] at hsize
    apply (checkGap_ends b.cursor c).mono
    · rintro - d rfl
      exact happ
    · rintro - d ⟨-, hgap⟩
      simp only [size] at hsize hgap
      omega
  · rintro - c ⟨-, hfull⟩
    omega

/-- An instruction that keeps to the gap is appended, unless there is no memory for it. -/
theorem emitInstruction_ends {bytes : List Byte} (short : bytes.length ≤ instructionGap)
    (b : CodeBuffer) :
    Ends (emitInstruction bytes) b (fun _ c => Appends bytes.toArray b c)
      (fun e c => c = b ∧ e.isMemory = true) := by
  simp only [emitInstruction, ends_bind]
  apply (makeRoom_ends b).mono
  · rintro - c ⟨happ, room⟩
    apply (putInstruction_ends short room).mono
    · intro _ d happ'
      simpa using happ.trans happ'
    · exact fun _ _ h => h.elim
  · exact fun _ _ h => h

/-- Code of `needed` bytes would reach into the gap. -/
def Cramped (needed : Nat) (b : CodeBuffer) : Prop :=
  b.limit < needed

/-- The steps allowed are enough: growth stops because there is room, or because a step fails. -/
theorem growTo_loops {needed steps : Nat} {b : CodeBuffer} (enough : needed ≤ b.limit + steps) :
    Loops (Cramped needed) grow b (growTo needed steps b) := by
  induction steps generalizing b with
  | zero => exact .done (Nat.not_lt.mpr enough)
  | succ steps ih =>
    change Loops _ _ _ ((ite _ _ _ : Emit Unit) b)
    by_cases hgo : b.limit < needed
    · rw [if_pos hgo]
      refine .step hgo rfl fun c hc => ih ?_
      have hends := grow_ends b
      rw [Ends, hc] at hends
      have hlarger := hends.2
      have hgap := b.gaps_le
      simp only [limit, capacity, instructionGap] at enough hlarger hgap ⊢
      omega
    · rw [if_neg hgo]
      exact .done hgo

private theorem growTo_ends {needed steps : Nat} {b : CodeBuffer}
    (enough : needed ≤ b.limit + steps) :
    Ends (growTo needed steps) b (fun _ c => Appends #[] b c ∧ needed ≤ c.limit)
      (fun e _ => e.isMemory = true) := by
  have hpass : ∀ c, Appends #[] b c → Cramped needed c →
      Ends grow c (fun _ d => Appends #[] b d) (fun e _ => e.isMemory = true) := by
    intro c happ _
    apply (grow_ends c).mono
    · exact fun _ _ h => by simpa using happ.trans h.1
    · exact fun _ _ h => h.2
  apply ((growTo_loops enough).ends hpass (.refl b)).mono
  · exact fun _ _ h => ⟨h.1, Nat.le_of_not_lt h.2⟩
  · exact fun _ _ h => h

theorem reserve_ends (count : Nat) (b : CodeBuffer) :
    Ends (reserve count) b (fun _ c => Appends #[] b c ∧ c.size + count ≤ c.limit)
      (fun e _ => e.isMemory = true) := by
  simp only [reserve, ends_bind, ends_get, ends_ite, ends_throw]
  refine ⟨fun _ => ?_, fun _ => rfl⟩
  apply (growTo_ends (Nat.le_add_left _ b.limit)).mono
  · rintro - c ⟨happ, hlimit⟩
    have hsize := happ.size
    simp only [List.size_toArray, List.length_nil, size] at hsize
    refine ⟨happ, ?_⟩
    simp only [size]
    omega
  · exact fun _ _ h => h

theorem append_ends (bytes : List Byte) (b : CodeBuffer) :
    Ends (append bytes) b (fun _ c => Appends bytes.toArray b c)
      (fun e _ => e.isMemory = true) := by
  simp only [append, ends_bind]
  apply (reserve_ends bytes.length b).mono
  · rintro - c ⟨happ, hlimit⟩
    apply (put_ends bytes c).mono
    · intro _ d happ'
      simpa using happ.trans happ'
    · rintro _ _ ⟨-, hfull⟩
      simp only [limit] at hlimit
      omega
  · exact fun _ _ h => h

/-! ## What growth keeps -/

section

variable {R : CodeBuffer → CodeBuffer → Prop} [Std.Refl R] [Trans R R R] (h : Always R grow)

include h

theorem makeRoom_always : Always R makeRoom :=
  always_get.bind fun _ => always_get.bind fun _ => .ite h (always_pure _)

private theorem growTo_always (needed steps : Nat) : Always R (growTo needed steps) := by
  induction steps with
  | zero => exact always_pure _
  | succ steps ih => exact always_get.bind fun _ => .ite (h.bind fun _ => ih) (always_pure _)

theorem reserve_always (count : Nat) : Always R (reserve count) :=
  always_get.bind fun _ => .ite (growTo_always h _ _) (always_get.bind fun _ => always_throw _)

end

theorem grow_still : Always (Appends #[]) grow := by
  intro b
  apply (grow_ends b).mono
  · exact fun _ _ h => h.1
  · rintro _ _ ⟨rfl, -⟩
    exact .refl _

theorem reserve_still (count : Nat) : Always (Appends #[]) (reserve count) :=
  reserve_always grow_still count

/-! ## Work that only appends -/

private theorem grow_grows : Always Grows grow := by
  intro b
  apply (grow_still b).mono
  · exact fun _ _ h => ⟨_, h⟩
  · exact fun _ _ h => ⟨_, h⟩

theorem makeRoom_grows : Always Grows makeRoom :=
  makeRoom_always grow_grows

theorem put_grows (bytes : List Byte) : Always Grows (put bytes) := by
  intro b
  apply (put_ends bytes b).mono
  · exact fun _ _ h => ⟨_, h⟩
  · rintro _ _ ⟨rfl, -⟩
    exact Std.Refl.refl _

private theorem checkGap_grows (start : Nat) : Always Grows (checkGap start) :=
  always_get.bind fun _ => .ite (always_throw _) (always_pure _)

theorem putInstruction_grows (bytes : List Byte) : Always Grows (putInstruction bytes) :=
  always_get.bind fun _ => (put_grows bytes).bind fun _ => checkGap_grows _

theorem emitInstruction_grows (bytes : List Byte) : Always Grows (emitInstruction bytes) :=
  makeRoom_grows.bind fun _ => putInstruction_grows bytes

private theorem reserve_grows (count : Nat) : Always Grows (reserve count) :=
  reserve_always grow_grows count

theorem append_grows (bytes : List Byte) : Always Grows (append bytes) :=
  (reserve_grows _).bind fun _ => put_grows bytes

/-! ## Loads and stores -/

theorem checkEmitted_eq_ok {b : CodeBuffer} {offset count : Nat} (granted : b.Granted)
    (inside : offset + count ≤ b.size) : b.checkEmitted offset count = .ok () := by
  have := b.size_le_capacity
  have hspace : ¬offsetSpace ≤ offset + count := by
    simp only [Granted, blockLimit] at granted
    simp only [offsetSpace]
    omega
  have hcode : ¬b.cursor < offset + count := Nat.not_lt.mpr inside
  rw [checkEmitted, if_neg hspace, if_neg hcode]

private theorem load_eq_of_holds {b : CodeBuffer} {w offset count : Nat} {value : BitVec w}
    (granted : b.Granted) (hcount : 0 < count) (hw : w ≤ 8 * count)
    (h : Holds b.bytes offset (littleEndian count value)) : b.load w offset count = .ok value := by
  have hle : offset + count ≤ b.size := by
    have := h.le_size (by rw [← List.length_pos_iff, littleEndian_length]; exact hcount)
    simpa using this
  have hsame : b.contents.extract offset (offset + count) =
      b.bytes.extract offset (offset + count) := by
    simp only [size] at hle
    rw [bytes, Array.extract_extract]
    congr 1 <;> omega
  have hlist := h.toList_extract
  rw [littleEndian_length] at hlist
  simp only [load, checkEmitted_eq_ok granted hle, hsame, hlist, ofLittleEndian_littleEndian _ _ hw]
  rfl

theorem loadWord_eq_of_holds {b : CodeBuffer} {offset : Nat} {value : Word} (granted : b.Granted)
    (h : Holds b.bytes offset (littleEndian 4 value)) : b.loadWord offset = .ok value :=
  load_eq_of_holds granted (by decide) (by decide) h

theorem loadByte_eq_of_holds {b : CodeBuffer} {offset : Nat} {value : Byte} (granted : b.Granted)
    (h : Holds b.bytes offset [value]) : b.loadByte offset = .ok value := by
  have hbyte : littleEndian 1 value = [value] := by
    simp only [littleEndian, BitVec.setWidth_eq]
  exact load_eq_of_holds granted (by decide) (by decide) (hbyte ▸ h)

theorem bytes_store (b : CodeBuffer) (offset : Nat) (bytes : List Byte) :
    (overwrite b.contents offset bytes).extract 0 b.cursor = overwrite b.bytes offset bytes := by
  apply Array.ext_getElem?
  intro j
  have := b.cursor_le
  rw [Array.getElem?_extract, getElem?_overwrite, getElem?_overwrite, overwrite_size,
    getElem?_bytes, size_bytes]
  simp only [Nat.zero_add, Nat.sub_zero, size]
  grind

theorem store_retains (offset : Nat) (bytes : List Byte) : Always Retains (store offset bytes) := by
  intro b
  simp only [Ends, store]
  cases b.checkEmitted offset bytes.length with
  | error v => exact .refl b
  | ok _ =>
    refine ⟨rfl, rfl, rfl, ?_, fun h => ?_⟩
    · simp only [capacity, overwrite_size, Nat.le_refl]
    · simpa only [Granted, capacity, overwrite_size] using h

theorem store_ends {b : CodeBuffer} {offset : Nat} {bytes : List Byte} (granted : b.Granted)
    (inside : offset + bytes.length ≤ b.size) :
    Ends (store offset bytes) b (fun _ c => Patches [(offset, bytes)] b c) (fun _ _ => False) := by
  have hretains := store_retains offset bytes b
  simp only [Ends, store, checkEmitted_eq_ok granted inside] at hretains ⊢
  exact ⟨hretains, bytes_store b offset bytes⟩

/-! ## Copies -/

theorem copyOut_eq (s : Copy) :
    copyOut s =
      if s.buffer.unresolved = 0 then
        if s.destination.size < s.buffer.size then
          .error (.error (.destinationTooSmall s.buffer.size s.destination.size)) s
        else
          .ok s.buffer.size ⟨s.buffer.notify (.finalized s.buffer.id s.buffer.size),
            s.buffer.bytes ++ s.destination.extract s.buffer.size s.destination.size⟩
      else .error (.error (.unresolvedLabels s.buffer.unresolved)) s := by
  have hget : (get : EStateM Failure Copy Copy) s = .ok s s := rfl
  simp only [copyOut, bind, EStateM.bind, hget, checkResolved]
  by_cases hzero : s.buffer.unresolved = 0
  · rw [if_pos hzero, if_pos hzero]
    by_cases hsmall : s.destination.size < s.buffer.size
    · rw [if_pos hsmall]
      simp only [size] at hsmall
      simp only [if_pos hsmall]
      rfl
    · rw [if_neg hsmall]
      simp only [size] at hsmall
      simp only [if_neg hsmall]
      rfl
  · rw [if_neg hzero, if_neg hzero]
    rfl

theorem eq_of_copyOut_error {s t : Copy} {e : Failure} (h : copyOut s = .error e t) : t = s := by
  rw [copyOut_eq] at h
  split at h
  · split at h <;> cases h
    rfl
  · cases h
    rfl

theorem copyOver_eq (b : CodeBuffer) (destination : Array Byte) :
    copyOver destination b =
      if b.unresolved = 0 then
        if destination.size < b.size then
          .error (.error (.destinationTooSmall b.size destination.size)) b
        else
          .ok (b.size, b.bytes ++ destination.extract b.size destination.size)
            (b.notify (.finalized b.id b.size))
      else .error (.error (.unresolvedLabels b.unresolved)) b := by
  rw [copyOver, copyOut_eq]
  by_cases hzero : b.unresolved = 0
  · rw [if_pos hzero, if_pos hzero]
    by_cases hsmall : destination.size < b.size
    · rw [if_pos hsmall, if_pos hsmall]
    · rw [if_neg hsmall, if_neg hsmall]
  · rw [if_neg hzero, if_neg hzero]

theorem copyOver_ends (destination : Array Byte) (b : CodeBuffer) :
    Ends (copyOver destination) b (fun _ c => c = b.notify (.finalized b.id b.size))
      (fun e c => c = b ∧ (e = .error (.unresolvedLabels b.unresolved) ∨
        e = .error (.destinationTooSmall b.size destination.size))) := by
  rw [Ends, copyOver_eq]
  by_cases hzero : b.unresolved = 0
  · rw [if_pos hzero]
    by_cases hsmall : destination.size < b.size
    · rw [if_pos hsmall]
      exact ⟨rfl, .inr rfl⟩
    · rw [if_neg hsmall]
  · rw [if_neg hzero]
    exact ⟨rfl, .inl rfl⟩

theorem copyOver_always {R : CodeBuffer → CodeBuffer → Prop} (hrefl : ∀ b, R b b)
    (hnotify : ∀ b notice, R b (b.notify notice)) (destination : Array Byte) :
    Always R (copyOver destination) := by
  intro b
  apply (copyOver_ends destination b).mono
  · rintro - _ rfl
    exact hnotify b _
  · rintro - c ⟨rfl, -⟩
    exact hrefl c

theorem copyOver_never {bad : Failure → Bool}
    (hpending : ∀ count, bad (.error (.unresolvedLabels count)) = false)
    (hsmall : ∀ needed available, bad (.error (.destinationTooSmall needed available)) = false)
    (destination : Array Byte) : Never bad (copyOver destination) := by
  intro b
  apply (copyOver_ends destination b).mono
  · exact fun _ _ _ => trivial
  · rintro - _ ⟨-, rfl | rfl⟩
    · exact hpending _
    · exact hsmall _ _

/-! ## Bare buffers -/

theorem Always.retains {α : Type} {work : Emit α} (h : Always Grows work) :
    Always Retains work := by
  intro b
  apply (h b).mono
  · exact fun _ _ ⟨_, h⟩ => h.toRetains
  · exact fun _ _ ⟨_, h⟩ => h.toRetains

private theorem guarded_retains {body : Emit Unit} (h : Always Retains body) :
    Always Retains (guarded body) := by
  refine (Always.retains makeRoom_grows).bind fun _ => always_get.bind fun _ => .bind ?_ fun _ =>
    Always.retains (checkGap_grows _)
  refine h.tryCatch fun failure => ?_
  cases failure with
  | violation v => exact always_throw _
  | error e => exact (Always.retains (checkGap_grows _)).bind fun _ => always_throw _
  | refused => exact (Always.retains (checkGap_grows _)).bind fun _ => always_throw _

mutual

theorem run_retains : ∀ write : Write, Always Retains write.run
  | .put _ _ => Always.retains (put_grows _)
  | .append bytes => Always.retains (append_grows bytes)
  | .storeByte offset value => store_retains offset [value]
  | .storeWord offset value => store_retains offset (littleEndian 4 value)
  | .reserve count => Always.retains (reserve_grows count)
  | .guarded writes => guarded_retains (runWrites_retains writes)
  | .unknown => always_throw _

theorem runWrites_retains : ∀ writes : List Write, Always Retains (runWrites writes)
  | [] => always_pure _
  | write :: rest => (run_retains write).bind fun _ => runWrites_retains rest

end

end MachineCode.CodeBuffer
