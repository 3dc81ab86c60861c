import MachineCode.Proofs.Finalize

/-!
# Objections leave no trace

An objection is an error that memory is not to blame for. Work is atomic if it objects only while
nothing is written yet: the checks that come first change nothing, and what follows the first byte
does not object. Loads from the object pool are the one kind of request for which this is left
open here.
-/

namespace MachineCode

/-- The failure is an error, and none of the allocator or the growth rule. -/
def Failure.isObjection : Failure → Bool
  | .error cause => !cause.isMemory
  | .violation _ | .refused => false

theorem Failure.isObjection_error {cause : EmitError} (h : cause.isMemory = false) :
    (Failure.error cause).isObjection = true := by
  simp [isObjection, h]

theorem Failure.isObjection_of_isMemory {failure : Failure} (h : failure.isMemory = true) :
    failure.isObjection = false := by
  cases failure with
  | error cause =>
    rw [isMemory] at h
    simp [isObjection, h]
  | violation v => rfl
  | refused => rfl

abbrev Sure {σ α : Type} (work : EStateM Failure σ α) : Prop :=
  Never Failure.isObjection work

/-- Work that objects leads from a state to a related one. -/
def Atomic {σ α : Type} (R : σ → σ → Prop) (work : EStateM Failure σ α) : Prop :=
  ∀ s, Ends work s (fun _ _ => True) (fun failure t => failure.isObjection = true → R s t)

section

variable {σ α β : Type} {R : σ → σ → Prop}

private theorem sure_asserted (result : Except Violation α) :
    Sure (asserted result : EStateM _ σ α) :=
  fun _ => ends_asserted.mpr ⟨fun _ _ => trivial, fun _ _ => rfl⟩

private theorem Ends.unobjecting {work : EStateM Failure σ α} {s : σ} {P : σ → Prop}
    (h : Ends work s (fun _ _ => True) (fun failure _ => failure.isObjection = false)) :
    Ends work s (fun _ _ => True) (fun failure t => failure.isObjection = true → P t) := by
  apply h.mono
  · exact fun _ _ _ => trivial
  · intro failure t hf hobjection
    rw [hf] at hobjection
    cases hobjection

private theorem Sure.atomic {work : EStateM Failure σ α} (h : Sure work) : Atomic R work :=
  fun s => (h s).unobjecting

private theorem Always.atomic {work : EStateM Failure σ α} (h : Always R work) : Atomic R work := by
  intro s
  apply (h s).mono
  · exact fun _ _ _ => trivial
  · exact fun _ _ ht _ => ht

private theorem Atomic.after [Trans R R R] {work : EStateM Failure σ β}
    {next : β → EStateM Failure σ α} (h : Always R work) (hnext : ∀ b, Atomic R (next b)) :
    Atomic R (work >>= next) := by
  intro s
  rw [ends_bind]
  apply (h s).mono
  · intro b t ht
    apply (hnext b t).mono
    · exact fun _ _ _ => trivial
    · exact fun _ u hu hobjection => Trans.trans ht (hu hobjection)
  · exact fun _ _ ht _ => ht

private theorem Atomic.map {f : β → α} {work : EStateM Failure σ β} (h : Atomic R work) :
    Atomic R (f <$> work) := by
  intro s
  rw [ends_map]
  exact h s

end

/-! ## Buffers -/

namespace CodeBuffer

private theorem sure_grow : Sure grow := by
  intro b
  apply (grow_ends b).mono
  · exact fun _ _ _ => trivial
  · rintro _ _ ⟨-, hmemory⟩
    exact Failure.isObjection_of_isMemory hmemory

theorem sure_makeRoom : Sure makeRoom :=
  never_get.bind fun _ => never_get.bind fun _ => .ite sure_grow (never_pure _)

private theorem sure_put (bytes : List Byte) : Sure (put bytes) := by
  intro b
  by_cases room : b.cursor + bytes.length ≤ b.contents.size
  · simp only [Ends, put, dif_pos room]
  · simp only [Ends, put, dif_neg room]
    rfl

private theorem sure_checkGap (start : Nat) : Sure (checkGap start) :=
  never_get.bind fun _ => .ite (never_throw rfl) (never_pure _)

theorem sure_putInstruction (bytes : List Byte) : Sure (putInstruction bytes) :=
  never_get.bind fun _ => (sure_put bytes).bind fun _ => sure_checkGap _

private theorem sure_emitInstruction (bytes : List Byte) : Sure (emitInstruction bytes) :=
  sure_makeRoom.bind fun _ => sure_putInstruction bytes

private theorem sure_growTo (needed steps : Nat) : Sure (growTo needed steps) := by
  induction steps with
  | zero => exact never_pure _
  | succ steps ih =>
    exact never_get.bind fun _ => .ite (sure_grow.bind fun _ => ih) (never_pure _)

theorem sure_append (bytes : List Byte) : Sure (append bytes) := by
  have hreserve : Sure (reserve bytes.length) :=
    never_get.bind fun _ => .ite (sure_growTo _ _) (never_get.bind fun _ => never_throw rfl)
  exact hreserve.bind fun _ => sure_put bytes

private theorem sure_store (offset : Nat) (bytes : List Byte) : Sure (store offset bytes) := by
  intro b
  simp only [Ends, store]
  cases b.checkEmitted offset bytes.length <;> trivial

private theorem makeRoom_still : Always (Appends #[]) makeRoom :=
  makeRoom_always grow_still

theorem copyOver_still (destination : Array Byte) :
    Always (Appends #[]) (copyOver destination) :=
  copyOver_always .refl (fun b notice => (Appends.refl b).notify notice) destination

end CodeBuffer

open CodeBuffer

/-! ## Operations -/

theorem X86.sure_pad (count : Nat) : Sure (X86.pad count) := by
  have hlong : ∀ n, Sure (X86.emitLongNops n) := by
    intro n
    induction n with
    | zero => exact never_pure _
    | succ n ih => exact (sure_emitInstruction _).bind fun _ => ih
  exact (hlong _).bind fun _ => .ite (sure_emitInstruction _) (never_pure _)

private theorem X86.run_atomic (operation : X86.Operation) :
    Atomic (Appends #[]) operation.run := by
  -- All checks of an instruction come before its first byte; making room writes none.
  have hplain : ∀ o : X86.Operation, Atomic (Appends #[]) (do
      checked o.precheck
      makeRoom
      let instructions ← checked (o.instructions (← get).size)
      putInstruction (X86.encodeAll instructions)) := fun o =>
    .after (always_checked _) fun _ => .after makeRoom_still fun _ => .after always_get fun _ =>
      .after (always_checked _) fun _ => (sure_putInstruction _).atomic
  cases operation with
  | align alignment offset =>
    have hrest : ∀ (p : Prop) [Decidable p] (count : Nat), Sure (if p then do
        throw (.violation .addOverflow)
        X86.pad count
      else X86.pad count) := fun _ _ count =>
      .ite (.bind (never_throw rfl) fun _ => X86.sure_pad count) (X86.sure_pad count)
    refine .after always_get fun b => ?_
    split
    · exact .after (always_throw _) fun _ => (hrest _ _).atomic
    · exact (hrest _ _).atomic
  | bytes code => exact (sure_append code).atomic
  | _ => exact hplain _

namespace A64

theorem sure_emitWord (word : Word) : Sure (emitWord word) :=
  sure_emitInstruction _

private theorem sure_emitPair (first second : Word) : Sure (emitPair first second) :=
  sure_emitInstruction _

def Encoder.Total (encoder : Encoder) : Prop :=
  ∀ offset, ∃ word, encoder offset = .ok word

private theorem sure_emitAll {encoders : List Encoder} (h : ∀ encoder ∈ encoders, encoder.Total) :
    Sure (emitAll encoders) := by
  induction encoders with
  | nil => exact never_pure _
  | cons encoder rest ih =>
    have hrest := ih fun e he => h e (List.mem_cons_of_mem _ he)
    refine never_get.bind fun b => ?_
    obtain ⟨word, hword⟩ := h encoder (List.mem_cons_self ..) b.size
    rw [hword]
    exact (sure_emitWord word).bind fun _ => hrest

theorem emitAll_atomic (first : Encoder) {rest : List Encoder}
    (h : ∀ encoder ∈ rest, encoder.Total) : Atomic (Appends #[]) (emitAll (first :: rest)) :=
  .after always_get fun _ => .after (always_checked _) fun word =>
    Sure.atomic ((sure_emitWord word).bind fun _ => sure_emitAll h)

private theorem emitOne_atomic (encoder : Encoder) : Atomic (Appends #[]) (emitAll [encoder]) :=
  emitAll_atomic encoder fun _ h => nomatch h

theorem position_lt_of_mem_constantMoves {value : BitVec 64} {m : MoveWide × BitVec 16 × Nat}
    (h : m ∈ constantMoves value) : m.2.2 < 4 := by
  have hmap : ∀ (move : MoveWide) (p : Nat → Bool) (positions : List Nat),
      (∀ i ∈ positions, i < 4) →
      ∀ m ∈ (positions.filter p).map (fun i => (move, halfword value i, i)), m.2.2 < 4 := by
    intro move p positions hlt m hm
    obtain ⟨i, hi, rfl⟩ := List.mem_map.mp hm
    exact hlt i (List.mem_filter.mp hi).1
  simp only [constantMoves] at h
  split at h
  · split at h
    · split at h
      · simp only [List.mem_singleton] at h
        simp [h]
      · simp only [List.mem_cons, List.not_mem_nil, or_false] at h
        rcases h with rfl | rfl <;> simp
    · rcases List.mem_cons.mp h with rfl | h
      · simp
      · exact hmap _ _ [1, 0] (by decide) m h
  · split at h
    · simp only [List.mem_singleton] at h
      simp [h]
    · next first rest hfilter =>
      have hall : ∀ i ∈ first :: rest, i < 4 := by
        intro i hi
        rw [← hfilter] at hi
        have hmem := (List.mem_filter.mp hi).1
        simp only [List.mem_cons, List.not_mem_nil, or_false] at hmem
        omega
      rcases List.mem_cons.mp h with rfl | h
      · exact hall first (List.mem_cons_self ..)
      · obtain ⟨i, hi, rfl⟩ := List.mem_map.mp h
        exact hall i (List.mem_cons_of_mem _ hi)

theorem moveWide_total (move : MoveWide) {rd : Register} (imm : BitVec 16) {position : Nat}
    (hrd : rd.slot .zero ≠ none) (hposition : position < 4) :
    Encoder.Total (moveWide move rd imm position) := by
  intro offset
  obtain ⟨number, hnumber⟩ := Option.ne_none_iff_exists'.mp hrd
  have hhw : position < 1 <<< 2 := hposition
  simp only [moveWide, unsignedField, if_pos hhw, registerField, hnumber]
  exact ⟨_, rfl⟩

/-- The destination of a constant is checked once, before the first move. -/
theorem loadConstant_atomic (rd : Register) (value : BitVec 64) :
    Atomic (Appends #[]) (emitAll (loadConstant rd value)) := by
  simp only [loadConstant]
  split
  · exact emitOne_atomic _
  · next hrd =>
    split
    · exact emitOne_atomic _
    · apply Sure.atomic
      apply sure_emitAll
      intro encoder hencoder
      obtain ⟨m, hm, rfl⟩ := List.mem_map.mp hencoder
      exact moveWide_total _ _ hrd (position_lt_of_mem_constantMoves hm)

private theorem align_atomic (alignment : Nat) : Atomic (Appends #[]) (align alignment) := by
  have hnops : ∀ n, Sure (emitNops n) := by
    intro n
    induction n with
    | zero => exact never_pure _
    | succ n ih => exact (sure_emitWord _).bind fun _ => ih
  refine .after always_get fun b => ?_
  split
  · exact (always_checked _).atomic
  · exact (hnops _).atomic

private theorem run_atomic {operation : Operation}
    (h : ∀ dst pp position, operation ≠ .loadFromPool dst pp position) :
    Atomic (Appends #[]) operation.run := by
  cases operation with
  | word word => exact emitOne_atomic fun _ => .ok word
  | nop => exact emitOne_atomic fun _ => .ok wordNop
  | align alignment => exact align_atomic alignment
  | loadConstant rd value => exact loadConstant_atomic rd value
  | loadFromPool dst pp position => exact absurd rfl (h dst pp position)
  | _ => exact emitOne_atomic _

end A64

/-! ## Branches and bindings

A label that the work adopts had no owner, so it is fresh: it has no branch that a link could be
too long for and none that a binding could fail at.
-/

namespace Link

private theorem sure_onBuffer {α : Type} {work : Emit α} (h : Sure work) : Sure (onBuffer work) :=
  fun ⟨b, _⟩ => ends_onBuffer.mpr (h b)

private theorem sure_notify (notice : Notice) : Sure (notify notice) :=
  sure_onBuffer (never_modify _)

private theorem sure_push (chain : Chain) (site : Nat) : Sure (push chain site) := by
  intro s
  simp only [push, ends_bind, ends_get]
  cases s.label.place with
  | bound p => rfl
  | unbound heads =>
    have hcount : Sure (onBuffer addPending) := sure_onBuffer (never_modify _)
    exact (Never.ite (hcount.bind fun _ => never_modify _) (never_modify _)) s

private theorem sure_settle (position : Nat) : Sure (settle position) := by
  have hremove : Sure removePending :=
    never_get.bind fun _ => .ite ((never_throw rfl).bind fun _ => never_modify _) (never_modify _)
  have hrest : Sure (do
      notify (.labelBound position)
      modify fun s => { s with label := { s.label with place := .bound position } } : Link Unit) :=
    (sure_notify _).bind fun _ => never_modify _
  exact never_get.bind fun _ => .ite ((sure_onBuffer hremove).bind fun _ => hrest) hrest

theorem adopt_fresh {s : Linking} (h : s.label = Label.fresh) {α : Type} {next : Unit → Link α}
    {ok : α → Linking → Prop} {err : Failure → Linking → Prop} :
    Ends (adopt >>= next) s ok err ↔
      Ends (next ()) ⟨s.buffer, Label.fresh.ownedBy s.buffer.id⟩ ok err := by
  obtain ⟨b, l⟩ := s
  cases h
  exact Iff.rfl

theorem linkBack_fresh {b : CodeBuffer} {id site : Nat} (chain : Chain) {after : Int → Link Unit}
    {ok : Unit → Linking → Prop} {err : Failure → Linking → Prop} :
    Ends (do
        let link ← asserted (linkBack site ((← get).label.head chain))
        after link) ⟨b, Label.fresh.ownedBy id⟩ ok err ↔
      Ends (after 0) ⟨b, Label.fresh.ownedBy id⟩ ok err := by
  cases chain <;> exact Iff.rfl

end Link

open Link

theorem DispField.fits_zero (f : DispField) : f.Fits 0 := by
  cases f <;> decide

/-- The code, the count of pending labels and the label are as before. -/
structure Intact (s t : Linking) : Prop where
  buffer : Appends #[] s.buffer t.buffer
  label : t.label = s.label

private theorem Intact.refl (s : Linking) : Intact s s :=
  ⟨.refl _, rfl⟩

/-- Refused work leaves a label that has an owner; a label without one needs a look of its own. -/
private theorem intact_of_refused {s : Linking} {work : Link Unit} {ok : Unit → Linking → Prop}
    (hends : Ends work s ok (fun _ t => Refused s t))
    (hfresh : s.label.owner = none → s.label.place = .unbound Heads.none)
    (hfirst : s.label = Label.fresh →
      Ends work s (fun _ _ => True) (fun failure t => failure.isObjection = true → t = s)) :
    Ends work s (fun _ _ => True) (fun failure t => failure.isObjection = true → Intact s t) := by
  cases howner : s.label.owner with
  | none =>
    have hlabel : s.label = Label.fresh := Label.eq_of_fields (hfresh howner) howner
    apply (hfirst hlabel).mono
    · exact fun _ _ _ => trivial
    · intro failure t ht hobjection
      rw [ht hobjection]
      exact .refl s
  | some id =>
    apply hends.mono
    · exact fun _ _ _ => trivial
    · intro failure t ht _
      rcases ht.label with hsame | ⟨hnone, -⟩
      · exact ⟨ht.buffer, hsame⟩
      · rw [howner] at hnone
        cases hnone

namespace A64

private theorem emitJump_first (word : Word) {s : Linking} (h : s.label = Label.fresh) :
    Ends (emitJump word) s (fun _ _ => True) (fun failure _ => failure.isObjection = false) := by
  rw [emitJump, adopt_fresh h, ends_bind, ends_size, ends_bind, ends_get]
  refine (linkBack_fresh .wide).mpr ?_
  rw [if_pos (DispField.fits_zero _)]
  exact ((sure_asserted _).bind fun _ => (sure_onBuffer (sure_emitWord _)).bind fun _ =>
    (sure_push _ _).bind fun _ => sure_notify _) _

private theorem emitConditional_first (far : Bool) (word : Word) {s : Linking}
    (h : s.label = Label.fresh) :
    Ends (emitConditional far word) s (fun _ _ => True)
      (fun failure _ => failure.isObjection = false) := by
  have hrest : ∀ chain site, Sure (do
      Link.push chain site
      notify (.linked .conditional site)) :=
    fun _ _ => (sure_push _ _).bind fun _ => sure_notify _
  rw [emitConditional, adopt_fresh h, ends_bind, ends_size, ends_bind, ends_get]
  refine (linkBack_fresh _).mpr ?_
  cases far with
  | true =>
    simp only [if_true, if_pos (DispField.fits_zero _)]
    exact ((sure_asserted _).bind fun _ => (sure_asserted _).bind fun _ =>
      (sure_onBuffer (sure_emitPair _ _)).bind fun _ => hrest _ _) _
  | false =>
    simp only [Bool.false_eq_true, if_false, if_pos (DispField.fits_zero _)]
    exact ((sure_asserted _).bind fun _ => (sure_onBuffer (sure_emitWord _)).bind fun _ =>
      hrest _ _) _

private theorem branch_first (far : Bool) (branch : Branch) {s : Linking}
    (h : s.label = Label.fresh) :
    Ends (branch.run far) s (fun _ _ => True)
      (fun failure t => failure.isObjection = true → t = s) := by
  cases branch with
  | jump link => exact (emitJump_first _ h).unobjecting
  | onCondition condition =>
    cases condition with
    | al => exact (emitJump_first _ h).unobjecting
    | nv => exact fun _ => rfl
    | _ => exact (emitConditional_first far _ h).unobjecting
  | compare nonzero rt width =>
    rw [Branch.run, ends_bind, ends_size, ends_bind, ends_checked]
    exact ⟨fun word _ => (emitConditional_first far word h).unobjecting, fun _ _ _ => rfl⟩
  | test set rt bit =>
    rw [Branch.run, ends_bind, ends_size, ends_bind, ends_checked]
    exact ⟨fun word _ => (emitConditional_first far word h).unobjecting, fun _ _ _ => rfl⟩

private theorem sure_applyPatches (patches : List (Nat × Patch)) : Sure (applyPatches patches) := by
  induction patches with
  | nil => exact never_pure _
  | cons first rest ih =>
    obtain ⟨site, patch⟩ := first
    cases patch with
    | single word => exact (sure_store _ _).bind fun _ => ih
    | pair word second shrunk =>
      exact (sure_store _ _).bind fun _ => (sure_store _ _).bind fun _ =>
        (never_modify _).bind fun _ => ih

end A64

namespace X86

private theorem emitJump_first (jump : Jump) (distance : Distance) {s : Linking}
    (h : s.label = Label.fresh) :
    Ends (emitJump jump distance) s (fun _ _ => True)
      (fun failure _ => failure.isObjection = false) := by
  rw [emitJump, adopt_fresh h, ends_bind, ends_size, ends_bind, ends_onBuffer]
  apply (sure_makeRoom s.buffer).mono
  · intro _ b _
    rw [ends_bind, ends_get]
    cases distance with
    | near =>
      refine (linkBack_fresh .near).mpr ?_
      rw [if_pos (DispField.fits_zero _)]
      exact ((sure_onBuffer (sure_putInstruction _)).bind fun _ => (sure_push _ _).bind fun _ =>
        sure_notify _) _
    | far =>
      refine (linkBack_fresh .wide).mpr ?_
      rw [if_pos (DispField.fits_zero _)]
      exact ((sure_onBuffer (sure_putInstruction _)).bind fun _ => (sure_push _ _).bind fun _ =>
        sure_notify _) _
  · exact fun _ _ hf => hf

private theorem emitCall_first {s : Linking} (h : s.label = Label.fresh) :
    Ends emitCall s (fun _ _ => True) (fun failure _ => failure.isObjection = false) := by
  rw [emitCall, adopt_fresh h, ends_bind, ends_size]
  refine (linkBack_fresh .wide).mpr ?_
  rw [if_pos (DispField.fits_zero _)]
  exact ((sure_onBuffer (sure_emitInstruction _)).bind fun _ => (sure_push _ _).bind fun _ =>
    sure_notify _) _

private theorem branch_first (branch : Branch) {s : Linking} (h : s.label = Label.fresh) :
    Ends branch.run s (fun _ _ => True) (fun failure t => failure.isObjection = true → t = s) := by
  cases branch with
  | jump jump distance => exact (emitJump_first jump distance h).unobjecting
  | call => exact (emitCall_first h).unobjecting

private theorem sure_applyPatches (patches : List (Nat × List Byte)) :
    Sure (applyPatches patches) := by
  induction patches with
  | nil => exact never_pure _
  | cons first rest ih => exact (sure_store _ _).bind fun _ => ih

end X86

private theorem binding_first {α : Type}
    {pending : CodeBuffer → Label → Nat → Except Failure (List (Nat × α))}
    {write : List (Nat × α) → Emit Unit} (hwrite : ∀ patches, Sure (write patches)) {s : Linking}
    (h : s.label = Label.fresh)
    (hpending : ∀ id, ∃ patches,
      pending s.buffer (Label.fresh.ownedBy id) s.buffer.size = .ok patches) :
    Ends (binding pending write) s (fun _ _ => True)
      (fun failure t => failure.isObjection = true → t = s) := by
  apply Ends.unobjecting
  have hunbound : s.label.position? = none := by
    rw [h]
    rfl
  obtain ⟨patches, hpatches⟩ := hpending s.buffer.id
  rw [binding, ends_bind, requireUnbound, ends_bind, ends_get]
  simp only [hunbound, ends_pure]
  rw [adopt_fresh h, ends_bind, ends_size, ends_bind, ends_get]
  simp only [hpatches]
  exact ((sure_onBuffer (hwrite patches)).bind fun _ => (sure_settle _).bind fun _ =>
    sure_notify _) _

private theorem X86.bind_first {s : Linking} (h : s.label = Label.fresh) :
    Ends X86.bind s (fun _ _ => True) (fun failure t => failure.isObjection = true → t = s) := by
  rw [X86.bind_eq_binding]
  exact binding_first X86.sure_applyPatches h fun _ => ⟨[], rfl⟩

private theorem A64.bind_first (far : Bool) {s : Linking} (h : s.label = Label.fresh) :
    Ends (A64.bind far) s (fun _ _ => True)
      (fun failure t => failure.isObjection = true → t = s) := by
  rw [A64.bind_eq_binding]
  exact binding_first A64.sure_applyPatches h fun _ => ⟨[], rfl⟩

/-! ## Requests -/

/-- The assembler is still there, with the code and the count of pending labels that it had, and no
label has changed. -/
def Kept (a : Assembler) (labels : Labels) (served : Served) : Prop :=
  (∃ b, served.1 = some ⟨a.target, b⟩ ∧ Appends #[] a.buffer b) ∧
    ∀ name, served.2.1.get name = labels.get name

section

variable {target : Target} {buffer : CodeBuffer} {labels : Labels} {failure : Failure}

private theorem onBuffer_kept {work : Emit Reply}
    (hwork : Ends work buffer (fun _ _ => True)
      (fun failure b => failure.isObjection = true → Appends #[] buffer b))
    (hfailed : (onBuffer target buffer labels work).2.2 = .failed failure)
    (hobjection : failure.isObjection = true) :
    Kept ⟨target, buffer⟩ labels (onBuffer target buffer labels work) := by
  simp only [Ends] at hwork
  simp only [onBuffer] at hfailed ⊢
  cases hresult : work buffer with
  | ok reply b =>
    rw [hresult] at hfailed
    cases hfailed
  | error failure' b =>
    rw [hresult] at hfailed hwork
    cases hfailed
    exact ⟨⟨b, rfl, hwork hobjection⟩, fun _ => rfl⟩

private theorem onLabel_kept {name : String} {work : Link Unit}
    (hwork : Ends work ⟨buffer, labels.get name⟩ (fun _ _ => True)
      (fun failure t => failure.isObjection = true → Intact ⟨buffer, labels.get name⟩ t))
    (hfailed : (onLabel target buffer labels name work).2.2 = .failed failure)
    (hobjection : failure.isObjection = true) :
    Kept ⟨target, buffer⟩ labels (onLabel target buffer labels name work) := by
  simp only [Ends] at hwork
  simp only [onLabel] at hfailed ⊢
  cases hresult : work ⟨buffer, labels.get name⟩ with
  | ok reply t =>
    rw [hresult] at hfailed
    cases hfailed
  | error failure' t =>
    rw [hresult] at hfailed hwork
    cases hfailed
    have hintact := hwork hobjection
    refine ⟨⟨t.buffer, rfl, hintact.buffer⟩, fun other => ?_⟩
    simp only [hintact.label]
    exact labels.get_set_get name other

end

/-- An assembler that objects to a request keeps everything. Hand-over takes the assembler away,
and loads from the object pool are atomic only as far as `hpool` says. -/
theorem Assembler.serve_kept {a : Assembler} {labels : Labels} {ledger : Ledger}
    (h : Agrees labels a ledger)
    (hfresh : ∀ name, (labels.get name).owner = none →
      (labels.get name).place = .unbound Heads.none)
    (htarget : a.target ≠ .bare) {request : Request} (hhand : request ≠ .handOver)
    (hpool : ∀ dst pp position, request = .a64 (.loadFromPool dst pp position) →
      a.target ≠ .x86 → Ends (A64.emitAll (A64.loadFromPool dst pp position)) a.buffer
        (fun _ _ => True) (fun failure b => failure.isObjection = true → Appends #[] a.buffer b))
    {failure : Failure} (hfailed : (a.serve labels request).2.2 = .failed failure)
    (hobjection : failure.isObjection = true) : Kept a labels (a.serve labels request) := by
  obtain ⟨target, buffer⟩ := a
  have hasked : ∀ value : CodeBuffer → Except Violation Int,
      (askAsserted target buffer labels value).2.2 = .failed failure →
      Kept ⟨target, buffer⟩ labels (askAsserted target buffer labels value) := by
    intro value hvalue
    simp only [askAsserted] at hvalue ⊢
    cases value buffer <;> exact ⟨⟨buffer, rfl, .refl buffer⟩, fun _ => rfl⟩
  have hrefused : Outcome.failed .refused = .failed failure → False := by
    intro heq
    cases heq
    cases hobjection
  cases request with
  | size | isEmpty | capacity | unresolved | bytes | unused => cases hfailed
  | farBranches =>
    cases target with
    | a64 far => cases hfailed
    | x86 => exact (hrefused hfailed).elim
    | bare => exact (hrefused hfailed).elim
  | loadByte offset => exact hasked _ hfailed
  | loadWord offset => exact hasked _ hfailed
  | loadSigned offset => exact hasked _ hfailed
  | copyOver destination =>
    exact onBuffer_kept ((copyOver_still destination).map.atomic buffer) hfailed hobjection
  | handOver => exact absurd rfl hhand
  | bare write =>
    cases target with
    | bare => exact absurd rfl htarget
    | x86 => exact (hrefused hfailed).elim
    | a64 far => exact (hrefused hfailed).elim
  | x86 operation =>
    cases target with
    | x86 => exact onBuffer_kept ((X86.run_atomic operation).map buffer) hfailed hobjection
    | a64 far => exact (hrefused hfailed).elim
    | bare => exact absurd rfl htarget
  | a64 operation =>
    cases target with
    | a64 far =>
      refine onBuffer_kept (ends_map.mpr ?_) hfailed hobjection
      by_cases hload : ∃ dst pp position, operation = .loadFromPool dst pp position
      · obtain ⟨dst, pp, position, rfl⟩ := hload
        exact hpool dst pp position rfl (by simp)
      · exact A64.run_atomic (fun dst pp position heq => hload ⟨dst, pp, position, heq⟩) buffer
    | x86 => exact (hrefused hfailed).elim
    | bare => exact absurd rfl htarget
  | x86Branch name branch =>
    cases target with
    | x86 =>
      refine onLabel_kept (intact_of_refused (X86.branch_ends branch _).err_left (hfresh name) ?_)
        hfailed hobjection
      intro hlabel
      exact X86.branch_first branch hlabel
    | a64 far => exact (hrefused hfailed).elim
    | bare => exact absurd rfl htarget
  | a64Branch name branch =>
    cases target with
    | a64 far =>
      refine onLabel_kept
        (intact_of_refused (A64.branch_ends far branch _).err_left (hfresh name) ?_)
        hfailed hobjection
      intro hlabel
      exact A64.branch_first far branch hlabel
    | x86 => exact (hrefused hfailed).elim
    | bare => exact absurd rfl htarget
  | bind name =>
    cases target with
    | x86 =>
      have hthread := h.threaded (by simp) (hfresh name)
      refine onLabel_kept (intact_of_refused (X86.bind_ends h.granted h.stacked hthread).err_left
        (hfresh name) ?_) hfailed hobjection
      exact X86.bind_first
    | a64 far =>
      have hthread := h.threaded (by simp) (hfresh name)
      refine onLabel_kept (intact_of_refused (A64.bind_ends h.granted h.stacked hthread).err_left
        (hfresh name) ?_) hfailed hobjection
      exact A64.bind_first far
    | bare => exact absurd rfl htarget

def Outcome.error? : Outcome → Option EmitError
  | .failed (.error cause) => some cause
  | _ => none

theorem Outcome.eq_of_error? {outcome : Outcome} {cause : EmitError}
    (h : outcome.error? = some cause) : outcome = .failed (.error cause) := by
  cases outcome with
  | reply reply => cases h
  | failed failure =>
    cases failure with
    | error e =>
      cases h
      rfl
    | violation v => cases h
    | refused => cases h

namespace Session

/-- The request left every label alone and the code of assembler `i`, unless it was to take the
assembler away. -/
structure Untouched (s : Session) (i : Nat) (request : Request) : Prop where
  labels : ∀ name, (s.step i request).1.labels.get name = s.labels.get name
  code : request ≠ .handOver → ∀ a, s.assembler? i = some a →
    ∃ b, (s.step i request).1.assembler? i = some b ∧ b.target = a.target ∧
      b.buffer.bytes = a.buffer.bytes ∧ b.buffer.size = a.buffer.size ∧
      b.buffer.unresolved = a.buffer.unresolved

theorem Consistent.untouched {s : Session} {ledgers : Nat → Ledger} (h : Consistent s ledgers)
    {i : Nat} {a : Assembler} (ha : s.assembler? i = some a) (htarget : a.target ≠ .bare)
    {request : Request}
    (hpool : ∀ dst pp position, request = .a64 (.loadFromPool dst pp position) →
      a.target ≠ .x86 → Ends (A64.emitAll (A64.loadFromPool dst pp position)) a.buffer
        (fun _ _ => True) (fun failure b => failure.isObjection = true → Appends #[] a.buffer b))
    {cause : EmitError} (hfailed : (s.step i request).2 = .failed (.error cause))
    (hmemory : cause.isMemory = false) : s.Untouched i request := by
  obtain ⟨-, hagrees⟩ := h.agrees i a ha
  have hserved : (a.serve s.labels request).2.2 = .failed (.error cause) := by
    rw [← hfailed, step_eq ha]
  have hlabels : (s.step i request).1.labels = (a.serve s.labels request).2.1 := by
    rw [step_eq ha]
  by_cases hhand : request = .handOver
  · refine ⟨fun name => ?_, fun hne => absurd hhand hne⟩
    rw [hlabels, hhand]
    simp only [Assembler.serve]
    cases a.buffer.handOver <;> rfl
  · obtain ⟨⟨b, hb, happ⟩, hget⟩ :=
      Assembler.serve_kept hagrees h.fresh htarget hhand hpool hserved
        (Failure.isObjection_error hmemory)
    refine ⟨fun name => by rw [hlabels, hget], fun _ a' ha' => ?_⟩
    obtain rfl : a = a' := by simpa [ha] using ha'
    refine ⟨⟨a.target, b⟩, ?_, rfl, ?_, ?_, happ.unresolved⟩
    · rw [assembler?_step ha, if_pos rfl, hb]
    · simpa using happ.bytes
    · simpa using happ.size

end Session

open Session

/-- In every state that a session can reach, an x86-64 assembler that fails for another reason than
memory has changed neither its code nor its count of pending labels nor any label. -/
theorem X86.error_untouched (events : List Event) {i : Nat} {a : Assembler}
    (ha : (empty.run events).assembler? i = some a) (htarget : a.target = .x86) {request : Request}
    {cause : EmitError} (hfailed : answer events i request = .failed (.error cause))
    (hmemory : cause.isMemory = false) : (empty.run events).Untouched i request := by
  refine (consistent_run events).untouched ha (by simp [htarget]) ?_ hfailed hmemory
  intro dst pp position _ hne
  exact absurd htarget hne

/-- A pending jump, and code up to where the block has to grow for the next instruction. -/
private def crowdedRun : List Event :=
  [.add 4096 .x86 { Options.standard with initialCapacity := 64 },
   .request 0 (.x86Branch "out" (.jump .always .far)),
   .request 0 (.x86 (.bytes (List.replicate 27 0x90#8)))]

/-- The block has grown by the time the immediate turns out to need the scratch register. -/
theorem X86.crowdedRun_untouched :
    answer crowdedRun 0 (.x86 (.aluImm .add (.reg .tmp) 0x100000000)) =
        .failed (.error (.invalidOperands .scratchNeeded (some 32))) ∧
      (empty.run crowdedRun).Untouched 0 (.x86 (.aluImm .add (.reg .tmp) 0x100000000)) := by
  obtain ⟨a, ha, htarget⟩ := Option.map_eq_some_iff.mp
    (show ((empty.run crowdedRun).assembler? 0).map (·.target) = some .x86 by decide +kernel)
  have hfailed : answer crowdedRun 0 (.x86 (.aluImm .add (.reg .tmp) 0x100000000)) =
      .failed (.error (.invalidOperands .scratchNeeded (some 32))) :=
    Outcome.eq_of_error? (by decide +kernel)
  exact ⟨hfailed, X86.error_untouched crowdedRun ha htarget hfailed rfl⟩

end MachineCode
