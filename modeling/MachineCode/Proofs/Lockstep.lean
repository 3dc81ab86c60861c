import MachineCode.Proofs.Assertions

/-!
# Work in two buffers at once

Two buffers that hold the same code may differ in their storage. Started in both, work gives the
same answer and leaves the same code behind, unless one of them runs out of memory. The rules follow
the structure of the work; a run of it in one buffer does not have to grow where the other does.
-/

namespace MachineCode

open CodeBuffer

/-- The results of work in two states: one run is out of memory, or both have the same answer. The
states are then related by `R` after success and by `E` after failure. -/
inductive SameEnd {σ α : Type} (E R : σ → σ → Prop) :
    EStateM.Result Failure σ α → EStateM.Result Failure σ α → Prop
  | left {e : Failure} {s : σ} {y : EStateM.Result Failure σ α} (isMemory : e.isMemory = true) :
    SameEnd E R (.error e s) y
  | right {x : EStateM.Result Failure σ α} {f : Failure} {t : σ} (isMemory : f.isMemory = true) :
    SameEnd E R x (.error f t)
  | ok {a : α} {s t : σ} (related : R s t) : SameEnd E R (.ok a s) (.ok a t)
  | error {e : Failure} {s t : σ} (related : E s t) : SameEnd E R (.error e s) (.error e t)

/-- Started in states related by `R`, the work ends alike. -/
def Lockstep {σ α : Type} (E R R' : σ → σ → Prop) (work : EStateM Failure σ α) : Prop :=
  ∀ s t, R s t → SameEnd E R' (work s) (work t)

section

variable {σ α β : Type} {E R R' R'' : σ → σ → Prop}

private theorem Lockstep.bind {work : EStateM Failure σ β} {next : β → EStateM Failure σ α}
    (h : Lockstep E R R' work) (hnext : ∀ b, Lockstep E R' R'' (next b)) :
    Lockstep E R R'' (work >>= next) := by
  intro s t hst
  have hwork := h s t hst
  simp only [Bind.bind, EStateM.bind]
  generalize work s = x, work t = y at hwork ⊢
  cases hwork with
  | left isMemory => exact .left isMemory
  | right isMemory => exact .right isMemory
  | ok related => exact hnext _ _ _ related
  | error related => exact .error related

theorem Lockstep.map {f : β → α} {work : EStateM Failure σ β} (h : Lockstep E R R' work) :
    Lockstep E R R' (f <$> work) := by
  intro s t hst
  have hwork := h s t hst
  simp only [Functor.map, EStateM.map]
  generalize work s = x, work t = y at hwork ⊢
  cases hwork with
  | left isMemory => exact .left isMemory
  | right isMemory => exact .right isMemory
  | ok related => exact .ok related
  | error related => exact .error related

private theorem Lockstep.ite {p : Prop} [Decidable p] {yes no : EStateM Failure σ α}
    (hyes : Lockstep E R R' yes) (hno : Lockstep E R R' no) :
    Lockstep E R R' (if p then yes else no) := by
  split
  · exact hyes
  · exact hno

private theorem lockstep_pure (a : α) : Lockstep E R R (pure a : EStateM Failure σ α) :=
  fun _ _ h => .ok h

private theorem lockstep_get {next : σ → EStateM Failure σ α}
    (hsame : ∀ s t, R s t → next s = next t) (hnext : ∀ s, Lockstep E R R' (next s)) :
    Lockstep E R R' (get >>= next) := by
  intro s t hst
  change SameEnd E R' (next s s) (next t t)
  rw [← hsame s t hst]
  exact hnext s s t hst

private theorem lockstep_modify {f : σ → σ} (h : ∀ s t, R s t → R' (f s) (f t)) :
    Lockstep E R R' (modify f) :=
  fun s t hst => .ok (h s t hst)

private theorem lockstep_throw (hE : ∀ s t, R s t → E s t) (e : Failure) :
    Lockstep E R R' (throw e : EStateM Failure σ α) :=
  fun s t hst => .error (hE s t hst)

private theorem lockstep_checked (hE : ∀ s t, R s t → E s t) {result : Except EmitError β}
    {next : β → EStateM Failure σ α} (hnext : ∀ b, result = .ok b → Lockstep E R R' (next b)) :
    Lockstep E R R' (checked result >>= next) := by
  cases result with
  | ok b => exact hnext b rfl
  | error e => exact lockstep_throw hE _

private theorem lockstep_asserted (hE : ∀ s t, R s t → E s t) (result : Except Violation β)
    {next : β → EStateM Failure σ α} (hnext : ∀ b, Lockstep E R R' (next b)) :
    Lockstep E R R' (asserted result >>= next) := by
  cases result with
  | ok b => exact hnext b
  | error v => exact lockstep_throw hE _

end

/-! ## Buffers -/

namespace CodeBuffer

/-- The buffers differ at most in their storage. -/
structure Alike (b c : CodeBuffer) : Prop where
  id : b.id = c.id
  bytes : b.bytes = c.bytes
  unresolved : b.unresolved = c.unresolved

theorem Alike.size {b c : CodeBuffer} (h : Alike b c) : b.size = c.size := by
  rw [← size_bytes, h.bytes, size_bytes]

structure Roomy (b c : CodeBuffer) : Prop extends Alike b c where
  left : b.size + instructionGap ≤ b.capacity
  right : c.size + instructionGap ≤ c.capacity

private theorem Alike.appends {b c b' c' : CodeBuffer} {tail : Array Byte} (h : Alike b c)
    (hb : Appends tail b b') (hc : Appends tail c c') : Alike b' c' where
  id := by rw [hb.id, hc.id, h.id]
  bytes := by rw [hb.bytes, hc.bytes, h.bytes]
  unresolved := by rw [hb.unresolved, hc.unresolved, h.unresolved]

/-- Work with one outcome, want of memory apart. -/
private theorem lockstep_of_ends {R R' : CodeBuffer → CodeBuffer → Prop} {work : Emit Unit}
    (ok : CodeBuffer → CodeBuffer → Prop)
    (hends : ∀ s t, R s t →
      Ends work s (fun _ s' => ok s s') (fun e _ => e.isMemory = true) ∧
        Ends work t (fun _ t' => ok t t') (fun e _ => e.isMemory = true))
    (hok : ∀ s t s' t', R s t → ok s s' → ok t t' → R' s' t') : Lockstep Alike R R' work := by
  intro s t hst
  obtain ⟨hs, ht⟩ := hends s t hst
  simp only [Ends] at hs ht
  cases hrun : work s with
  | ok a s' =>
    cases hrun' : work t with
    | ok b t' =>
      rw [hrun] at hs
      rw [hrun'] at ht
      exact .ok (hok s t s' t' hst hs ht)
    | error f t' =>
      rw [hrun'] at ht
      exact .right ht
  | error e s' =>
    rw [hrun] at hs
    exact .left hs

private theorem makeRoom_lockstep : Lockstep Alike Alike Roomy makeRoom := by
  refine lockstep_of_ends
    (fun b c => Appends #[] b c ∧ c.size + instructionGap ≤ c.capacity) ?_ ?_
  · exact fun s t _ => ⟨(makeRoom_ends s).err_right, (makeRoom_ends t).err_right⟩
  · exact fun s t s' t' h hs ht => ⟨h.appends hs.1 ht.1, hs.2, ht.2⟩

private theorem putInstruction_lockstep {bytes : List Byte}
    (short : bytes.length ≤ instructionGap) :
    Lockstep Alike Roomy Alike (putInstruction bytes) := by
  refine lockstep_of_ends (fun b c => Appends bytes.toArray b c) ?_ ?_
  · intro s t h
    have hput : ∀ b : CodeBuffer, b.size + instructionGap ≤ b.capacity →
        Ends (putInstruction bytes) b (fun _ c => Appends bytes.toArray b c)
          (fun e _ => e.isMemory = true) := fun b room =>
      (putInstruction_ends short room).mono (fun _ _ h => h) (fun _ _ h => h.elim)
    exact ⟨hput s h.left, hput t h.right⟩
  · exact fun s t s' t' h hs ht => h.toAlike.appends hs ht

private theorem emitInstruction_lockstep {bytes : List Byte}
    (short : bytes.length ≤ instructionGap) :
    Lockstep Alike Alike Alike (emitInstruction bytes) :=
  makeRoom_lockstep.bind fun _ => putInstruction_lockstep short

private theorem append_lockstep (bytes : List Byte) :
    Lockstep Alike Alike Alike (append bytes) := by
  refine lockstep_of_ends (fun b c => Appends bytes.toArray b c) ?_ ?_
  · exact fun s t _ => ⟨append_ends bytes s, append_ends bytes t⟩
  · exact fun s t s' t' h hs ht => h.appends hs ht

private theorem Alike.checkEmitted {b c : CodeBuffer} (h : Alike b c) :
    b.checkEmitted = c.checkEmitted := by
  have hcursor : b.cursor = c.cursor := h.size
  funext offset count
  simp only [CodeBuffer.checkEmitted, hcursor]

private theorem Alike.load {b c : CodeBuffer} (h : Alike b c) : b.load = c.load := by
  have hcode : ∀ (d : CodeBuffer) {offset count : Nat}, offset + count ≤ d.cursor →
      d.contents.extract offset (offset + count) = d.bytes.extract offset (offset + count) := by
    intro d offset count hle
    rw [CodeBuffer.bytes, Array.extract_extract]
    congr 1 <;> omega
  have hcursor : b.cursor = c.cursor := h.size
  funext w offset count
  simp only [CodeBuffer.load, h.checkEmitted]
  by_cases hle : offset + count ≤ c.cursor
  · rw [hcode b (hcursor ▸ hle), hcode c hle, h.bytes]
  · simp only [CodeBuffer.checkEmitted, if_pos (Nat.lt_of_not_le hle)]
    split <;> rfl

theorem Alike.loadByte {b c : CodeBuffer} (h : Alike b c) : b.loadByte = c.loadByte := by
  funext offset
  simp only [CodeBuffer.loadByte, h.load]

theorem Alike.loadWord {b c : CodeBuffer} (h : Alike b c) : b.loadWord = c.loadWord := by
  funext offset
  simp only [CodeBuffer.loadWord, h.load]

private theorem store_lockstep (offset : Nat) (bytes : List Byte) :
    Lockstep Alike Alike Alike (store offset bytes) := by
  intro b c h
  simp only [store, h.checkEmitted]
  cases c.checkEmitted offset bytes.length with
  | ok _ =>
    refine .ok ⟨h.id, ?_, h.unresolved⟩
    exact (bytes_store b offset bytes).trans (h.bytes ▸ (bytes_store c offset bytes).symm)
  | error v => exact .error h

private theorem notify_lockstep (notice : Notice) :
    Lockstep Alike Alike Alike (modify (notify notice)) :=
  lockstep_modify fun _ _ h => ⟨h.id, h.bytes, h.unresolved⟩

private theorem addPending_lockstep : Lockstep Alike Alike Alike addPending :=
  lockstep_modify fun _ _ h => ⟨h.id, h.bytes, congrArg (· + 1) h.unresolved⟩

private theorem removePending_lockstep : Lockstep Alike Alike Alike removePending := by
  have hless : Lockstep Alike Alike Alike
      (modify fun b : CodeBuffer => { b with unresolved := b.unresolved - 1 }) :=
    lockstep_modify fun _ _ h => ⟨h.id, h.bytes, congrArg (· - 1) h.unresolved⟩
  refine lockstep_get (fun _ _ h => by simp only [h.unresolved]) fun _ => .ite ?_ hless
  exact (lockstep_throw (fun _ _ h => h) _).bind fun _ => hless

theorem Alike.handOver {b c : CodeBuffer} (h : Alike b c) : b.handOver = c.handOver := by
  simp only [CodeBuffer.handOver, checkResolved, h.unresolved, h.bytes]

theorem copyOver_lockstep (destination : Array Byte) :
    Lockstep Alike Alike Alike (copyOver destination) := by
  intro b c h
  rw [copyOver_eq, copyOver_eq, h.size, h.bytes, h.unresolved, h.id]
  split
  · split
    · exact .error h
    · exact .ok ⟨h.id, h.bytes, h.unresolved⟩
  · exact .error h

end CodeBuffer

/-! ## Operations -/

namespace X86

private theorem pad_lockstep (count : Nat) : Lockstep Alike Alike Alike (pad count) := by
  have hnop : ∀ extra : Fin 8, Lockstep Alike Alike Alike
      (emitInstruction (Instr.nop extra).encode) := fun extra =>
    emitInstruction_lockstep (Nat.le_trans (length_nopBytes_le extra) (by decide))
  have hlong : ∀ n, Lockstep Alike Alike Alike (emitLongNops n) := by
    intro n
    induction n with
    | zero => exact lockstep_pure _
    | succ n ih => exact (hnop 7).bind fun _ => ih
  exact (hlong _).bind fun _ => .ite (hnop _) (lockstep_pure _)

private theorem align_lockstep (alignment offset : Nat) :
    Lockstep Alike Alike Alike (align alignment offset) := by
  have hthrow : ∀ e : Failure, Lockstep Alike Alike Alike (throw e : Emit PUnit) :=
    lockstep_throw fun _ _ h => h
  have hend : ∀ size : Nat, Lockstep Alike Alike Alike (do
      if offsetSpace ≤ size + offset then
        throw (.violation .addOverflow)
      pad (padding alignment (size + offset)) : Emit Unit) := fun size =>
    .ite ((hthrow _).bind fun _ => pad_lockstep _) (pad_lockstep _)
  refine lockstep_get (fun _ _ h => by simp only [h.size]) fun b => .ite ?_ (hend b.size)
  exact (hthrow _).bind fun _ => hend b.size

/-- The instructions are chosen after room is made, by the size alone. -/
theorem run_lockstep (operation : Operation) :
    Lockstep Alike Alike Alike operation.run := by
  have hplain : ∀ o : Operation, Lockstep Alike Alike Alike (do
      checked o.precheck
      makeRoom
      let instructions ← checked (o.instructions (← get).size)
      putInstruction (encodeAll instructions)) := by
    intro o
    refine lockstep_checked (fun _ _ h => h) fun _ _ => makeRoom_lockstep.bind fun _ => ?_
    refine lockstep_get (fun _ _ h => by simp only [h.toAlike.size]) fun b => ?_
    refine lockstep_checked (fun _ _ h => h.toAlike) fun instructions hinstructions => ?_
    exact putInstruction_lockstep (Operation.length_encodeAll_le hinstructions)
  cases operation with
  | align alignment offset => exact align_lockstep alignment offset
  | bytes code => exact append_lockstep code
  | _ => exact hplain _

end X86

namespace A64

private theorem emitWord_lockstep (word : Word) : Lockstep Alike Alike Alike (emitWord word) :=
  emitInstruction_lockstep (by simp [instructionGap])

private theorem emitPair_lockstep (first second : Word) :
    Lockstep Alike Alike Alike (emitPair first second) :=
  emitInstruction_lockstep (by simp [instructionGap])

private theorem emitAll_lockstep (encoders : List Encoder) :
    Lockstep Alike Alike Alike (emitAll encoders) := by
  induction encoders with
  | nil => exact lockstep_pure _
  | cons encoder rest ih =>
    refine lockstep_get (fun _ _ h => by simp only [h.size]) fun b => ?_
    refine lockstep_checked (fun _ _ h => h) fun word _ => ?_
    exact (emitWord_lockstep word).bind fun _ => ih

private theorem emitNops_lockstep (count : Nat) : Lockstep Alike Alike Alike (emitNops count) := by
  induction count with
  | zero => exact lockstep_pure _
  | succ count ih => exact (emitWord_lockstep _).bind fun _ => ih

theorem run_lockstep (operation : Operation) :
    Lockstep Alike Alike Alike operation.run := by
  cases operation with
  | align alignment =>
    refine lockstep_get (fun _ _ h => by simp only [h.size]) fun b => ?_
    exact .ite (lockstep_throw (fun _ _ h => h) _) (emitNops_lockstep _)
  | _ => exact emitAll_lockstep _

end A64

/-! ## Branches and bindings -/

/-- Related buffers with the same label. -/
structure Beside (R : CodeBuffer → CodeBuffer → Prop) (s t : Linking) : Prop where
  buffer : R s.buffer t.buffer
  label : s.label = t.label

namespace Link

private theorem onBuffer_lockstep {α : Type} {E R R' : CodeBuffer → CodeBuffer → Prop}
    {work : Emit α} (h : Lockstep E R R' work) :
    Lockstep (Beside E) (Beside R) (Beside R') (onBuffer work) := by
  rintro ⟨b, l⟩ ⟨c, m⟩ ⟨hbc, rfl : l = m⟩
  have hwork := h b c hbc
  simp only [onBuffer]
  generalize work b = x, work c = y at hwork ⊢
  cases hwork with
  | left isMemory => exact .left isMemory
  | right isMemory => exact .right isMemory
  | ok related => exact .ok ⟨related, rfl⟩
  | error related => exact .error ⟨related, rfl⟩

abbrev Linked {α : Type} (work : Link α) : Prop :=
  Lockstep (Beside Alike) (Beside Alike) (Beside Alike) work

private theorem fail_linked {α : Type} (error : EmitError) : Linked (fail error : Link α) :=
  lockstep_throw (fun _ _ h => h) _

private theorem asserted_linked {α β : Type} (result : Except Violation β) {next : β → Link α}
    (h : ∀ b, Linked (next b)) : Linked (asserted result >>= next) :=
  lockstep_asserted (fun _ _ h => h) result h

private theorem notify_linked (notice : Notice) : Linked (notify notice) :=
  onBuffer_lockstep (notify_lockstep notice)

private theorem size_linked {α : Type} {next : Nat → Link α} (h : ∀ n, Linked (next n)) :
    Linked (size >>= next) :=
  Lockstep.bind (lockstep_get (fun _ _ h => by rw [h.buffer.size]) fun _ => lockstep_pure _) h

private theorem adopt_linked : Linked adopt := by
  rintro ⟨b, l⟩ ⟨c, m⟩ ⟨hbc, rfl : l = m⟩
  have hid : b.id = c.id := hbc.id
  simp only [adopt, hid]
  cases l.owner with
  | none => exact .ok ⟨hbc, rfl⟩
  | some id =>
    by_cases hown : id = c.id
    · simp only [if_pos hown]
      exact .ok ⟨hbc, rfl⟩
    · simp only [if_neg hown]
      exact .error ⟨hbc, rfl⟩

private theorem requireUnbound_linked : Linked requireUnbound := by
  refine lockstep_get (fun _ _ h => by simp only [h.label]) fun s => ?_
  cases s.label.position? with
  | some position => exact fail_linked _
  | none => exact lockstep_pure _

private theorem place_linked (place : Place) :
    Linked (modify fun s => { s with label := { s.label with place } }) :=
  lockstep_modify fun _ _ h => ⟨h.buffer, congrArg (fun l => { l with place }) h.label⟩

private theorem push_linked (chain : Chain) (site : Nat) : Linked (push chain site) := by
  refine lockstep_get (fun _ _ h => by simp only [h.label]) fun s => ?_
  dsimp only
  cases s.label.place with
  | bound position => exact lockstep_throw (fun _ _ h => h) _
  | unbound heads =>
    exact .ite ((onBuffer_lockstep addPending_lockstep).bind fun _ => place_linked _)
      (place_linked _)

private theorem settle_linked (position : Nat) : Linked (settle position) := by
  have hrest : Linked (do
      notify (.labelBound position)
      modify fun s => { s with label := { s.label with place := .bound position } }) :=
    (notify_linked _).bind fun _ => place_linked _
  refine lockstep_get (fun _ _ h => by simp only [h.label]) fun s => .ite ?_ hrest
  exact (onBuffer_lockstep removePending_lockstep).bind fun _ => hrest

end Link

open Link

private theorem binding_linked {α : Type}
    {pending : CodeBuffer → Label → Nat → Except Failure (List (Nat × α))}
    {write : List (Nat × α) → Emit Unit}
    (hpending : ∀ b c, Alike b c → pending b = pending c)
    (hwrite : ∀ patches, Lockstep Alike Alike Alike (write patches)) :
    Linked (binding pending write) := by
  refine requireUnbound_linked.bind fun _ => adopt_linked.bind fun _ =>
    size_linked fun position => ?_
  refine lockstep_get (fun s t h => by simp only [hpending _ _ h.buffer, h.label]) fun s => ?_
  cases pending s.buffer s.label position with
  | error failure => exact lockstep_throw (fun _ _ h => h) _
  | ok patches =>
    exact (onBuffer_lockstep (hwrite patches)).bind fun _ => (settle_linked position).bind fun _ =>
      notify_linked _

namespace X86

private theorem emitJump_linked (jump : Jump) (distance : Distance) :
    Linked (emitJump jump distance) := by
  have hput : ∀ instr : Instr, Lockstep (Beside Alike) (Beside Roomy) (Beside Alike)
      (Link.onBuffer (putInstruction instr.encode)) := fun instr =>
    onBuffer_lockstep (putInstruction_lockstep (Nat.le_trans instr.length_encode_le (by decide)))
  have hroomy : ∀ s t, Beside Roomy s t → Beside Alike s t :=
    fun _ _ h => ⟨h.buffer.toAlike, h.label⟩
  have hfail : ∀ error, Lockstep (Beside Alike) (Beside Roomy) (Beside Alike)
      (fail error : Link Unit) := fun error => lockstep_throw hroomy _
  refine adopt_linked.bind fun _ => size_linked fun start =>
    (onBuffer_lockstep makeRoom_lockstep).bind fun _ => ?_
  refine lockstep_get (fun _ _ h => by simp only [h.label]) fun s => ?_
  cases s.label.position? with
  | some target => exact .ite (hput _) (.ite (hput _) (hfail _))
  | none =>
    cases distance with
    | near =>
      refine lockstep_get (fun _ _ h => by simp only [h.label]) fun s =>
        lockstep_asserted hroomy _ fun link => .ite ?_ (hfail _)
      exact (hput _).bind fun _ => (push_linked _ _).bind fun _ => notify_linked _
    | far =>
      refine lockstep_get (fun _ _ h => by simp only [h.label]) fun s =>
        lockstep_asserted hroomy _ fun link => .ite ?_ (hfail _)
      exact (hput _).bind fun _ => (push_linked _ _).bind fun _ => notify_linked _

private theorem emitCall_linked : Linked emitCall := by
  refine adopt_linked.bind fun _ => size_linked fun start => ?_
  refine lockstep_get (fun _ _ h => by simp only [h.label]) fun s => ?_
  have hrest : ∀ displacement : Int, Linked (do
      if DispField.rel32.Fits displacement then
        Link.onBuffer (emitInstruction (Instr.call (BitVec.ofInt 32 displacement)).encode)
        if !s.label.isBound then
          push .wide (start + 1)
          Link.notify (.linked .call (start + 1))
      else
        fail (.branchOutOfRange displacement DispField.rel32.max start)) := by
    intro displacement
    refine .ite ?_ (fail_linked _)
    refine (onBuffer_lockstep (emitInstruction_lockstep ?_)).bind fun _ => .ite ?_ (lockstep_pure _)
    · exact Nat.le_trans (Instr.length_encode_le _) (by decide)
    · exact (push_linked _ _).bind fun _ => notify_linked _
  dsimp only
  cases s.label.position? with
  | some target => exact hrest _
  | none => exact asserted_linked _ hrest

theorem branch_linked (branch : Branch) : Linked branch.run := by
  cases branch with
  | jump j distance => exact emitJump_linked j distance
  | call => exact emitCall_linked

private theorem applyPatches_lockstep (patches : List (Nat × List Byte)) :
    Lockstep Alike Alike Alike (applyPatches patches) := by
  induction patches with
  | nil => exact lockstep_pure _
  | cons patch rest ih => exact (store_lockstep _ _).bind fun _ => ih

theorem bind_linked : Linked bind := by
  rw [bind_eq_binding]
  refine binding_linked (fun b c h => ?_) applyPatches_lockstep
  have hnear : resolveNear b = resolveNear c := by
    funext position site
    simp only [resolveNear, h.loadByte]
  have hwide : resolveWide b = resolveWide c := by
    funext position site
    simp only [resolveWide, h.loadWord]
  funext label position
  simp only [pendingPatches, hnear, hwide]

end X86

namespace A64

private theorem emitJump_linked (opcode : Word) : Linked (emitJump opcode) := by
  refine adopt_linked.bind fun _ => size_linked fun site => ?_
  refine lockstep_get (fun _ _ h => by simp only [h.label]) fun s => ?_
  cases s.label.position? with
  | some target =>
    refine .ite (asserted_linked _ fun word => ?_) (fail_linked _)
    exact onBuffer_lockstep (emitWord_lockstep word)
  | none =>
    refine lockstep_get (fun _ _ h => by simp only [h.label]) fun s =>
      asserted_linked _ fun link => .ite (asserted_linked _ fun word => ?_) (fail_linked _)
    exact (onBuffer_lockstep (emitWord_lockstep word)).bind fun _ =>
      (push_linked _ _).bind fun _ => notify_linked _

private theorem emitConditional_linked (far : Bool) (word : Word) :
    Linked (emitConditional far word) := by
  have hword : ∀ single, Linked (Link.onBuffer (emitWord single)) := fun single =>
    onBuffer_lockstep (emitWord_lockstep single)
  have hpair : ∀ first second, Linked (Link.onBuffer (emitPair first second)) :=
    fun first second => onBuffer_lockstep (emitPair_lockstep first second)
  refine adopt_linked.bind fun _ => size_linked fun site => ?_
  refine lockstep_get (fun _ _ h => by simp only [h.label]) fun s => ?_
  cases s.label.position? with
  | some target =>
    refine .ite (asserted_linked _ hword) (.ite (fail_linked _) (.ite ?_ (fail_linked _)))
    exact asserted_linked _ fun first => asserted_linked _ fun second =>
      (hpair first second).bind fun _ => notify_linked _
  | none =>
    refine lockstep_get (fun _ _ h => by simp only [h.label]) fun s =>
      asserted_linked _ fun link => ?_
    have hjoin : ∀ chain, Linked (do
        Link.push chain site
        Link.notify (.linked .conditional site)) := fun chain =>
      (push_linked chain site).bind fun _ => notify_linked _
    refine .ite (.ite ?_ ?_) (.ite ?_ ?_)
    · exact asserted_linked _ fun first => asserted_linked _ fun second =>
        (hpair first second).bind fun _ => hjoin _
    · exact (fail_linked _).bind fun _ => hjoin _
    · exact asserted_linked _ fun single => (hword single).bind fun _ => hjoin _
    · exact (fail_linked _).bind fun _ => hjoin _

theorem branch_linked (far : Bool) (branch : Branch) : Linked (branch.run far) := by
  have hword : ∀ encoder : Encoder, Linked (do
      let word ← checked (encoder (← Link.size))
      emitConditional far word) := fun encoder => size_linked fun _ =>
    lockstep_checked (fun _ _ h => h) fun word _ => emitConditional_linked far word
  cases branch with
  | jump link => exact emitJump_linked _
  | onCondition condition =>
    cases condition with
    | al => exact emitJump_linked _
    | nv => exact size_linked fun _ => lockstep_throw (fun _ _ h => h) _
    | _ => exact emitConditional_linked far _
  | compare nonzero rt size => exact hword _
  | test set rt bit => exact hword _

private theorem applyPatches_lockstep (patches : List (Nat × Patch)) :
    Lockstep Alike Alike Alike (applyPatches patches) := by
  induction patches with
  | nil => exact lockstep_pure _
  | cons patch rest ih =>
    obtain ⟨site, single | pair⟩ := patch
    · exact (store_lockstep _ _).bind fun _ => ih
    · exact (store_lockstep _ _).bind fun _ => (store_lockstep _ _).bind fun _ =>
        (notify_lockstep _).bind fun _ => ih

theorem bind_linked (far : Bool) : Linked (bind far) := by
  rw [bind_eq_binding]
  refine binding_linked (fun b c h => ?_) applyPatches_lockstep
  have hresolve : resolve far b = resolve far c := by
    funext position site
    simp only [resolve, h.loadWord]
  funext label position
  simp only [pendingPatches, hresolve]

end A64

end MachineCode
