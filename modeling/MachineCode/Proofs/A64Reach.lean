import MachineCode.Proofs.Assertions
import MachineCode.Proofs.Atomicity
import MachineCode.Proofs.Chains

/-!
# Far branches reach everywhere

An A64 assembler only ever appends whole words, so its branches and its labels stand at multiples of
four. With far branches on, every branch to a label that is not bound yet keeps its link in a field
of 26 bits, and every branch that does not reach by itself goes by a `b`. As long as the code is not
longer than the field reaches, no distance in it is too far.
-/

namespace MachineCode

open CodeBuffer

/-! ## Whole words -/

/-- The code has got longer by whole words. -/
def AddsWords (b c : CodeBuffer) : Prop :=
  c.size % 4 = b.size % 4

instance : Std.Refl AddsWords :=
  ⟨fun _ => rfl⟩

instance : Trans AddsWords AddsWords AddsWords :=
  ⟨fun h h' => h'.trans h⟩

private theorem addsWords_of_appends {b c : CodeBuffer} {tail : Array Byte} (h : Appends tail b c)
    (htail : tail.size % 4 = 0) : AddsWords b c := by
  rw [AddsWords, h.size]
  omega

namespace A64

private theorem emitWord_addsWords (word : Word) : Always AddsWords (emitWord word) := by
  intro b
  apply (emitWord_ends word b).mono
  · exact fun _ _ h => addsWords_of_appends h (by simp)
  · exact fun _ _ h => addsWords_of_appends h.1 rfl

private theorem emitAll_addsWords (encoders : List Encoder) :
    Always AddsWords (emitAll encoders) := by
  induction encoders with
  | nil => exact always_pure _
  | cons encoder rest ih =>
    exact always_get.bind fun _ => (always_checked _).bind fun _ =>
      (emitWord_addsWords _).bind fun _ => ih

private theorem emitNops_addsWords (count : Nat) : Always AddsWords (emitNops count) := by
  induction count with
  | zero => exact always_pure _
  | succ count ih => exact (emitWord_addsWords _).bind fun _ => ih

private theorem run_addsWords (operation : Operation) : Always AddsWords operation.run := by
  cases operation with
  | align alignment =>
    exact always_get.bind fun _ => .ite (always_checked _) (emitNops_addsWords _)
  | _ => exact emitAll_addsWords _

private theorem length_shape (branch : Branch) (far : Bool) (position : Option Nat) (start : Nat) :
    (branch.shape far position start).length % 4 = 0 := by
  have hsingle : (Shape.single branch.word).length % 4 = 0 := by
    simp [Shape.length, Shape.opcode, Shape.siteLength]
  have hpair : (Shape.pair branch.word).length % 4 = 0 := by
    simp [Shape.length, Shape.opcode, Shape.siteLength]
  simp only [Branch.shape]
  split
  · exact hsingle
  · split
    · split
      · exact hsingle
      · exact hpair
    · exact hpair

private theorem branch_addsWords (far : Bool) (branch : Branch) (s : Linking) :
    Ends (branch.run far) s (fun _ t => AddsWords s.buffer t.buffer)
      (fun _ t => AddsWords s.buffer t.buffer) := by
  apply (branch_ends far branch s).mono
  · intro _ t ht
    have := length_shape branch far s.label.position? s.buffer.size
    rw [AddsWords, Link.placed_size ht]
    omega
  · exact fun _ _ h => addsWords_of_appends h.1.buffer rfl

end A64

private theorem copyOver_addsWords (destination : Array Byte) :
    Always AddsWords (copyOver destination) :=
  copyOver_always Std.Refl.refl
    (fun b notice => addsWords_of_appends ((Appends.refl b).notify notice) rfl) destination

private theorem onBuffer_addsWords {target : Target} {buffer : CodeBuffer} {labels : Labels}
    {work : Emit Reply} (hwork : Always AddsWords work) {b : Assembler}
    (hb : (onBuffer target buffer labels work).1 = some b) : AddsWords buffer b.buffer := by
  rcases onBuffer_cases (hwork buffer) target labels with ⟨_, c, hc, hserved⟩ | ⟨_, c, hc, hserved⟩
  · rw [hserved] at hb
    cases hb
    exact hc
  · rw [hserved] at hb
    cases hb
    exact hc

/-- No request of an A64 assembler appends part of a word. -/
theorem Assembler.serve_addsWords {a b : Assembler} {labels : Labels} {ledger : Ledger}
    (h : Agrees labels a ledger)
    (hfresh : ∀ name, (labels.get name).owner = none →
      (labels.get name).place = .unbound Heads.none)
    {far : Bool} (htarget : a.target = .a64 far) (request : Request)
    (hb : (a.serve labels request).1 = some b) : AddsWords a.buffer b.buffer := by
  have hbind := fun name => serve_bind h hfresh (by simp [htarget]) name
  obtain ⟨target, buffer⟩ := a
  cases htarget
  have hrefl : ∀ {labels' : Labels} {outcome : Outcome} {c : Assembler},
      (some (⟨.a64 far, buffer⟩ : Assembler), labels', outcome).1 = some c →
        AddsWords buffer c.buffer := by
    intro _ _ c hc
    cases hc
    exact Std.Refl.refl buffer
  have hasked : ∀ value : CodeBuffer → Except Violation Int,
      (askAsserted (.a64 far) buffer labels value).1 = some b → AddsWords buffer b.buffer := by
    intro value hvalue
    simp only [askAsserted] at hvalue
    cases hv : value buffer <;> rw [hv] at hvalue <;> exact hrefl hvalue
  cases request with
  | loadByte offset => exact hasked _ hb
  | loadWord offset => exact hasked _ hb
  | loadSigned offset => exact hasked _ hb
  | copyOver destination => exact onBuffer_addsWords (copyOver_addsWords destination).map hb
  | handOver =>
    simp only [serve] at hb
    cases hcode : buffer.handOver <;> rw [hcode] at hb <;> cases hb
  | a64 operation => exact onBuffer_addsWords (A64.run_addsWords operation).map hb
  | a64Branch name branch =>
    rcases onLabel_cases (A64.branch_addsWords far branch ⟨buffer, labels.get name⟩) (.a64 far) with
      ⟨_, t, ht, hserved⟩ | ⟨_, t, ht, hserved⟩
    · simp only [serve, hserved] at hb
      cases hb
      exact ht
    · simp only [serve, hserved] at hb
      cases hb
      exact ht
  | bind name =>
    rcases hbind name with ⟨t, ht, hserved⟩ | ⟨_, t, ht, -, hserved⟩
    · obtain ⟨edits, -, hpatches⟩ := ht.patched
      rw [hserved] at hb
      cases hb
      exact congrArg (· % 4) hpatches.size
    · rw [hserved] at hb
      cases hb
      exact addsWords_of_appends ht.buffer rfl
  | _ => exact hrefl hb

/-! ## Alignment along a run -/

/-- The end of the code, its branches and its labels are at multiples of four. -/
structure WordAligned (labels : Labels) (a : Assembler) (ledger : Ledger) : Prop where
  size : a.buffer.size % 4 = 0
  starts : ∀ r ∈ ledger, r.start % 4 = 0
  positions : ∀ name p, (labels.get name).owner = some a.buffer.id →
    (labels.get name).place = .bound p → p % 4 = 0

namespace WordAligned

variable {request : Request} {a b : Assembler} {labels labels' : Labels} {ledger ledger' : Ledger}

private theorem handled (h : WordAligned labels a ledger) {id : Nat}
    (hhandled : labels.Handled id labels') (hne : a.buffer.id ≠ id) :
    WordAligned labels' a ledger := by
  refine ⟨h.size, h.starts, fun name p hown hp => ?_⟩
  rcases hhandled.others name with hsame | ⟨-, hafter⟩
  · rw [hsame] at hown hp
    exact h.positions name p hown hp
  · exact absurd (Option.some.inj (hown.symm.trans hafter)) hne

private theorem positions_set {name : String} {l : Label} (h : WordAligned labels a ledger)
    (hid : b.buffer.id = a.buffer.id)
    (hl : ∀ p, l.owner = some a.buffer.id → l.place = .bound p → p % 4 = 0) (other : String)
    (p : Nat) (hown : ((labels.set name l).get other).owner = some b.buffer.id)
    (hp : ((labels.set name l).get other).place = .bound p) : p % 4 = 0 := by
  rw [hid] at hown
  by_cases hother : other = name
  · subst hother
    rw [Labels.get_set_self] at hown hp
    exact hl p hown hp
  · rw [Labels.get_set_of_ne hother] at hown hp
    exact h.positions other p hown hp

private theorem serves (h : WordAligned labels a ledger)
    (hserves : Serves request a labels ledger (some b) labels' ledger')
    (hfresh : ∀ name, (labels.get name).owner = none →
      (labels.get name).place = .unbound Heads.none)
    (hsize : AddsWords a.buffer b.buffer) : WordAligned labels' b ledger' := by
  have hid := hserves.id_eq
  have hsize : b.buffer.size % 4 = 0 := hsize.trans h.size
  have hkept : ∀ name p, (labels.get name).owner = some b.buffer.id →
      (labels.get name).place = .bound p → p % 4 = 0 := hid ▸ h.positions
  have hbound : ∀ name p, ((labels.get name).owner = none ∨
      (labels.get name).owner = some a.buffer.id) →
      (labels.get name).place = .bound p → p % 4 = 0 := by
    rintro name p (hnone | hown) hp
    · cases (hfresh name hnone).symm.trans hp
    · exact h.positions name p hown hp
  cases hserves with
  | kept _ => exact ⟨hsize, h.starts, hkept⟩
  | bare _ _ => exact ⟨hsize, h.starts, hkept⟩
  | @refused name t _ ht =>
    refine ⟨hsize, h.starts, positions_set h hid fun p hown hp => ?_⟩
    rcases ht.label with hsame | ⟨hnone, hadopted⟩
    · rw [hsame] at hown hp
      exact h.positions name p hown hp
    · rw [hadopted] at hp
      exact hbound name p (.inl hnone) hp
  | @placed name shape t _ _ ht =>
    refine ⟨hsize, ?_, positions_set h hid fun p _ hp => ?_⟩
    · rw [List.forall_mem_cons]
      exact ⟨h.size, h.starts⟩
    · cases hplace : (labels.get name).place with
      | bound target =>
        cases ((ht.bound target hplace).1.symm.trans hp)
        exact hbound name p ht.adoptable hplace
      | unbound heads => cases ((ht.unbound heads hplace).1.symm.trans hp)
  | @bound name t _ _ ht =>
    refine ⟨hsize, h.starts, positions_set h hid fun p _ hp => ?_⟩
    rw [ht.label] at hp
    cases hp
    exact h.size

end WordAligned

namespace Session

def Aligned (s : Session) (ledgers : Nat → Ledger) : Prop :=
  ∀ i a far, s.assembler? i = some a → a.target = .a64 far → WordAligned s.labels a (ledgers i)

private theorem Aligned.modifyBuffer {s : Session} {ledgers : Nat → Ledger}
    (h : s.Aligned ledgers) (i : Nat) {f : CodeBuffer → CodeBuffer}
    (hf : ∀ b, Appends #[] b (f b)) :
    (s.modifyBuffer i f).Aligned ledgers := by
  intro j b far hb hfar
  obtain ⟨a, ha, htarget, happ⟩ := assembler?_modifyBuffer hf hb
  have hold := h j a far ha (htarget.trans hfar)
  refine ⟨?_, hold.starts, fun name p hown hp => ?_⟩
  · rw [happ.size]
    exact hold.size
  · rw [happ.id] at hown
    exact hold.positions name p hown hp

private theorem Consistent.aligned_after {s : Session} {ledgers : Nat → Ledger}
    (h : Consistent s ledgers) (haligned : s.Aligned ledgers) (e : Event) :
    (s.after e).Aligned (fun i => s.issued i e ++ ledgers i) := by
  intro i b far hb hfar
  cases e with
  | add memory spec options =>
    cases ht : s.add memory spec options with
    | error e =>
      simp only [Session.after, ht] at hb ⊢
      exact haligned i b far hb hfar
    | ok t =>
      obtain ⟨a, hcreate, rfl⟩ := add_eq_ok ht
      simp only [Session.after, ht] at hb ⊢
      rcases assembler?_push hb with hold | ⟨rfl, rfl⟩
      · exact haligned i b far hold hfar
      · obtain ⟨hid, -, -⟩ := create_eq_ok hcreate
        have hempty : ∀ r ∈ ledgers s.assemblers.size, r.start % 4 = 0 := by
          rw [h.beyond _ (Nat.le_refl _)]
          simp
        refine ⟨?_, hempty, fun name p hown => ?_⟩
        · rw [create_size hcreate]
        · rw [hid] at hown
          exact absurd (h.owner name _ hown) (Nat.lt_irrefl _)
  | request j request =>
    cases ha : s.assembler? j with
    | none =>
      have hissued : s.issued i (.request j request) = [] := by
        by_cases hij : j = i
        · subst hij
          simp only [issued, if_true, ha]
        · exact issued_of_ne (Ne.symm hij) request
      simp only [Session.after, Session.step, ha, hissued, List.nil_append] at hb ⊢
      exact haligned i b far hb hfar
    | some a =>
      obtain ⟨hid, hagrees⟩ := h.agrees j a ha
      have hserves := Assembler.serve_serves hagrees h.fresh request
      rw [← issued_eq_record ha] at hserves
      rw [Session.after, assembler?_step ha] at hb
      by_cases hij : i = j
      · subst hij
        rw [if_pos rfl] at hb
        rw [hb] at hserves
        have htarget : a.target = .a64 far := hserves.target_eq ▸ hfar
        have hwords := Assembler.serve_addsWords hagrees h.fresh htarget request hb
        rw [Session.after, step_eq ha]
        exact (haligned i a far ha htarget).serves hserves h.fresh hwords
      · rw [if_neg hij] at hb
        obtain ⟨hib, -⟩ := h.agrees i b hb
        simp only [issued_of_ne hij, List.nil_append]
        exact (haligned i b far hb hfar).handled (h.handled ha request) (hib ▸ hij)
  | mention name =>
    have hold := haligned i b far hb hfar
    refine ⟨hold.size, hold.starts, fun other p => ?_⟩
    have hget : (s.mention name).labels.get other = s.labels.get other :=
      s.labels.get_set_get name other
    simp only [Session.after, hget]
    exact hold.positions other p
  | forget j => exact haligned.modifyBuffer j appends_forget i b far hb hfar
  | allow j memory => exact haligned.modifyBuffer j (appends_allow memory) i b far hb hfar

private theorem Consistent.aligned_run {s : Session} {ledgers : Nat → Ledger}
    (h : Consistent s ledgers) (haligned : s.Aligned ledgers) (events : List Event) :
    (s.run events).Aligned (fun i => s.ledger i events ++ ledgers i) := by
  induction events generalizing s ledgers with
  | nil => exact haligned
  | cons e rest ih =>
    have hrest := ih (h.after e) (h.aligned_after haligned e)
    simp only [ledger, List.append_assoc]
    exact hrest

/-- In every state that a session can reach, all A64 assemblers are aligned. -/
theorem aligned_run (events : List Event) :
    (empty.run events).Aligned (fun i => empty.ledger i events) := by
  have hempty : empty.Aligned (fun _ => []) := by
    intro i a far ha
    simp [assembler?, empty] at ha
  simpa using consistent_empty.aligned_run hempty events

end Session

/-! ## Reach -/

/-- The longest code in which a field of 26 bits reaches from any word to any other. -/
def A64.wideReach : Nat :=
  0x7FFFFFC

namespace A64

section

variable {shape : Shape} {site target : Nat}

theorem opcode_of_chained {far : Bool} (h : Chained far shape) : shape.opcode = [] := by
  cases shape with
  | short _ => exact h.elim
  | long _ => exact h.elim
  | single _ => rfl
  | pair _ => rfl

theorem linkField_of_chained (h : Chained true shape) : shape.linkField = .imm26 := by
  cases shape with
  | short _ => exact h.elim
  | long _ => exact h.elim
  | pair _ => rfl
  | single word =>
    obtain ⟨k, hk, hkind⟩ := h
    obtain rfl : k = .unconditional := by simpa using hkind
    exact fieldOf_eq hk

private theorem reaches_of_chained (h : Chained true shape) (hsite : site % 4 = 0)
    (htarget : target % 4 = 0) (hlt : site < target) (hreach : target ≤ wideReach) :
    shape.Reaches site target := by
  rw [wideReach] at hreach
  cases shape with
  | short _ => exact h.elim
  | long _ => exact h.elim
  | single word =>
    have hfield : fieldOf word = .imm26 := linkField_of_chained h
    simp only [Shape.Reaches, hfield, Shape.distance, DispField.fits_imm26]
    omega
  | pair word =>
    right
    simp only [Shape.distance, DispField.fits_imm26]
    omega

/-- A branch at the end of the code reaches back to any label. -/
private theorem reaches_shape (branch : Branch) (hsite : site % 4 = 0) (htarget : target % 4 = 0)
    (hle : target ≤ site) (hreach : site ≤ wideReach) :
    (branch.shape true (some target) site).opcode = [] ∧
      (branch.shape true (some target) site).Reaches site target := by
  rw [wideReach] at hreach
  simp only [Branch.shape, Bool.true_eq_false, or_false]
  split
  · next hkind =>
    have hfield : fieldOf branch.word = .imm26 := by
      rw [fieldOf_eq (ofWord?_word branch), hkind]
      rfl
    refine ⟨rfl, ?_⟩
    simp only [Shape.Reaches, hfield, Shape.distance, DispField.fits_imm26]
    omega
  · split
    · next hfits =>
      refine ⟨rfl, ?_⟩
      simpa only [Shape.Reaches, fieldOf_eq (ofWord?_word branch), Shape.distance] using hfits
    · refine ⟨rfl, .inr ?_⟩
      simp only [Shape.distance, DispField.fits_imm26]
      omega

private theorem fits_backLink {head : Option Nat} (hsite : site % 4 = 0)
    (hhead : ∀ h, head = some h → h % 4 = 0 ∧ h < site) (hreach : site ≤ wideReach) :
    DispField.imm26.Fits (backLink site head) := by
  rw [wideReach] at hreach
  cases head with
  | none =>
    simp only [backLink]
    decide
  | some h =>
    obtain ⟨halign, hlt⟩ := hhead h rfl
    simp only [backLink, DispField.fits_imm26]
    omega

end

theorem encoder_ne_outOfRange (branch : Branch) (start : Nat) (displacement max : Int)
    (offset : Nat) :
    branch.encoder start ≠ .error (.branchOutOfRange displacement max offset) := by
  have hregister : ∀ rt : Register,
      registerField 0 .zero rt start ≠ .error (.branchOutOfRange displacement max offset) := by
    intro rt h
    simp only [registerField] at h
    split at h <;> cases h
  intro h
  cases branch with
  | jump link => cases h
  | onCondition condition => cases condition <;> cases h
  | compare nonzero rt width =>
    simp only [Branch.encoder, compareWord] at h
    cases hrt : registerField 0 .zero rt start with
    | ok slot =>
      rw [hrt] at h
      cases h
    | error cause =>
      rw [hrt] at h
      cases h
      exact hregister rt hrt
  | test set rt bit =>
    simp only [Branch.encoder, testWord, unsignedField] at h
    split at h
    · cases hrt : registerField 0 .zero rt start with
      | ok slot =>
        rw [hrt] at h
        cases h
      | error cause =>
        rw [hrt] at h
        cases h
        exact hregister rt hrt
    · cases h

end A64

section

variable {labels : Labels} {a : Assembler} {ledger : Ledger} {name : String}

theorem WordAligned.site (h : WordAligned labels a ledger) (hagrees : Agrees labels a ledger)
    {far : Bool} (htarget : a.target = .a64 far) {heads : Heads}
    (hp : (labels.get name).place = .unbound heads) {r : Issue} (hr : r ∈ ledger)
    (hname : r.name = name) : A64.Chained far r.shape ∧ r.site % 4 = 0 := by
  obtain ⟨older, hsuffix⟩ := Ledger.exists_suffix_of_mem hr
  obtain ⟨hchained, -⟩ := hagrees.pending r older hsuffix heads (hname ▸ hp)
  rw [htarget] at hchained
  refine ⟨hchained, ?_⟩
  rw [Issue.site, A64.opcode_of_chained hchained]
  exact h.starts r hr

variable (h : WordAligned labels a ledger) (hagrees : Agrees labels a ledger)
  (hown : (labels.get name).owner = none ∨ (labels.get name).owner = some a.buffer.id)
  (htarget : a.target = .a64 true) (hsize : a.buffer.size ≤ A64.wideReach)

include h hagrees hown htarget hsize

private theorem WordAligned.rejected
    (hfresh : (labels.get name).owner = none → (labels.get name).place = .unbound Heads.none)
    (branch : A64.Branch) {e : Failure}
    (he : Rejected (branch.shape true (labels.get name).position? a.buffer.size)
      ⟨a.buffer, labels.get name⟩ e) : e.isMemory = true := by
  have hbare : a.target ≠ .bare := by simp [htarget]
  cases he with
  | memory isMemory => exact isMemory
  | foreign owner other =>
    rcases hown with hnone | hsome
    · cases owner.symm.trans hnone
    · exact absurd (Option.some.inj (owner.symm.trans hsome)) other
  | @outOfReach target place far =>
    have howner : (labels.get name).owner = some a.buffer.id :=
      hown.resolve_left fun hnone => by cases (hfresh hnone).symm.trans place
    have hposition : (labels.get name).position? = some target := Label.position?_eq_some.mpr place
    obtain ⟨hopcode, hreach⟩ := A64.reaches_shape branch h.size
      (h.positions name target howner place)
      (hagrees.within name target howner place) hsize
    rw [hposition, hopcode] at far
    exact absurd hreach far
  | @outOfLink heads place far =>
    have hposition : (labels.get name).position? = none := by
      rw [Label.position?, place]
    have hchained := A64.chained_shape true branch a.buffer.size
    rw [hposition, A64.linkField_of_chained hchained, A64.opcode_of_chained hchained] at far
    refine absurd (A64.fits_backLink h.size (fun head hhead => ?_) hsize) far
    refine ⟨?_, hagrees.head_lt hbare hfresh hown place hhead⟩
    rw [(hagrees.threaded hbare hfresh hown heads place).heads] at hhead
    obtain ⟨r, hr, rfl⟩ := List.mem_map.mp (List.mem_of_head? hhead)
    obtain ⟨hr, hon⟩ := List.mem_filter.mp hr
    exact (h.site hagrees htarget place hr (of_decide_eq_true hon).1).2
  | disorder own place isHead beyond =>
    have hlt := hagrees.head_lt hbare hfresh hown place isHead
    have hle : a.buffer.size + _ ≤ _ := beyond
    omega

/-- Every branch that waits for a label of the buffer reaches the end of the code. -/
private theorem WordAligned.bindable {heads : Heads} (hp : (labels.get name).place = .unbound heads)
    {e : Failure} : ¬Unbindable ledger name ⟨a.buffer, labels.get name⟩ e := by
  intro he
  cases he with
  | bound place => cases place.symm.trans hp
  | foreign owner other =>
    rcases hown with hnone | hsome
    · cases owner.symm.trans hnone
    · exact absurd (Option.some.inj (owner.symm.trans hsome)) other
  | @outOfReach r hr toLabel far =>
    obtain ⟨hchained, hsite⟩ := h.site hagrees htarget hp hr toLabel
    have hlt := Nat.lt_of_lt_of_le r.site_lt_stop (hagrees.stacked.stop_le hr)
    exact absurd (A64.reaches_of_chained hchained hsite h.size hlt hsize) far

end

namespace Session

/-- In every state that a session can reach, an A64 assembler with far branches on and no more code
than a `b` reaches over finds no branch to a label of its own out of range: a branch fails only for
its operands or for want of memory, and a label that is not bound can be bound. -/
theorem far_branches_in_range (events : List Event) {i : Nat} {a : Assembler}
    (ha : (empty.run events).assembler? i = some a) (htarget : a.target = .a64 true)
    (hsize : a.buffer.size ≤ A64.wideReach) {name : String}
    (hown : ((empty.run events).labels.get name).owner = none ∨
      ((empty.run events).labels.get name).owner = some i) :
    (∀ branch displacement max offset, answer events i (.a64Branch name branch) ≠
      .failed (.error (.branchOutOfRange displacement max offset))) ∧
    (∀ displacement max offset, answer events i (.bind name) ≠
      .failed (.error (.branchOutOfRange displacement max offset))) ∧
    (∀ branch, answer events i (.a64Branch name branch) = .reply .done ∨
      ∃ cause, answer events i (.a64Branch name branch) = .failed (.error cause) ∧
        (cause.isMemory = true ∨ branch.encoder a.buffer.size = .error cause)) ∧
    (((empty.run events).labels.get name).position? = none →
      answer events i (.bind name) = .reply .done) := by
  have hconsistent := consistent_run events
  obtain ⟨hid, hagrees⟩ := hconsistent.agrees i a ha
  have haligned := aligned_run events i a true ha htarget
  have hfresh := hconsistent.fresh name
  rw [← hid] at hown
  have hbranch : ∀ branch, answer events i (.a64Branch name branch) = .reply .done ∨
      ∃ cause, answer events i (.a64Branch name branch) = .failed (.error cause) ∧
        (cause.isMemory = true ∨ branch.encoder a.buffer.size = .error cause) := by
    intro branch
    obtain ⟨target, buffer⟩ := a
    cases htarget
    rw [answer, step_eq ha]
    rcases onLabel_cases (A64.branch_ends true branch ⟨buffer, (empty.run events).labels.get name⟩)
      (.a64 true) with ⟨_, t, ht, hserved⟩ | ⟨e, t, ⟨-, he⟩, hserved⟩
    · left
      simp only [Assembler.serve, hserved]
    · right
      simp only [Assembler.serve, hserved]
      rcases he with hrejected | ⟨cause, hcause, rfl⟩
      · have hmemory := haligned.rejected hagrees hown rfl hsize hfresh branch hrejected
        cases e with
        | error cause => exact ⟨cause, rfl, .inl hmemory⟩
        | violation v => cases hmemory
        | refused => cases hmemory
      · exact ⟨cause, rfl, .inr hcause⟩
  have hbind : ((empty.run events).labels.get name).position? = none →
      answer events i (.bind name) = .reply .done := by
    intro hopen
    obtain ⟨heads, hp⟩ := Label.place_of_position?_eq_none hopen
    rw [answer, step_eq ha]
    rcases Assembler.serve_bind hagrees hconsistent.fresh (by simp [htarget]) name with
      ⟨t, -, hserved⟩ | ⟨e, t, -, hreason, -⟩
    · rw [hserved]
    · exact absurd hreason (haligned.bindable hagrees hown htarget hsize hp)
  refine ⟨fun branch displacement max offset hout => ?_, fun displacement max offset hout => ?_,
    hbranch, hbind⟩
  · rcases hbranch branch with hdone | ⟨cause, hfailed, hcause⟩
    · cases hdone.symm.trans hout
    · cases hfailed.symm.trans hout
      rcases hcause with hmemory | hoperands
      · cases hmemory
      · exact A64.encoder_ne_outOfRange branch _ _ _ _ hoperands
  · cases hposition : ((empty.run events).labels.get name).position? with
    | none => cases (hbind hposition).symm.trans hout
    | some p =>
      have hbound := step_bind_of_bound ha (by simp [htarget]) hposition
      cases hbound.symm.trans hout

/-- Branches of all kinds forward to one label, with padding among them, and one back to another.
-/
private def everyBranchRun : List Event :=
  [.add 4096 .a64 { Options.standard with farBranches := true, initialCapacity := 192 },
   .request 0 (.bind "loop"),
   .request 0 (.a64Branch "done" (.test true .zr 40)),
   .request 0 (.a64 (.align 16)),
   .request 0 (.a64Branch "done" (.compare false .zr .doubleWord)),
   .request 0 (.a64Branch "done" (.onCondition .lt)),
   .request 0 (.a64Branch "done" (.jump true)),
   .request 0 (.a64Branch "loop" (.onCondition .ne))]

theorem everyBranchRun_in_range :
    answer everyBranchRun 0 (.bind "done") = .reply .done ∧
      ∀ branch displacement max offset, answer everyBranchRun 0 (.a64Branch "loop" branch) ≠
        .failed (.error (.branchOutOfRange displacement max offset)) := by
  have hrun : ((empty.run everyBranchRun).assembler? 0).map (fun a => (a.target, a.buffer.size)) =
        some (.a64 true, 40) ∧
      (∀ name ∈ ["loop", "done"], ((empty.run everyBranchRun).labels.get name).owner = some 0) ∧
      ((empty.run everyBranchRun).labels.get "done").position? = none := by
    decide +kernel
  obtain ⟨hsome, hlabels, hopen⟩ := hrun
  obtain ⟨a, ha, hpair⟩ := Option.map_eq_some_iff.mp hsome
  obtain ⟨htarget, hsize⟩ := Prod.mk.inj hpair
  have hrange := fun name hname => @far_branches_in_range everyBranchRun 0 a ha htarget
    (by rw [hsize]; decide) name (.inr (hlabels name hname))
  exact ⟨(hrange "done" (by simp)).2.2.2 hopen, (hrange "loop" (by simp)).1⟩

end Session

end MachineCode
