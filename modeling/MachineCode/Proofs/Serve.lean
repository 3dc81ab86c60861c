import MachineCode.Proofs.Agreement

/-!
# What serving a request can do

A request leaves the labels alone and at most appends to the code, or takes the assembler away, or
works on one label. `Serves` lists these cases; what holds along all runs follows from them.
-/

namespace MachineCode

open CodeBuffer

/-! ## Operations only append -/

private theorem X86.emitLongNops_grows (count : Nat) : Always Grows (X86.emitLongNops count) := by
  induction count with
  | zero => exact always_pure _
  | succ count ih => exact (emitInstruction_grows _).bind fun _ => ih

private theorem X86.pad_grows (count : Nat) : Always Grows (X86.pad count) :=
  (emitLongNops_grows _).bind fun _ => .ite (emitInstruction_grows _) (always_pure _)

private theorem X86.align_grows (alignment offset : Nat) :
    Always Grows (X86.align alignment offset) := by
  refine always_get.bind fun _ => .ite (.bind (always_throw _) fun _ => ?_) ?_
  · exact .ite (.bind (always_throw _) fun _ => pad_grows _) (pad_grows _)
  · exact .ite (.bind (always_throw _) fun _ => pad_grows _) (pad_grows _)

private theorem X86.run_grows (operation : X86.Operation) : Always Grows operation.run := by
  have hplain : ∀ o : X86.Operation, Always Grows (do
      checked o.precheck
      makeRoom
      let instructions ← checked (o.instructions (← get).size)
      putInstruction (X86.encodeAll instructions)) := fun o =>
    (always_checked _).bind fun _ => makeRoom_grows.bind fun _ => always_get.bind fun _ =>
      (always_checked _).bind fun _ => putInstruction_grows _
  cases operation with
  | align alignment offset => exact align_grows alignment offset
  | bytes code => exact append_grows code
  | _ => exact hplain _

private theorem A64.emitAll_grows (encoders : List A64.Encoder) :
    Always Grows (A64.emitAll encoders) := by
  induction encoders with
  | nil => exact always_pure _
  | cons encoder rest ih =>
    exact always_get.bind fun _ => (always_checked _).bind fun _ =>
      (emitInstruction_grows _).bind fun _ => ih

private theorem A64.emitNops_grows (count : Nat) : Always Grows (A64.emitNops count) := by
  induction count with
  | zero => exact always_pure _
  | succ count ih => exact (emitInstruction_grows _).bind fun _ => ih

private theorem A64.run_grows (operation : A64.Operation) : Always Grows operation.run := by
  cases operation with
  | align alignment =>
    exact always_get.bind fun _ => .ite (always_checked _) (A64.emitNops_grows _)
  | _ => exact A64.emitAll_grows _

private theorem copyOver_grows (destination : Array Byte) : Always Grows (copyOver destination) :=
  copyOver_always (fun b => ⟨_, .refl b⟩) (fun b notice => ⟨_, (Appends.refl b).notify notice⟩)
    destination

/-! ## Requests -/

/-- The branch that the ledger gets if the request has a reply. -/
def Request.issue? (labels : Labels) (a : Assembler) : Request → Option Issue
  | .x86Branch name branch =>
    some ⟨name, a.buffer.size, branch.shape (labels.get name).position? a.buffer.size⟩
  | .a64Branch name branch =>
    match a.target with
    | .a64 far =>
      some ⟨name, a.buffer.size, branch.shape far (labels.get name).position? a.buffer.size⟩
    | _ => none
  | _ => none

def Request.record (request : Request) (labels : Labels) (a : Assembler) (ledger : Ledger) :
    Outcome → Ledger
  | .reply _ => (request.issue? labels a).toList ++ ledger
  | .failed _ => ledger

/-- What a request can make of an assembler, the labels and the ledger. -/
inductive Serves (request : Request) (a : Assembler) (labels : Labels) (ledger : Ledger) :
    Option Assembler → Labels → Ledger → Prop
  | kept {b : CodeBuffer} (grows : Grows a.buffer b) :
    Serves request a labels ledger (some ⟨a.target, b⟩) labels ledger
  | bare {b : CodeBuffer} (target : a.target = .bare) (retains : Retains a.buffer b) :
    Serves request a labels ledger (some ⟨a.target, b⟩) labels ledger
  | gone (isHandOver : request = .handOver) : Serves request a labels ledger none labels ledger
  | refused {name : String} {t : Linking} (target : a.target ≠ .bare)
    (refused : Refused ⟨a.buffer, labels.get name⟩ t) :
    Serves request a labels ledger (some ⟨a.target, t.buffer⟩) (labels.set name t.label) ledger
  | placed {name : String} {shape : Shape} {t : Linking} (target : a.target ≠ .bare)
    (chained : (labels.get name).position? = none → a.target.Chained shape)
    (placed : Placed shape ⟨a.buffer, labels.get name⟩ t) :
    Serves request a labels ledger (some ⟨a.target, t.buffer⟩) (labels.set name t.label)
      (⟨name, a.buffer.size, shape⟩ :: ledger)
  | bound {name : String} {t : Linking} (target : a.target ≠ .bare)
    (isBind : request = .bind name)
    (bound : Bound ledger name ⟨a.buffer, labels.get name⟩ t) :
    Serves request a labels ledger (some ⟨a.target, t.buffer⟩) (labels.set name t.label) ledger

theorem onBuffer_cases {buffer : CodeBuffer} {work : Emit Reply} {ok : Reply → CodeBuffer → Prop}
    {err : Failure → CodeBuffer → Prop} (h : Ends work buffer ok err) (target : Target)
    (labels : Labels) :
    (∃ reply c, ok reply c ∧
        onBuffer target buffer labels work = (some ⟨target, c⟩, labels, .reply reply)) ∨
      ∃ e c, err e c ∧
        onBuffer target buffer labels work = (some ⟨target, c⟩, labels, .failed e) := by
  simp only [Ends] at h
  simp only [onBuffer]
  cases hresult : work buffer with
  | ok reply c =>
    rw [hresult] at h
    exact .inl ⟨reply, c, h, rfl⟩
  | error e c =>
    rw [hresult] at h
    exact .inr ⟨e, c, h, rfl⟩

/-- Work on a label ends with a reply or a failure, and the label is put back. -/
theorem onLabel_cases {buffer : CodeBuffer} {labels : Labels} {name : String} {work : Link Unit}
    {ok : Unit → Linking → Prop} {err : Failure → Linking → Prop}
    (h : Ends work ⟨buffer, labels.get name⟩ ok err) (target : Target) :
    (∃ u t, ok u t ∧ onLabel target buffer labels name work =
        (some ⟨target, t.buffer⟩, labels.set name t.label, .reply .done)) ∨
      ∃ e t, err e t ∧ onLabel target buffer labels name work =
        (some ⟨target, t.buffer⟩, labels.set name t.label, .failed e) := by
  simp only [Ends] at h
  simp only [onLabel]
  cases hresult : work ⟨buffer, labels.get name⟩ with
  | ok u t =>
    rw [hresult] at h
    exact .inl ⟨u, t, h, rfl⟩
  | error e t =>
    rw [hresult] at h
    exact .inr ⟨e, t, h, rfl⟩

section

variable {target : Target} {buffer : CodeBuffer} {labels : Labels} {ledger : Ledger}
  (request : Request)

theorem record_of_none (h : request.issue? labels ⟨target, buffer⟩ = none)
    (outcome : Outcome) : request.record labels ⟨target, buffer⟩ ledger outcome = ledger := by
  cases outcome with
  | reply r => rw [Request.record, h, Option.toList_none, List.nil_append]
  | failed f => rfl

private theorem onBuffer_serves (h : request.issue? labels ⟨target, buffer⟩ = none)
    {R : CodeBuffer → CodeBuffer → Prop} {work : Emit Reply} (hwork : Always R work)
    (hserves : ∀ b, R buffer b →
      Serves request ⟨target, buffer⟩ labels ledger (some ⟨target, b⟩) labels ledger) :
    Serves request ⟨target, buffer⟩ labels ledger (onBuffer target buffer labels work).1
      (onBuffer target buffer labels work).2.1
      (request.record labels ⟨target, buffer⟩ ledger (onBuffer target buffer labels work).2.2) := by
  rw [record_of_none request h]
  rcases onBuffer_cases (hwork buffer) target labels with ⟨_, b, hb, hserved⟩ | ⟨_, b, hb, hserved⟩
  · rw [hserved]
    exact hserves b hb
  · rw [hserved]
    exact hserves b hb

private theorem onLabel_serves {name : String} {work : Link Unit} {ok : Linking → Prop}
    (htarget : target ≠ .bare)
    (hwork : Ends work ⟨buffer, labels.get name⟩ (fun _ t => ok t)
      (fun _ t => Refused ⟨buffer, labels.get name⟩ t))
    (hok : ∀ t, ok t → Serves request ⟨target, buffer⟩ labels ledger (some ⟨target, t.buffer⟩)
      (labels.set name t.label)
      (request.record labels ⟨target, buffer⟩ ledger (.reply .done))) :
    Serves request ⟨target, buffer⟩ labels ledger (onLabel target buffer labels name work).1
      (onLabel target buffer labels name work).2.1
      (request.record labels ⟨target, buffer⟩ ledger
        (onLabel target buffer labels name work).2.2) := by
  rcases onLabel_cases hwork target with ⟨_, t, ht, hserved⟩ | ⟨_, t, ht, hserved⟩
  · rw [hserved]
    exact hok t ht
  · rw [hserved]
    exact .refused htarget ht

end

/-- Binding gives the label its position and patches all of its branches, or says why not. -/
theorem Assembler.serve_bind {a : Assembler} {labels : Labels} {ledger : Ledger}
    (h : Agrees labels a ledger)
    (hfresh : ∀ name, (labels.get name).owner = none →
      (labels.get name).place = .unbound Heads.none) (htarget : a.target ≠ .bare) (name : String) :
    (∃ t, Bound ledger name ⟨a.buffer, labels.get name⟩ t ∧ a.serve labels (.bind name) =
        (some ⟨a.target, t.buffer⟩, labels.set name t.label, .reply .done)) ∨
      ∃ e t, Refused ⟨a.buffer, labels.get name⟩ t ∧
        Unbindable ledger name ⟨a.buffer, labels.get name⟩ e ∧ a.serve labels (.bind name) =
          (some ⟨a.target, t.buffer⟩, labels.set name t.label, .failed e) := by
  have hthread := h.threaded htarget (hfresh name)
  obtain ⟨target, buffer⟩ := a
  have hcases : ∀ work : Link Unit,
      Ends work ⟨buffer, labels.get name⟩
        (fun _ t => Bound ledger name ⟨buffer, labels.get name⟩ t)
        (fun e t => Refused ⟨buffer, labels.get name⟩ t ∧
          Unbindable ledger name ⟨buffer, labels.get name⟩ e) →
      (∃ t, Bound ledger name ⟨buffer, labels.get name⟩ t ∧
          onLabel target buffer labels name work =
            (some ⟨target, t.buffer⟩, labels.set name t.label, .reply .done)) ∨
        ∃ e t, Refused ⟨buffer, labels.get name⟩ t ∧
          Unbindable ledger name ⟨buffer, labels.get name⟩ e ∧
          onLabel target buffer labels name work =
            (some ⟨target, t.buffer⟩, labels.set name t.label, .failed e) := by
    intro work hwork
    rcases onLabel_cases hwork target with ⟨_, t, ht, hserved⟩ | ⟨e, t, ⟨ht, he⟩, hserved⟩
    · exact .inl ⟨t, ht, hserved⟩
    · exact .inr ⟨e, t, ht, he, hserved⟩
  cases target with
  | x86 => exact hcases _ (X86.bind_ends h.granted h.stacked hthread)
  | a64 far => exact hcases _ (A64.bind_ends h.granted h.stacked hthread)
  | bare => exact absurd rfl htarget

/-- Every request of an assembler whose code agrees with its ledger is served as listed. -/
theorem Assembler.serve_serves {a : Assembler} {labels : Labels} {ledger : Ledger}
    (h : Agrees labels a ledger)
    (hfresh : ∀ name, (labels.get name).owner = none →
      (labels.get name).place = .unbound Heads.none) (request : Request) :
    Serves request a labels ledger (a.serve labels request).1 (a.serve labels request).2.1
      (request.record labels a ledger (a.serve labels request).2.2) := by
  obtain ⟨target, buffer⟩ := a
  have hrefl : ∀ request : Request,
      Serves request ⟨target, buffer⟩ labels ledger (some ⟨target, buffer⟩) labels ledger :=
    fun _ => .kept (Std.Refl.refl buffer)
  have hasked : ∀ (request : Request) (value : CodeBuffer → Except Violation Int),
      request.issue? labels ⟨target, buffer⟩ = none →
      Serves request ⟨target, buffer⟩ labels ledger (askAsserted target buffer labels value).1
        (askAsserted target buffer labels value).2.1
        (request.record labels ⟨target, buffer⟩ ledger
          (askAsserted target buffer labels value).2.2) := by
    intro request value hnone
    rw [record_of_none request hnone]
    simp only [askAsserted]
    cases value buffer <;> exact hrefl request
  cases request with
  | size => exact hrefl _
  | isEmpty => exact hrefl _
  | capacity => exact hrefl _
  | unresolved => exact hrefl _
  | bytes => exact hrefl _
  | unused => exact hrefl _
  | farBranches => cases target <;> exact hrefl _
  | loadByte offset => exact hasked (.loadByte offset) _ rfl
  | loadWord offset => exact hasked (.loadWord offset) _ rfl
  | loadSigned offset => exact hasked (.loadSigned offset) _ rfl
  | copyOver destination =>
    exact onBuffer_serves (.copyOver destination) rfl (copyOver_grows destination).map
      (fun _ hb => .kept hb)
  | handOver =>
    rw [record_of_none .handOver rfl]
    simp only [serve]
    cases buffer.handOver <;> exact .gone rfl
  | bare write =>
    cases target with
    | bare =>
      exact onBuffer_serves (.bare write) rfl (run_retains write).map (fun _ hb => .bare rfl hb)
    | _ => exact hrefl _
  | x86 operation =>
    cases target with
    | x86 =>
      exact onBuffer_serves (.x86 operation) rfl (X86.run_grows operation).map
        (fun _ hb => .kept hb)
    | _ => exact hrefl _
  | a64 operation =>
    cases target with
    | a64 far =>
      exact onBuffer_serves (.a64 operation) rfl (A64.run_grows operation).map
        (fun _ hb => .kept hb)
    | _ => exact hrefl _
  | x86Branch name branch =>
    cases target with
    | x86 =>
      refine onLabel_serves (.x86Branch name branch) (by simp)
        (X86.branch_ends branch _).err_left ?_
      intro t ht
      exact .placed (by simp) (fun _ => X86.chained_shape branch _ _) ht
    | _ => exact hrefl _
  | a64Branch name branch =>
    cases target with
    | a64 far =>
      refine onLabel_serves (.a64Branch name branch) (by simp)
        (A64.branch_ends far branch _).err_left ?_
      intro t ht
      refine .placed (by simp) (fun hnone => ?_) ht
      rw [hnone]
      exact A64.chained_shape far branch _
    | _ => exact hrefl _
  | bind name =>
    by_cases htarget : target = .bare
    · subst htarget
      exact hrefl _
    · rcases serve_bind h hfresh htarget name with ⟨t, ht, hserved⟩ | ⟨_, t, ht, -, hserved⟩
      · rw [hserved]
        exact .bound htarget rfl ht
      · rw [hserved]
        exact .refused htarget ht

/-! ## What a request leaves to others -/

/-- The labels before and after the buffer worked on them: labels of other buffers stay, and so do
positions. -/
structure Labels.Handled (id : Nat) (labels labels' : Labels) : Prop where
  names : (labels.map Prod.fst).Nodup → (labels'.map Prod.fst).Nodup
  others : ∀ name, labels'.get name = labels.get name ∨
    ((labels.get name).owner = none ∨ (labels.get name).owner = some id) ∧
      (labels'.get name).owner = some id
  positions : ∀ name p, (labels.get name).place = .bound p → (labels'.get name).place = .bound p
  counts : ∀ j, j ≠ id → labels'.pendingIn j = labels.pendingIn j

private theorem Labels.mem_names_set {labels : Labels} {name key : String} {l : Label}
    (h : key ∈ (labels.set name l).map Prod.fst) : key = name ∨ key ∈ labels.map Prod.fst := by
  induction labels with
  | nil => exact .inl (by simpa [Labels.set] using h)
  | cons entry rest ih =>
    obtain ⟨other, old⟩ := entry
    by_cases hother : other = name
    · rw [Labels.set, if_pos hother, List.map_cons, List.mem_cons] at h
      rcases h with h | h
      · exact .inl h
      · exact .inr (List.mem_cons_of_mem _ h)
    · rw [Labels.set, if_neg hother, List.map_cons, List.mem_cons] at h
      rcases h with h | h
      · exact .inr (h ▸ List.mem_cons_self ..)
      · rcases ih h with h | h
        · exact .inl h
        · exact .inr (List.mem_cons_of_mem _ h)

theorem Labels.nodup_set {labels : Labels} (h : (labels.map Prod.fst).Nodup) (name : String)
    (l : Label) : ((labels.set name l).map Prod.fst).Nodup := by
  induction labels with
  | nil => simp [Labels.set]
  | cons entry rest ih =>
    obtain ⟨other, old⟩ := entry
    rw [List.map_cons, List.nodup_cons] at h
    by_cases hother : other = name
    · subst hother
      rw [Labels.set, if_pos rfl, List.map_cons, List.nodup_cons]
      exact h
    · rw [Labels.set, if_neg hother, List.map_cons, List.nodup_cons]
      refine ⟨fun hmem => ?_, ih h.2⟩
      rcases Labels.mem_names_set hmem with heq | hrest
      · exact hother heq
      · exact h.1 hrest

private theorem Labels.handled_refl (id : Nat) (labels : Labels) : labels.Handled id labels :=
  ⟨fun h => h, fun _ => .inl rfl, fun _ _ h => h, fun _ _ => rfl⟩

private theorem Labels.handled_set {id : Nat} {labels : Labels} {name : String} {l : Label}
    (hl : l = labels.get name ∨
      ((labels.get name).owner = none ∨ (labels.get name).owner = some id) ∧ l.owner = some id)
    (hplace : ∀ p, (labels.get name).place = .bound p → l.place = .bound p) :
    labels.Handled id (labels.set name l) := by
  constructor
  case names => exact fun h => Labels.nodup_set h name l
  case others =>
    intro n
    by_cases hn : n = name
    · subst hn
      rw [Labels.get_set_self]
      exact hl
    · rw [Labels.get_set_of_ne hn]
      exact .inl rfl
  case positions =>
    intro n p hp
    by_cases hn : n = name
    · subst hn
      rw [Labels.get_set_self]
      exact hplace p hp
    · rw [Labels.get_set_of_ne hn]
      exact hp
  case counts =>
    intro j hj
    rcases hl with hsame | ⟨hbefore, hafter⟩
    · rw [hsame]
      exact labels.pendingIn_set_get name j
    · have hset := labels.pendingIn_set name l j
      have hold : (labels.get name).pendsIn j = false := by
        have hne : (labels.get name).owner ≠ some j := by
          rcases hbefore with h | h <;> rw [h]
          · simp
          · simpa using Ne.symm hj
        simp [Label.pendsIn, hne]
      have hnew : l.pendsIn j = false := by
        have hne : l.owner ≠ some j := by
          rw [hafter]
          simpa using Ne.symm hj
        simp [Label.pendsIn, hne]
      rw [hold, hnew] at hset
      exact hset

namespace Serves

variable {request : Request} {a b : Assembler} {a' : Option Assembler} {labels labels' : Labels}
  {ledger ledger' : Ledger}

theorem handled (h : Serves request a labels ledger a' labels' ledger') :
    labels.Handled a.buffer.id labels' := by
  cases h with
  | kept _ => exact labels.handled_refl _
  | bare _ _ => exact labels.handled_refl _
  | gone _ => exact labels.handled_refl _
  | refused _ ht =>
    rcases ht.label with hsame | ⟨hnone, hadopted⟩
    · exact Labels.handled_set (.inl hsame) (fun p hp => hsame ▸ hp)
    · rw [hadopted]
      exact Labels.handled_set (.inr ⟨.inl hnone, rfl⟩) (fun p hp => hp)
  | placed _ _ ht =>
    exact Labels.handled_set (.inr ⟨ht.adoptable, ht.owner⟩) (fun p hp => (ht.bound p hp).1)
  | bound _ _ ht =>
    refine Labels.handled_set (.inr ⟨ht.adoptable, by rw [ht.label]⟩) (fun p hp => ?_)
    obtain ⟨heads, hunbound⟩ := ht.unbound
    exact absurd (hp.symm.trans hunbound) (by simp)

theorem agrees (h : Serves request a labels ledger (some b) labels' ledger')
    (hagrees : Agrees labels a ledger)
    (hfresh : ∀ name, (labels.get name).owner = none →
      (labels.get name).place = .unbound Heads.none) : Agrees labels' b ledger' := by
  cases h with
  | kept hgrows => exact hagrees.grows hgrows
  | bare hbare hretains => exact hagrees.retains hbare hretains
  | refused htarget ht => exact hagrees.refused htarget (hfresh _) ht
  | placed htarget hchained ht => exact hagrees.placed htarget (hfresh _) hchained ht
  | bound htarget _ ht => exact hagrees.bound htarget (hfresh _) ht

theorem id_eq (h : Serves request a labels ledger (some b) labels' ledger') :
    b.buffer.id = a.buffer.id := by
  cases h with
  | kept hgrows =>
    obtain ⟨_, happ⟩ := hgrows
    exact happ.id
  | bare _ hretains => exact hretains.id
  | refused _ ht => exact ht.buffer.id
  | @placed name _ _ _ _ ht =>
    cases hp : (labels.get name).place with
    | bound p => exact (ht.bound p hp).2.2.id
    | unbound heads => exact (ht.unbound heads hp).2.2.2.1.id
  | bound _ _ ht =>
    obtain ⟨edits, -, hpatches⟩ := ht.patched
    exact hpatches.id

theorem placed_of_cons {r : Issue} (h : Serves request a labels ledger a' labels' (r :: ledger)) :
    ∃ t, a' = some ⟨a.target, t.buffer⟩ ∧ r.start = a.buffer.size ∧
      Placed r.shape ⟨a.buffer, labels.get r.name⟩ t := by
  generalize hl : r :: ledger = longer at h
  have hne : r :: ledger ≠ ledger := List.cons_ne_self r ledger
  cases h with
  | kept _ => exact absurd hl hne
  | bare _ _ => exact absurd hl hne
  | gone _ => exact absurd hl hne
  | refused _ _ => exact absurd hl hne
  | bound _ _ _ => exact absurd hl hne
  | placed _ _ ht =>
    cases hl
    exact ⟨_, rfl, rfl, ht⟩

end Serves

theorem Agrees.handled {labels labels' : Labels} {b : Assembler} {ledger : Ledger} {id : Nat}
    (h : Agrees labels b ledger) (hhandled : labels.Handled id labels') (hne : b.buffer.id ≠ id) :
    Agrees labels' b ledger := by
  refine h.congr (fun name hown => ?_) (hhandled.counts _ hne)
  rcases hhandled.others name with hsame | ⟨hbefore, hafter⟩
  · exact hsame
  · rcases hown with hown | hown
    · rcases hbefore with hnone | hsome
      · simp [hnone] at hown
      · rw [hsome] at hown
        exact absurd (Option.some.inj hown).symm hne
    · rw [hafter] at hown
      exact absurd (Option.some.inj hown).symm hne

end MachineCode
