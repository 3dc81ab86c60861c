import MachineCode.Proofs.Finalize
import MachineCode.Proofs.Growth

/-!
# Assemblers that share labels

A label belongs to the first buffer that uses it. Work on a label of another buffer is turned away
before it changes anything, and work on a label of its own is not seen by others. So an assembler
among others does what it would do alone, on those of its steps whose label was not taken.
-/

namespace MachineCode

/-! ## Labels of other buffers -/

def Request.linking? : Target → Request → Option (String × Link Unit)
  | .x86, .x86Branch name branch => some (name, branch.run)
  | .x86, .bind name => some (name, X86.bind)
  | .a64 far, .a64Branch name branch => some (name, branch.run far)
  | .a64 far, .bind name => some (name, A64.bind far)
  | _, _ => none

/-- Why a request is turned away if its label belongs to another buffer. A binding looks at the
position first, and an A64 branch at its operands. -/
def Request.rebuff (size : Nat) (label : Label) : Request → EmitError
  | .bind _ =>
    match label.position? with
    | some position => .labelAlreadyBound position
    | none => .foreignLabel
  | .a64Branch _ branch =>
    match branch.encoder size with
    | .error cause => cause
    | .ok _ => .foreignLabel
  | _ => .foreignLabel

def Label.isForeign (id : Nat) (label : Label) : Bool :=
  label.owner.any (· != id)

private theorem Label.owner_of_not_isForeign {id : Nat} {label : Label}
    (h : label.isForeign id = false) :
    label.owner = none ∨ label.owner = some id := by
  simp only [isForeign] at h
  cases howner : label.owner with
  | none => exact .inl rfl
  | some j =>
    rw [howner] at h
    exact .inr (congrArg some (by simpa using h))

section

variable {s : Linking} (h : s.label.isForeign s.buffer.id = true)

include h

private theorem adopt_of_isForeign {next : Unit → Link Unit} :
    (Link.adopt >>= next) s = .error (.error .foreignLabel) s := by
  obtain ⟨buffer, place, owner⟩ := s
  cases owner with
  | none => cases h
  | some id =>
    have hne : id ≠ buffer.id := by simpa [Label.isForeign] using h
    simp only [bind, EStateM.bind, Link.adopt, if_neg hne]

private theorem binding_of_isForeign {α : Type}
    (pending : CodeBuffer → Label → Nat → Except Failure (List (Nat × α)))
    (write : List (Nat × α) → Emit Unit) (name : String) :
    binding pending write s =
      .error (.error ((Request.bind name).rebuff s.buffer.size s.label)) s := by
  cases hposition : s.label.position? with
  | some position =>
    simp only [binding_bound pending write hposition, Request.rebuff, hposition]
  | none =>
    have hopen : Link.requireUnbound s = .ok () s := by
      have hget : (get : Link Linking) s = .ok s s := rfl
      simp only [Link.requireUnbound, bind, EStateM.bind, hget, hposition]
      rfl
    simp only [binding, bind, EStateM.bind, hopen, Request.rebuff, hposition]
    exact adopt_of_isForeign h

private theorem X86.run_of_isForeign (branch : X86.Branch) :
    branch.run s = .error (.error .foreignLabel) s := by
  cases branch with
  | jump j distance => exact adopt_of_isForeign h
  | call => exact adopt_of_isForeign h

private theorem A64.run_of_isForeign (far : Bool) (branch : A64.Branch) (name : String) :
    branch.run far s =
      .error (.error ((Request.a64Branch name branch).rebuff s.buffer.size s.label)) s := by
  have hword : ∀ encoder : A64.Encoder,
      (do
        let word ← checked (encoder (← Link.size))
        A64.emitConditional far word : Link Unit) s =
      .error (.error (match encoder s.buffer.size with
        | .error cause => cause
        | .ok _ => .foreignLabel)) s := by
    intro encoder
    change (do
      let word ← checked (encoder s.buffer.size)
      A64.emitConditional far word : Link Unit) s = _
    cases encoder s.buffer.size with
    | error cause => rfl
    | ok word => exact adopt_of_isForeign h
  cases branch with
  | jump link => exact adopt_of_isForeign h
  | onCondition condition =>
    cases condition with
    | nv => rfl
    | _ => exact adopt_of_isForeign h
  | compare nonzero rt width => exact hword _
  | test set rt bit => exact hword _

end

/-! ## Serving a request -/

namespace Assembler

private theorem serve_cases (a : Assembler) (request : Request) :
    (∃ name work, request.linking? a.target = some (name, work) ∧
      ∀ labels, a.serve labels request = onLabel a.target a.buffer labels name work) ∨
    request.linking? a.target = none ∧
      ∀ labels, a.serve labels request =
        ((a.serve [] request).1, labels, (a.serve [] request).2.2) := by
  obtain ⟨target, buffer⟩ := a
  have hbuffer : ∀ (work : Emit Reply) (labels : Labels),
      onBuffer target buffer labels work =
        ((onBuffer target buffer [] work).1, labels, (onBuffer target buffer [] work).2.2) := by
    intro work labels
    simp only [onBuffer]
    cases work buffer <;> rfl
  have hasked : ∀ {request : Request} (value : CodeBuffer → Except Violation Int),
      (∀ labels, serve ⟨target, buffer⟩ labels request = askAsserted target buffer labels value) →
      ∀ labels, serve ⟨target, buffer⟩ labels request =
        ((serve ⟨target, buffer⟩ [] request).1, labels,
          (serve ⟨target, buffer⟩ [] request).2.2) := by
    intro request value hserve labels
    simp only [hserve, askAsserted]
    cases value buffer <;> rfl
  cases request with
  | loadByte offset => exact .inr ⟨by cases target <;> rfl, hasked _ fun _ => by rw [serve]⟩
  | loadWord offset => exact .inr ⟨by cases target <;> rfl, hasked _ fun _ => by rw [serve]⟩
  | loadSigned offset => exact .inr ⟨by cases target <;> rfl, hasked _ fun _ => by rw [serve]⟩
  | copyOver destination => exact .inr ⟨by cases target <;> rfl, hbuffer _⟩
  | handOver =>
    refine .inr ⟨by cases target <;> rfl, fun labels => ?_⟩
    simp only [serve]
    cases buffer.handOver <;> rfl
  | bare write =>
    cases target with
    | bare => exact .inr ⟨rfl, hbuffer _⟩
    | _ => exact .inr ⟨rfl, fun _ => rfl⟩
  | x86 operation =>
    cases target with
    | x86 => exact .inr ⟨rfl, hbuffer _⟩
    | _ => exact .inr ⟨rfl, fun _ => rfl⟩
  | a64 operation =>
    cases target with
    | a64 far => exact .inr ⟨rfl, hbuffer _⟩
    | _ => exact .inr ⟨rfl, fun _ => rfl⟩
  | x86Branch name branch =>
    cases target with
    | x86 => exact .inl ⟨name, _, rfl, fun _ => rfl⟩
    | _ => exact .inr ⟨rfl, fun _ => rfl⟩
  | a64Branch name branch =>
    cases target with
    | a64 far => exact .inl ⟨name, _, rfl, fun _ => rfl⟩
    | _ => exact .inr ⟨rfl, fun _ => rfl⟩
  | bind name =>
    cases target with
    | bare => exact .inr ⟨rfl, fun _ => rfl⟩
    | _ => exact .inl ⟨name, _, rfl, fun _ => rfl⟩
  | _ => exact .inr ⟨by cases target <;> rfl, fun _ => by cases target <;> rfl⟩

private theorem serve_of_isForeign {a : Assembler} {labels : Labels} {request : Request}
    {name : String} {work : Link Unit} (hlinking : request.linking? a.target = some (name, work))
    (hforeign : (labels.get name).isForeign a.buffer.id = true) :
    a.serve labels request = (some a, labels.set name (labels.get name),
      .failed (.error (request.rebuff a.buffer.size (labels.get name)))) := by
  obtain ⟨target, buffer⟩ := a
  have hend : ∀ {work : Link Unit} {cause : EmitError},
      work ⟨buffer, labels.get name⟩ = .error (.error cause) ⟨buffer, labels.get name⟩ →
      onLabel target buffer labels name work =
        (some ⟨target, buffer⟩, labels.set name (labels.get name), .failed (.error cause)) := by
    intro work cause hwork
    simp only [onLabel, hwork]
  have hs : (Linking.mk buffer (labels.get name)).label.isForeign buffer.id = true := hforeign
  cases target with
  | x86 =>
    cases request with
    | x86Branch other branch =>
      cases hlinking
      exact hend (X86.run_of_isForeign hs branch)
    | bind other =>
      cases hlinking
      exact hend (X86.bind_eq_binding ▸ binding_of_isForeign hs _ _ name)
    | _ => cases hlinking
  | a64 far =>
    cases request with
    | a64Branch other branch =>
      cases hlinking
      exact hend (A64.run_of_isForeign hs far branch name)
    | bind other =>
      cases hlinking
      exact hend (A64.bind_eq_binding far ▸ binding_of_isForeign hs _ _ name)
    | _ => cases hlinking
  | bare => cases hlinking

end Assembler

private theorem Labels.set_get {labels : Labels} {name : String}
    (h : labels.get name ≠ Label.fresh) :
    labels.set name (labels.get name) = labels := by
  induction labels with
  | nil => exact absurd rfl h
  | cons entry rest ih =>
    obtain ⟨key, old⟩ := entry
    rw [Labels.get_cons] at h ⊢
    by_cases hkey : key = name
    · rw [if_pos hkey.symm, Labels.set, if_pos hkey, hkey]
    · rw [if_neg (Ne.symm hkey)] at h ⊢
      rw [Labels.set, if_neg hkey, ih h]

namespace Session

/-! ## The share of an assembler -/

/-- Assembler `u` is asked to work on a label of another buffer. -/
def trespasses (s : Session) (u : Nat) (request : Request) : Bool :=
  match s.assembler? u with
  | none => false
  | some a =>
    match request.linking? a.target with
    | none => false
    | some (name, _) => (s.labels.get name).isForeign u

/-- The event is a step of assembler `u`, and not one on a label of another buffer. -/
def concerns (s : Session) (u : Nat) : Event → Bool
  | .add _ _ _ => s.assemblers.size == u
  | .request i request => i == u && !s.trespasses u request
  | .mention _ => false
  | .forget i | .allow i _ => i == u

/-- The steps of a run that concern assembler `u`, with their outcomes. -/
def share (s : Session) (u : Nat) : List Event → List (Event × Outcome)
  | [] => []
  | e :: rest =>
    if s.concerns u e then (e, s.result e) :: (s.after e).share u rest
    else (s.after e).share u rest

/-- No assembler and no label, but the first `u` identities are taken. -/
def vacant (u : Nat) : Session :=
  ⟨Array.replicate u none, []⟩

private theorem step_of_trespasses {s : Session} {ledgers : Nat → Ledger} (h : Consistent s ledgers)
    {u : Nat} {request : Request} (htrespasses : s.trespasses u request = true) :
    ∃ a name work, s.assembler? u = some a ∧ request.linking? a.target = some (name, work) ∧
      s.step u request =
        (s, .failed (.error (request.rebuff a.buffer.size (s.labels.get name)))) := by
  simp only [trespasses] at htrespasses
  cases ha : s.assembler? u with
  | none => simp [ha] at htrespasses
  | some a =>
    cases hlinking : request.linking? a.target with
    | none => simp [ha, hlinking] at htrespasses
    | some p =>
      obtain ⟨name, work⟩ := p
      simp only [ha, hlinking] at htrespasses
      obtain ⟨hid, -⟩ := h.agrees u a ha
      have hserved := Assembler.serve_of_isForeign hlinking (hid.symm ▸ htrespasses)
      have hslot : (s.assemblers.setIfInBounds u none).setIfInBounds u (some a) = s.assemblers := by
        apply Array.ext_getElem?
        intro j
        simp only [Array.getElem?_setIfInBounds, Array.size_setIfInBounds]
        by_cases hj : u = j
        · subst hj
          have hslot := ha
          rw [assembler?, Option.join_eq_some_iff] at hslot
          rw [if_pos rfl, if_pos (lt_size_of_assembler? ha), hslot]
        · simp [hj]
      have hmentioned : s.labels.get name ≠ Label.fresh := by
        intro hfresh
        rw [hfresh] at htrespasses
        cases htrespasses
      refine ⟨a, name, work, rfl, hlinking, ?_⟩
      rw [step_eq ha, hserved, hslot, Labels.set_get hmentioned]

/-- The session `t` shows of assembler `u` and its labels what `s` does. -/
structure Follows (u : Nat) (s t : Session) : Prop where
  assembler : t.assembler? u = s.assembler? u
  identity : s.assemblers.size ≤ u → t.assemblers.size = u
  labels : ∀ name, (s.labels.get name).isForeign u = false →
    t.labels.get name = s.labels.get name

namespace Follows

variable {u : Nat} {s t : Session} {ledgers : Nat → Ledger}

private theorem step (h : Follows u s t) {request : Request}
    (hown : s.trespasses u request = false) :
    (t.step u request).2 = (s.step u request).2 ∧
      Follows u (s.step u request).1 (t.step u request).1 := by
  cases ha : s.assembler? u with
  | none =>
    have hb : t.assembler? u = none := h.assembler.trans ha
    simp only [Session.step, ha, hb]
    exact ⟨trivial, h⟩
  | some a =>
    have hb : t.assembler? u = some a := h.assembler.trans ha
    have hsize := lt_size_of_assembler? ha
    have hassembler : (a.serve t.labels request).1 = (a.serve s.labels request).1 →
        (t.step u request).1.assembler? u = (s.step u request).1.assembler? u := by
      intro hserve
      rw [assembler?_step ha, assembler?_step hb, if_pos rfl, if_pos rfl, hserve]
    have hidentity : (s.step u request).1.assemblers.size ≤ u →
        (t.step u request).1.assemblers.size = u := by
      rw [size_step]
      omega
    rcases a.serve_cases request with ⟨name, work, hlinking, hserve⟩ | ⟨-, hserve⟩
    · have hlabel : t.labels.get name = s.labels.get name := by
        apply h.labels
        simpa only [trespasses, ha, hlinking] using hown
      have hserved : ∃ slot label outcome,
          (∀ labels : Labels, labels.get name = s.labels.get name →
            a.serve labels request = (slot, labels.set name label, outcome)) := by
        simp only [hserve, onLabel]
        cases hwork : work ⟨a.buffer, s.labels.get name⟩ with
        | ok _ linking =>
          exact ⟨_, _, _, fun labels hlabels => by rw [hlabels, hwork]⟩
        | error _ linking =>
          exact ⟨_, _, _, fun labels hlabels => by rw [hlabels, hwork]⟩
      obtain ⟨slot, label, outcome, hserved⟩ := hserved
      have hs := hserved s.labels rfl
      have ht := hserved t.labels hlabel
      refine ⟨by rw [step_eq ha, step_eq hb, hs, ht], ⟨hassembler (by rw [hs, ht]), hidentity, ?_⟩⟩
      intro other hother
      rw [step_eq ha, hs] at hother ⊢
      rw [step_eq hb, ht]
      by_cases hname : other = name
      · rw [hname, Labels.get_set_self, Labels.get_set_self]
      · simp only [Labels.get_set_of_ne hname] at hother ⊢
        exact h.labels other hother
    · refine ⟨?_, ⟨hassembler ?_, hidentity, ?_⟩⟩
      · rw [step_eq ha, step_eq hb, hserve s.labels, hserve t.labels]
      · rw [hserve s.labels, hserve t.labels]
      · rw [step_eq ha, step_eq hb, hserve s.labels, hserve t.labels]
        exact h.labels

/-- A label that another assembler works on is or becomes its own. -/
private theorem step_other (h : Follows u s t) (hconsistent : Consistent s ledgers) {i : Nat}
    (hi : i ≠ u) (request : Request) : Follows u (s.step i request).1 t := by
  cases ha : s.assembler? i with
  | none =>
    have hsame : (s.step i request).1 = s := by simp only [Session.step, ha]
    rw [hsame]
    exact h
  | some a =>
    refine ⟨?_, ?_, fun name hname => ?_⟩
    · rw [assembler?_step ha, if_neg (Ne.symm hi)]
      exact h.assembler
    · rw [size_step]
      exact h.identity
    · rcases (hconsistent.handled ha request).others name with hsame | ⟨-, howner⟩
      · rw [hsame] at hname ⊢
        exact h.labels name hname
      · rcases Label.owner_of_not_isForeign hname with hnone | hsome
        · cases hnone.symm.trans howner
        · exact absurd (Option.some.inj (howner.symm.trans hsome)) hi

private theorem add (h : Follows u s t) (hu : s.assemblers.size = u) (memory : Nat)
    (spec : TargetSpec) (options : Options) :
    t.result (.add memory spec options) = s.result (.add memory spec options) ∧
      Follows u (s.after (.add memory spec options)) (t.after (.add memory spec options)) := by
  have ht : t.assemblers.size = u := h.identity (Nat.le_of_eq hu)
  cases hcreate : Assembler.create u memory spec options with
  | error e =>
    have hadd : ∀ v : Session, v.assemblers.size = u → v.add memory spec options = .error e := by
      intro v hv
      rw [Session.add, hv, hcreate]
      rfl
    simp only [result, after, hadd s hu, hadd t ht]
    exact ⟨trivial, h⟩
  | ok a =>
    have hadd : ∀ v : Session, v.assemblers.size = u →
        v.add memory spec options = .ok { v with assemblers := v.assemblers.push (some a) } := by
      intro v hv
      rw [Session.add, hv, hcreate]
      rfl
    simp only [result, after, hadd s hu, hadd t ht]
    refine ⟨trivial, ?_, ?_, h.labels⟩
    · simp only [assembler?, Array.getElem?_push, hu, ht, if_true]
    · simp only [Array.size_push, hu]
      omega

private theorem add_other (h : Follows u s t) (hu : s.assemblers.size ≠ u) (memory : Nat)
    (spec : TargetSpec) (options : Options) :
    Follows u (s.after (.add memory spec options)) t := by
  cases hadd : s.add memory spec options with
  | error e =>
    simp only [after, hadd]
    exact h
  | ok s' =>
    obtain ⟨a, -, rfl⟩ := add_eq_ok hadd
    simp only [after, hadd]
    refine ⟨?_, ?_, h.labels⟩
    · rw [h.assembler]
      simp only [assembler?, Array.getElem?_push, if_neg (Ne.symm hu)]
    · intro hle
      rw [Array.size_push] at hle
      exact h.identity (by omega)

private theorem modifyBuffer (h : Follows u s t) (f : CodeBuffer → CodeBuffer) :
    Follows u (s.modifyBuffer u f) (t.modifyBuffer u f) := by
  refine ⟨?_, ?_, h.labels⟩
  · have hslot : ∀ v : Session, (v.modifyBuffer u f).assembler? u =
        (v.assembler? u).map fun a => { a with buffer := f a.buffer } := by
      intro v
      simp only [assembler?, Session.modifyBuffer, Array.getElem?_modify, if_true]
      cases v.assemblers[u]? with
      | none => rfl
      | some slot => cases slot <;> rfl
    rw [hslot, hslot, h.assembler]
  · rw [size_modifyBuffer, size_modifyBuffer]
    exact h.identity

private theorem modifyBuffer_other (h : Follows u s t) {i : Nat} (hi : i ≠ u)
    (f : CodeBuffer → CodeBuffer) :
    Follows u (s.modifyBuffer i f) t := by
  refine ⟨?_, ?_, h.labels⟩
  · rw [h.assembler]
    simp only [assembler?, Session.modifyBuffer, Array.getElem?_modify, if_neg hi]
  · rw [size_modifyBuffer]
    exact h.identity

private theorem after (h : Follows u s t) {e : Event} (he : s.concerns u e = true) :
    t.result e = s.result e ∧ Follows u (s.after e) (t.after e) := by
  cases e with
  | add memory spec options => exact h.add (by simpa [concerns] using he) memory spec options
  | request i request =>
    simp only [concerns, Bool.and_eq_true, beq_iff_eq, Bool.not_eq_true'] at he
    obtain ⟨rfl, hown⟩ := he
    exact h.step hown
  | mention name => cases he
  | forget i =>
    obtain rfl : i = u := by simpa [concerns] using he
    exact ⟨rfl, h.modifyBuffer _⟩
  | allow i memory =>
    obtain rfl : i = u := by simpa [concerns] using he
    exact ⟨rfl, h.modifyBuffer _⟩

private theorem after_other (h : Follows u s t) (hconsistent : Consistent s ledgers) {e : Event}
    (he : s.concerns u e = false) : Follows u (s.after e) t := by
  cases e with
  | add memory spec options => exact h.add_other (by simpa [concerns] using he) memory spec options
  | request i request =>
    by_cases hi : i = u
    · subst hi
      have htrespasses : s.trespasses i request = true := by simpa [concerns] using he
      obtain ⟨a, name, work, -, -, hstep⟩ := step_of_trespasses hconsistent htrespasses
      rw [Session.after, hstep]
      exact h
    · exact h.step_other hconsistent hi request
  | mention name =>
    refine ⟨h.assembler, h.identity, fun other hother => ?_⟩
    have hget : (s.mention name).labels.get other = s.labels.get other :=
      s.labels.get_set_get name other
    rw [Session.after, hget] at hother ⊢
    exact h.labels other hother
  | forget i => exact h.modifyBuffer_other (by simpa [concerns] using he) _
  | allow i memory => exact h.modifyBuffer_other (by simpa [concerns] using he) _

/-- The share of the assembler, taken alone, goes as it went in the run. -/
theorem run (h : Follows u s t) (hconsistent : Consistent s ledgers) (events : List Event) :
    (t.transcript ((s.share u events).map Prod.fst)).map Prod.fst =
        (s.share u events).map Prod.snd ∧
      Follows u (s.run events) (t.run ((s.share u events).map Prod.fst)) := by
  induction events generalizing s t ledgers with
  | nil => exact ⟨rfl, h⟩
  | cons e rest ih =>
    rw [run_cons, share]
    cases he : s.concerns u e with
    | true =>
      obtain ⟨hresult, hafter⟩ := h.after he
      obtain ⟨hresults, hrest⟩ := ih hafter (hconsistent.after e)
      simp only [if_true, List.map_cons, transcript, run_cons, hresult, hresults]
      exact ⟨trivial, hrest⟩
    | false =>
      simp only [Bool.false_eq_true, if_false]
      exact ih (h.after_other hconsistent he) (hconsistent.after e)

end Follows

private theorem follows_vacant (u : Nat) : Follows u empty (vacant u) where
  assembler := by
    simp only [assembler?, vacant, empty, Array.getElem?_replicate]
    split <;> rfl
  identity _ := by simp [vacant]
  labels _ _ := rfl

/-- Take out of a run of several assemblers over shared labels all that does not concern assembler
`u`: the steps of others, and its own steps on labels that belonged to another buffer at the time.
What is left goes alone as it went in the run, step by step, and leaves the same assembler. Each of
its own steps that was taken out had failed, for a reason that the request names, and had changed
nothing in the session. -/
theorem assemblers_isolated (events : List Event) (u : Nat) :
    ((vacant u).transcript ((empty.share u events).map Prod.fst)).map Prod.fst =
      (empty.share u events).map Prod.snd ∧
    ((vacant u).run ((empty.share u events).map Prod.fst)).assembler? u =
      (empty.run events).assembler? u ∧
    ∀ before request rest, events = before ++ .request u request :: rest →
      (empty.run before).trespasses u request = true →
      ∃ a name work, (empty.run before).assembler? u = some a ∧
        request.linking? a.target = some (name, work) ∧
        (empty.run before).step u request = (empty.run before, .failed (.error
          (request.rebuff a.buffer.size ((empty.run before).labels.get name)))) := by
  obtain ⟨hresults, hfollows⟩ := (follows_vacant u).run consistent_empty events
  refine ⟨hresults, hfollows.assembler, fun before request rest _ htrespasses => ?_⟩
  exact step_of_trespasses (consistent_run before) htrespasses

/-- Two assemblers that both use the label `out`, which the first one has. -/
private def contestedRun : List Event :=
  [.add 4096 .x86 { Options.standard with initialCapacity := 128 },
   .add 4096 .a64 { Options.standard with initialCapacity := 128 },
   .request 0 (.x86Branch "out" .call),
   .request 1 (.a64Branch "loop" (.jump false)),
   .request 1 (.a64Branch "out" (.jump false)),
   .request 1 (.a64Branch "out" (.onCondition .nv)),
   .request 0 (.bind "out"),
   .request 1 (.bind "out"),
   .request 1 (.bind "loop")]

theorem contestedRun_isolated :
    (empty.share 1 contestedRun).map (fun step => step.2.isReply) = [true, true, true] ∧
      ((vacant 1).run ((empty.share 1 contestedRun).map Prod.fst)).assembler? 1 =
        (empty.run contestedRun).assembler? 1 ∧
      (empty.run (contestedRun.take 7)).step 1 (.bind "out") =
        (empty.run (contestedRun.take 7), .failed (.error (.labelAlreadyBound 5))) := by
  have hrun : (empty.run (contestedRun.take 7)).trespasses 1 (.bind "out") = true ∧
      ((empty.run (contestedRun.take 7)).labels.get "out").position? = some 5 ∧
      (empty.share 1 contestedRun).map (fun step => step.2.isReply) = [true, true, true] := by
    decide +kernel
  obtain ⟨htrespasses, hposition, hshare⟩ := hrun
  obtain ⟨-, hassembler, homitted⟩ := assemblers_isolated contestedRun 1
  obtain ⟨a, name, work, -, hlinking, hstep⟩ :=
    homitted (contestedRun.take 7) (.bind "out") _ rfl htrespasses
  have hname : name = "out" := by
    cases htarget : a.target <;> rw [htarget] at hlinking <;> cases hlinking <;> rfl
  subst hname
  simp only [Request.rebuff, hposition] at hstep
  exact ⟨hshare, hassembler, hstep⟩

end Session

end MachineCode
