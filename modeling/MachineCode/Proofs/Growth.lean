import MachineCode.Proofs.Lockstep

/-!
# Growth is transparent

Initial capacity, trap filling and the memory that the allocator has are seen in the storage only.
Two runs that differ in nothing else, and neither of which runs out of memory, get the same answers
and show the same code and labels after every event.
-/

namespace MachineCode

open CodeBuffer

def Outcome.isMemory : Outcome → Bool
  | .reply _ => false
  | .failed failure => failure.isMemory

/-- The request is about the storage. Raw writes are, because they skip the capacity check. -/
def Request.readsStorage : Request → Bool
  | .capacity | .unused | .bare _ => true
  | _ => false

/-- What an assembler shows of itself, the storage apart. -/
structure Face where
  target : Target
  id : Nat
  bytes : Array Byte
  size : Nat
  unresolved : Nat

def Assembler.face (a : Assembler) : Face :=
  ⟨a.target, a.buffer.id, a.buffer.bytes, a.buffer.size, a.buffer.unresolved⟩

private theorem Assembler.face_eq_iff {a c : Assembler} :
    a.face = c.face ↔ a.target = c.target ∧ Alike a.buffer c.buffer := by
  simp only [face, Face.mk.injEq]
  constructor
  · rintro ⟨htarget, hid, hbytes, -, hunresolved⟩
    exact ⟨htarget, hid, hbytes, hunresolved⟩
  · rintro ⟨htarget, h⟩
    exact ⟨htarget, h.id, h.bytes, h.size, h.unresolved⟩

/-! ## Requests -/

/-- One of the requests ran out of memory, or both were served alike. -/
def Served.Same (x y : Served) : Prop :=
  x.2.2.isMemory = true ∨ y.2.2.isMemory = true ∨
    x.1.map Assembler.face = y.1.map Assembler.face ∧ x.2 = y.2

section

variable {target : Target} {b c : CodeBuffer} {labels : Labels}

private theorem served_same (h : Alike b c) (outcome : Outcome) :
    Served.Same (some ⟨target, b⟩, labels, outcome) (some ⟨target, c⟩, labels, outcome) :=
  .inr (.inr ⟨congrArg some (Assembler.face_eq_iff.mpr ⟨rfl, h⟩), rfl⟩)

private theorem askAsserted_same (h : Alike b c) {value : CodeBuffer → Except Violation Int}
    (hvalue : value b = value c) :
    Served.Same (askAsserted target b labels value) (askAsserted target c labels value) := by
  simp only [askAsserted, hvalue]
  cases value c <;> exact served_same h _

private theorem onBuffer_same (h : Alike b c) {work : Emit Reply}
    (hwork : Lockstep Alike Alike Alike work) :
    Served.Same (onBuffer target b labels work) (onBuffer target c labels work) := by
  have hend := hwork b c h
  simp only [onBuffer]
  generalize work b = x, work c = y at hend ⊢
  cases hend with
  | left isMemory => exact .inl isMemory
  | right isMemory => exact .inr (.inl isMemory)
  | ok related => exact served_same related _
  | error related => exact served_same related _

private theorem onLabel_same (h : Alike b c) (name : String) {work : Link Unit}
    (hwork : Link.Linked work) :
    Served.Same (onLabel target b labels name work) (onLabel target c labels name work) := by
  have hend := hwork ⟨b, labels.get name⟩ ⟨c, labels.get name⟩ ⟨h, rfl⟩
  simp only [onLabel]
  generalize work ⟨b, labels.get name⟩ = x, work ⟨c, labels.get name⟩ = y at hend ⊢
  cases hend with
  | left isMemory => exact .inl isMemory
  | right isMemory => exact .inr (.inl isMemory)
  | ok related =>
    simp only [related.label]
    exact served_same related.buffer _
  | error related =>
    simp only [related.label]
    exact served_same related.buffer _

end

private theorem Assembler.serve_same {a c : Assembler} (h : a.face = c.face) (labels : Labels)
    {request : Request} (hrequest : request.readsStorage = false) :
    Served.Same (a.serve labels request) (c.serve labels request) := by
  obtain ⟨target, b⟩ := a
  obtain ⟨target', c⟩ := c
  obtain ⟨rfl : target = target', halike : Alike b c⟩ := face_eq_iff.mp h
  have hrefused : Served.Same (some ⟨target, b⟩, labels, .failed .refused)
      (some ⟨target, c⟩, labels, .failed .refused) := served_same halike _
  cases request with
  | capacity => cases hrequest
  | unused => cases hrequest
  | bare write => cases hrequest
  | size =>
    simp only [serve, ask, halike.size]
    exact served_same halike _
  | isEmpty =>
    have hcursor : b.cursor = c.cursor := halike.size
    simp only [serve, ask, isEmpty, hcursor]
    exact served_same halike _
  | unresolved =>
    simp only [serve, ask, halike.unresolved]
    exact served_same halike _
  | bytes =>
    simp only [serve, ask, halike.bytes]
    exact served_same halike _
  | farBranches =>
    cases target with
    | a64 far => exact served_same halike _
    | _ => exact hrefused
  | loadByte offset => exact askAsserted_same halike (by simp only [halike.loadByte])
  | loadWord offset => exact askAsserted_same halike (by simp only [halike.loadWord])
  | loadSigned offset => exact askAsserted_same halike (by simp only [halike.loadWord])
  | copyOver destination => exact onBuffer_same halike (copyOver_lockstep destination).map
  | handOver =>
    simp only [serve, halike.handOver]
    exact .inr (.inr (by cases c.handOver <;> exact ⟨rfl, rfl⟩))
  | x86 operation =>
    cases target with
    | x86 => exact onBuffer_same halike (X86.run_lockstep operation).map
    | _ => exact hrefused
  | a64 operation =>
    cases target with
    | a64 far => exact onBuffer_same halike (A64.run_lockstep operation).map
    | _ => exact hrefused
  | x86Branch name branch =>
    cases target with
    | x86 => exact onLabel_same halike name (X86.branch_linked branch)
    | _ => exact hrefused
  | a64Branch name branch =>
    cases target with
    | a64 far => exact onLabel_same halike name (A64.branch_linked far branch)
    | _ => exact hrefused
  | bind name =>
    cases target with
    | x86 => exact onLabel_same halike name X86.bind_linked
    | a64 far => exact onLabel_same halike name (A64.bind_linked far)
    | bare => exact hrefused

/-! ## Runs -/

def TargetSpec.target (far : Bool) : TargetSpec → Target
  | .x86 => .x86
  | .a64 => .a64 far
  | .bare _ => .bare

/-- The event with nothing said about storage. -/
def Event.withoutStorage : Event → Event
  | .add _ spec options => .add 0 spec { options with initialCapacity := 0, trapFill := false }
  | .allow i _ => .allow i 0
  | event => event

def Event.readsStorage : Event → Bool
  | .request _ asked => asked.readsStorage
  | _ => false

namespace Session

structure View where
  assemblers : Array (Option Face)
  labels : Labels

def view (s : Session) : View :=
  ⟨s.assemblers.map (Option.map Assembler.face), s.labels⟩

def result (s : Session) : Event → Outcome
  | .add memory spec options =>
    match s.add memory spec options with
    | .ok _ => .reply .done
    | .error e => .failed (.error e)
  | .request i request => (s.step i request).2
  | .mention _ | .forget _ | .allow _ _ => .reply .done

/-- For each event the answer and what is seen afterwards. -/
def transcript (s : Session) : List Event → List (Outcome × View)
  | [] => []
  | event :: rest => (s.result event, (s.after event).view) :: (s.after event).transcript rest

variable {s t : Session}

private theorem assembler?_of_view_eq (h : s.view = t.view) (i : Nat) :
    (s.assembler? i).map Assembler.face = (t.assembler? i).map Assembler.face := by
  have hslot : ∀ u : Session, (u.assembler? i).map Assembler.face =
      (u.view.assemblers[i]?).join := by
    intro u
    simp only [assembler?, view, Array.getElem?_map]
    cases u.assemblers[i]? <;> rfl
  rw [hslot, hslot, h]

private theorem size_of_view_eq (h : s.view = t.view) : s.assemblers.size = t.assemblers.size := by
  simpa [view] using congrArg (fun v => v.assemblers.size) h

private theorem create_cases (id memory : Nat) (spec : TargetSpec) (options : Options) :
    (∃ a, Assembler.create id memory spec options = .ok a ∧
        a.face = ⟨spec.target options.farBranches, id, #[], 0, 0⟩) ∨
      ∃ e, Assembler.create id memory spec options = .error e ∧ e.isMemory = true := by
  have hbuffer : ∀ pattern,
      (∃ b, CodeBuffer.create id memory options pattern = .ok b ∧
        b.id = id ∧ b.bytes = #[] ∧ b.size = 0 ∧ b.unresolved = 0) ∨
      ∃ e, CodeBuffer.create id memory options pattern = .error e ∧ e.isMemory = true := by
    intro pattern
    simp only [CodeBuffer.create]
    split
    · exact .inl ⟨_, rfl, rfl, by simp [CodeBuffer.bytes], rfl, rfl⟩
    · exact .inr ⟨_, rfl, rfl⟩
  have hface : ∀ pattern target,
      (∃ a, (do return ⟨target, ← CodeBuffer.create id memory options pattern⟩ :
          Except EmitError Assembler) = .ok a ∧ a.face = ⟨target, id, #[], 0, 0⟩) ∨
      ∃ e, (do return ⟨target, ← CodeBuffer.create id memory options pattern⟩ :
          Except EmitError Assembler) = .error e ∧ e.isMemory = true := by
    intro pattern target
    rcases hbuffer pattern with ⟨b, hb, hid, hbytes, hsize, hunresolved⟩ | ⟨e, he, hmemory⟩
    · refine .inl ⟨⟨target, b⟩, by rw [hb]; rfl, ?_⟩
      simp only [Assembler.face, hid, hbytes, hsize, hunresolved]
    · exact .inr ⟨e, by rw [he]; rfl, hmemory⟩
  cases spec <;> exact hface _ _

private theorem add_same (h : s.view = t.view) {memory memory' : Nat} {spec : TargetSpec}
    {options options' : Options} (hfar : options.farBranches = options'.farBranches)
    (hs : (s.result (.add memory spec options)).isMemory = false)
    (ht : (t.result (.add memory' spec options')).isMemory = false) :
    s.result (.add memory spec options) = t.result (.add memory' spec options') ∧
      (s.after (.add memory spec options)).view = (t.after (.add memory' spec options')).view := by
  have hadded : ∀ (u : Session) (memory : Nat) (options : Options),
      (u.result (.add memory spec options)).isMemory = false →
      u.result (.add memory spec options) = .reply .done ∧
        (u.after (.add memory spec options)).view =
          ⟨u.view.assemblers.push (some ⟨spec.target options.farBranches,
            u.assemblers.size, #[], 0, 0⟩), u.labels⟩ := by
    intro u memory options hu
    rcases create_cases u.assemblers.size memory spec options with ⟨a, ha, hface⟩ | ⟨e, he, hmemory⟩
    · have hadd : u.add memory spec options =
          .ok { u with assemblers := u.assemblers.push (some a) } := by
        rw [add, ha]
        rfl
      simp only [result, after, hadd, view, Array.map_push, Option.map_some, hface, and_self]
    · have hadd : u.add memory spec options = .error e := by
        rw [add, he]
        rfl
      simp only [result, hadd] at hu
      cases hu.symm.trans hmemory
  obtain ⟨hsresult, hsview⟩ := hadded s memory options hs
  obtain ⟨htresult, htview⟩ := hadded t memory' options' ht
  refine ⟨hsresult.trans htresult.symm, ?_⟩
  have hlabels : s.labels = t.labels := congrArg View.labels h
  rw [hsview, htview, h, hfar, size_of_view_eq h, hlabels]

private theorem step_same (h : s.view = t.view) (i : Nat) {request : Request}
    (hrequest : request.readsStorage = false) (hs : (s.step i request).2.isMemory = false)
    (ht : (t.step i request).2.isMemory = false) :
    (s.step i request).2 = (t.step i request).2 ∧
      (s.step i request).1.view = (t.step i request).1.view := by
  have hslot := assembler?_of_view_eq h i
  have hlabels : s.labels = t.labels := congrArg View.labels h
  have harray : s.view.assemblers = t.view.assemblers := congrArg View.assemblers h
  cases ha : s.assembler? i with
  | none =>
    cases hc : t.assembler? i with
    | none =>
      simp only [step, ha, hc]
      exact ⟨trivial, h⟩
    | some c =>
      rw [ha, hc] at hslot
      cases hslot
  | some a =>
    cases hc : t.assembler? i with
    | none =>
      rw [ha, hc] at hslot
      cases hslot
    | some c =>
      rw [ha, hc] at hslot
      rw [step_eq ha] at hs ⊢
      rw [step_eq hc, ← hlabels] at ht ⊢
      rcases Assembler.serve_same (Option.some.inj hslot) s.labels hrequest with
        hmemory | hmemory | ⟨hface, hrest⟩
      · cases hs.symm.trans hmemory
      · cases ht.symm.trans hmemory
      · refine ⟨congrArg (fun rest => rest.2) hrest, ?_⟩
        simp only [view] at harray
        simp only [view, Array.map_setIfInBounds, harray, hface, hrest]

private theorem view_modifyBuffer (s : Session) (i : Nat) {f : CodeBuffer → CodeBuffer}
    (hf : ∀ b, Appends #[] b (f b)) : (s.modifyBuffer i f).view = s.view := by
  have hface : ∀ a : Assembler, ({ a with buffer := f a.buffer } : Assembler).face = a.face := by
    intro a
    have happ := hf a.buffer
    exact Assembler.face_eq_iff.mpr ⟨rfl, happ.id, by simpa using happ.bytes, happ.unresolved⟩
  have hslots : (s.modifyBuffer i f).view.assemblers = s.view.assemblers := by
    apply Array.ext_getElem?
    intro j
    simp only [view, modifyBuffer, Array.getElem?_map, Array.getElem?_modify]
    split
    · rw [Option.map_map]
      congr 1
      funext slot
      cases slot with
      | none => rfl
      | some a => exact congrArg some (hface a)
    · rfl
  exact congrArg (fun slots => View.mk slots s.labels) hslots

private theorem after_same (h : s.view = t.view) {event event' : Event}
    (hevent : event.withoutStorage = event'.withoutStorage)
    (hstorage : event.readsStorage = false) (hs : (s.result event).isMemory = false)
    (ht : (t.result event').isMemory = false) :
    s.result event = t.result event' ∧ (s.after event).view = (t.after event').view := by
  cases event with
  | add memory spec options =>
    cases event' with
    | add memory' spec' options' =>
      simp only [Event.withoutStorage, Event.add.injEq, Options.mk.injEq, true_and, and_true]
        at hevent
      obtain ⟨rfl, hfar⟩ := hevent
      exact add_same h hfar hs ht
    | _ => cases hevent
  | request i request =>
    cases event' with
    | request j request' =>
      cases hevent
      exact step_same h i hstorage hs ht
    | _ => cases hevent
  | mention name =>
    cases event' with
    | mention name' =>
      cases hevent
      have hlabels : s.labels = t.labels := congrArg View.labels h
      have harray : s.view.assemblers = t.view.assemblers := congrArg View.assemblers h
      refine ⟨rfl, ?_⟩
      simp only [view] at harray
      simp only [after, mention, view, hlabels, harray]
    | _ => cases hevent
  | forget i =>
    cases event' with
    | forget j =>
      cases hevent
      refine ⟨rfl, ?_⟩
      simp only [after, forget, view_modifyBuffer _ _ appends_forget, h]
    | _ => cases hevent
  | allow i memory =>
    cases event' with
    | allow j memory' =>
      cases hevent
      refine ⟨rfl, ?_⟩
      simp only [after, allow, view_modifyBuffer _ _ (appends_allow _), h]
    | _ => cases hevent

private theorem transcript_same {events events' : List Event} (h : s.view = t.view)
    (hsame : events.map Event.withoutStorage = events'.map Event.withoutStorage)
    (hstorage : ∀ event ∈ events, event.readsStorage = false)
    (hs : ∀ entry ∈ s.transcript events, entry.1.isMemory = false)
    (ht : ∀ entry ∈ t.transcript events', entry.1.isMemory = false) :
    s.transcript events = t.transcript events' := by
  induction events generalizing s t events' with
  | nil =>
    rw [List.map_nil, eq_comm, List.map_eq_nil_iff] at hsame
    rw [hsame]
    rfl
  | cons event rest ih =>
    cases events' with
    | nil => cases hsame
    | cons event' rest' =>
      simp only [transcript, List.mem_cons, forall_eq_or_imp] at hs ht hstorage ⊢
      obtain ⟨hevent, hrest⟩ := List.cons.inj hsame
      obtain ⟨hresult, hview⟩ := after_same h hevent hstorage.1 hs.1 ht.1
      rw [hresult, hview, ih hview hrest hstorage.2 hs.2 ht.2]

/-- Two programs that differ at most in what they say about storage, and in neither of which an
event fails for want of memory, have the same transcript. -/
theorem growth_transparent {events events' : List Event}
    (hsame : events.map Event.withoutStorage = events'.map Event.withoutStorage)
    (hstorage : ∀ event ∈ events, event.readsStorage = false)
    (hmemory : ∀ entry ∈ empty.transcript events, entry.1.isMemory = false)
    (hmemory' : ∀ entry ∈ empty.transcript events', entry.1.isMemory = false) :
    empty.transcript events = empty.transcript events' :=
  transcript_same rfl hsame hstorage hmemory hmemory'

/-- Two assemblers that start with `capacity` bytes: branches that are pending while the code grows,
a label of the other assembler, a hand-over that is refused and two that are not. -/
private def stretchedRun (capacity : Nat) (trapFill : Bool) : List Event :=
  let options : Options := { farBranches := true, initialCapacity := capacity, trapFill }
  [.add 4096 .x86 options,
   .add 4096 .a64 options,
   .request 0 (.x86Branch "out" (.jump .always .near)),
   .request 0 (.x86 (.bytes (List.replicate 40 0x90#8))),
   .request 0 (.x86Branch "out" (.jump (.onCondition .equal) .far)),
   .request 1 (.a64Branch "out" (.jump false)),
   .request 1 (.a64Branch "end" (.onCondition .eq)),
   .request 1 (.a64 (.align 64)),
   .request 1 (.copyOver (Array.replicate 80 0#8)),
   .request 0 (.bind "out"),
   .request 0 .handOver,
   .request 1 (.bind "end"),
   .request 1 (.copyOver (Array.replicate 80 0#8))]

theorem stretchedRun_transparent :
    ((empty.run (stretchedRun 64 true)).assembler? 1).map (·.buffer.capacity) = some 128 ∧
      ((empty.run (stretchedRun 192 false)).assembler? 1).map (·.buffer.capacity) = some 192 ∧
      empty.transcript (stretchedRun 64 true) = empty.transcript (stretchedRun 192 false) := by
  refine ⟨by decide +kernel, by decide +kernel, growth_transparent rfl ?_ ?_ ?_⟩
  · decide
  · decide +kernel
  · decide +kernel

end Session

end MachineCode
