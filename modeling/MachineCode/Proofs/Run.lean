import MachineCode.Proofs.Serve

/-!
# Runs of a session

A run is a list of events in any order: assemblers are added, requests are made of them, labels are
looked up, and allocators come to grant more or less than before. The ledgers of a run are read off
its requests and replies; in every state that a run reaches, code and labels agree with them.
-/

namespace MachineCode

inductive Event where
  | add (memory : Nat) (spec : TargetSpec) (options : Options)
  | request (i : Nat) (request : Request)
  | mention (name : String)
  | forget (i : Nat)
  /-- The allocator of an assembler has another limit from now on. -/
  | allow (i memory : Nat)

def Outcome.isReply : Outcome → Bool
  | .reply _ => true
  | .failed _ => false

namespace Session

def after (s : Session) : Event → Session
  | .add memory spec options =>
    match s.add memory spec options with
    | .ok t => t
    | .error _ => s
  | .request i request => (s.step i request).1
  | .mention name => s.mention name
  | .forget i => s.forget i
  | .allow i memory => s.allow i memory

def run (s : Session) (events : List Event) : Session :=
  events.foldl after s

theorem run_cons (s : Session) (e : Event) (rest : List Event) :
    s.run (e :: rest) = (s.after e).run rest :=
  rfl

theorem run_append (s : Session) (before rest : List Event) :
    s.run (before ++ rest) = (s.run before).run rest :=
  List.foldl_append ..

/-- The branch that an event adds to the ledger of assembler `i`. -/
def issued (s : Session) (i : Nat) : Event → List Issue
  | .request j request =>
    if j = i then
      match s.assembler? i, (s.step i request).2 with
      | some a, .reply _ => (request.issue? s.labels a).toList
      | _, _ => []
    else []
  | _ => []

/-- The branches of assembler `i` in a run, the newest first. -/
def ledger (s : Session) (i : Nat) : List Event → Ledger
  | [] => []
  | e :: rest => (s.after e).ledger i rest ++ s.issued i e

theorem ledger_append (s : Session) (i : Nat) (before rest : List Event) :
    s.ledger i (before ++ rest) = (s.run before).ledger i rest ++ s.ledger i before := by
  induction before generalizing s with
  | nil => rw [ledger, List.append_nil]; rfl
  | cons e before ih =>
    rw [List.cons_append, ledger, ledger, ih, run_cons, List.append_assoc]

/-! ## Steps -/

section

variable {s : Session} {i : Nat} {a : Assembler}

theorem lt_size_of_assembler? (h : s.assembler? i = some a) : i < s.assemblers.size := by
  apply Nat.lt_of_not_le
  intro hge
  rw [assembler?, Array.getElem?_eq_none hge] at h
  cases h

theorem step_eq (h : s.assembler? i = some a) (request : Request) :
    s.step i request =
      (⟨(s.assemblers.setIfInBounds i none).setIfInBounds i (a.serve s.labels request).1,
        (a.serve s.labels request).2.1⟩, (a.serve s.labels request).2.2) := by
  simp only [step, h]

theorem assembler?_step (h : s.assembler? i = some a) (request : Request) (j : Nat) :
    (s.step i request).1.assembler? j =
      if j = i then (a.serve s.labels request).1 else s.assembler? j := by
  have hi := lt_size_of_assembler? h
  rw [step_eq h]
  simp only [assembler?, Array.getElem?_setIfInBounds, Array.size_setIfInBounds]
  by_cases hj : j = i
  · subst hj
    simp [hi]
  · simp [hj, Ne.symm hj]

theorem size_step (i : Nat) (s : Session) (request : Request) :
    (s.step i request).1.assemblers.size = s.assemblers.size := by
  simp only [step]
  split
  · rfl
  · simp

theorem size_modifyBuffer (s : Session) (i : Nat) (f : CodeBuffer → CodeBuffer) :
    (s.modifyBuffer i f).assemblers.size = s.assemblers.size := by
  simp only [modifyBuffer, Array.size_modify]

theorem assembler?_modifyBuffer {f : CodeBuffer → CodeBuffer}
    (hf : ∀ b, CodeBuffer.Appends #[] b (f b)) {j : Nat} {b : Assembler}
    (h : (s.modifyBuffer i f).assembler? j = some b) :
    ∃ a, s.assembler? j = some a ∧ a.target = b.target ∧
      CodeBuffer.Appends #[] a.buffer b.buffer := by
  simp only [assembler?, modifyBuffer, Array.getElem?_modify] at h ⊢
  by_cases hj : i = j
  · rw [if_pos hj] at h
    cases hslot : s.assemblers[j]? with
    | none =>
      rw [hslot] at h
      cases h
    | some slot =>
      cases slot with
      | none =>
        rw [hslot] at h
        cases h
      | some a =>
        rw [hslot] at h
        cases h
        exact ⟨a, rfl, rfl, hf a.buffer⟩
  · rw [if_neg hj] at h
    exact ⟨b, h, rfl, .refl _⟩

theorem create_eq_ok {id memory : Nat} {spec : TargetSpec} {options : Options}
    (h : Assembler.create id memory spec options = .ok a) :
    a.buffer.id = id ∧ a.buffer.unresolved = 0 ∧ a.buffer.Granted := by
  have hbuffer : ∀ pattern b, CodeBuffer.create id memory options pattern = .ok b →
      b.id = id ∧ b.unresolved = 0 ∧ b.Granted := by
    intro pattern b hb
    simp only [CodeBuffer.create] at hb
    split at hb
    · next hgrants =>
      cases hb
      refine ⟨rfl, rfl, ?_⟩
      simp only [CodeBuffer.grants, Bool.and_eq_true, decide_eq_true_eq] at hgrants
      simpa only [CodeBuffer.Granted, CodeBuffer.capacity, CodeBuffer.fill_size] using hgrants.2
    · cases hb
  cases spec <;> simp only [Assembler.create, except_bind_eq_ok] at h <;>
    obtain ⟨b, hb, ha⟩ := h <;> cases ha <;> exact hbuffer _ b hb

theorem create_size {id memory : Nat} {spec : TargetSpec} {options : Options}
    (h : Assembler.create id memory spec options = .ok a) : a.buffer.size = 0 := by
  have hbuffer : ∀ pattern b, CodeBuffer.create id memory options pattern = .ok b → b.size = 0 := by
    intro pattern b hb
    simp only [CodeBuffer.create] at hb
    split at hb
    · cases hb
      rfl
    · cases hb
  cases spec <;> simp only [Assembler.create, except_bind_eq_ok] at h <;>
    obtain ⟨b, hb, ha⟩ := h <;> cases ha <;> exact hbuffer _ b hb

theorem add_eq_ok {t : Session} {memory : Nat} {spec : TargetSpec} {options : Options}
    (h : s.add memory spec options = .ok t) :
    ∃ a, Assembler.create s.assemblers.size memory spec options = .ok a ∧
      t = { s with assemblers := s.assemblers.push (some a) } := by
  simp only [add, except_bind_eq_ok] at h
  obtain ⟨a, ha, ht⟩ := h
  exact ⟨a, ha, (Except.ok.inj ht).symm⟩

theorem assembler?_push {s : Session} {i : Nat} {a b : Assembler}
    (h : assembler? { s with assemblers := s.assemblers.push (some a) } i = some b) :
    s.assembler? i = some b ∨ i = s.assemblers.size ∧ b = a := by
  simp only [assembler?, Array.getElem?_push] at h ⊢
  by_cases hi : i = s.assemblers.size
  · rw [if_pos hi] at h
    cases h
    exact .inr ⟨hi, rfl⟩
  · rw [if_neg hi] at h
    exact .inl h

theorem issued_eq_record (h : s.assembler? i = some a) (request : Request) (ledger : Ledger) :
    s.issued i (.request i request) ++ ledger =
      request.record s.labels a ledger (a.serve s.labels request).2.2 := by
  have hout : (s.step i request).2 = (a.serve s.labels request).2.2 := by rw [step_eq h]
  simp only [issued, if_true, h, hout]
  cases (a.serve s.labels request).2.2 <;> rfl

theorem issued_of_ne {j : Nat} (h : j ≠ i) (request : Request) :
    s.issued j (.request i request) = [] := by
  rw [issued, if_neg (Ne.symm h)]

end

/-! ## Consistency -/

/-- Every label and every assembler of the session is as the ledgers say. -/
structure Consistent (s : Session) (ledgers : Nat → Ledger) : Prop where
  names : (s.labels.map Prod.fst).Nodup
  fresh : ∀ name, (s.labels.get name).owner = none →
    (s.labels.get name).place = .unbound Heads.none
  owner : ∀ name j, (s.labels.get name).owner = some j → j < s.assemblers.size
  agrees : ∀ i a, s.assembler? i = some a → a.buffer.id = i ∧ Agrees s.labels a (ledgers i)
  beyond : ∀ i, s.assemblers.size ≤ i → ledgers i = []

namespace Consistent

variable {s : Session} {ledgers : Nat → Ledger}

theorem handled (h : Consistent s ledgers) {i : Nat} {a : Assembler} (ha : s.assembler? i = some a)
    (request : Request) : s.labels.Handled i (s.step i request).1.labels := by
  obtain ⟨hid, hagrees⟩ := h.agrees i a ha
  have hhandled := (Assembler.serve_serves hagrees h.fresh request).handled
  rw [hid] at hhandled
  rw [step_eq ha]
  exact hhandled

private theorem step (h : Consistent s ledgers) (i : Nat) (request : Request) :
    Consistent (s.step i request).1 (fun j => s.issued j (.request i request) ++ ledgers j) := by
  cases ha : s.assembler? i with
  | none =>
    have hsame : (s.step i request).1 = s := by simp only [Session.step, ha]
    have hissued : ∀ j, s.issued j (.request i request) = [] := by
      intro j
      by_cases hj : j = i
      · subst hj
        simp only [issued, if_true, ha]
      · exact issued_of_ne hj request
    simp only [hsame, hissued, List.nil_append]
    exact h
  | some a =>
    obtain ⟨hid, hagrees⟩ := h.agrees i a ha
    have hserves := Assembler.serve_serves hagrees h.fresh request
    rw [← issued_eq_record ha] at hserves
    have hlabels : (s.step i request).1.labels = (a.serve s.labels request).2.1 := by
      rw [step_eq ha]
    have hhandled := h.handled ha request
    constructor
    case names => exact hhandled.names h.names
    case fresh =>
      intro name hnone
      rcases hhandled.others name with hsame | ⟨-, howner⟩
      · rw [hsame] at hnone ⊢
        exact h.fresh name hnone
      · simp [howner] at hnone
    case owner =>
      intro name j howner
      rw [size_step]
      rcases hhandled.others name with hsame | ⟨-, hafter⟩
      · rw [hsame] at howner
        exact h.owner name j howner
      · rw [hafter] at howner
        cases howner
        exact lt_size_of_assembler? ha
    case agrees =>
      intro j b hb
      rw [assembler?_step ha] at hb
      by_cases hj : j = i
      · subst hj
        rw [if_pos rfl] at hb
        rw [hb] at hserves
        rw [hlabels]
        exact ⟨hserves.id_eq.trans hid, hserves.agrees hagrees h.fresh⟩
      · rw [if_neg hj] at hb
        obtain ⟨hjd, hb⟩ := h.agrees j b hb
        rw [issued_of_ne hj, List.nil_append]
        exact ⟨hjd, hb.handled hhandled (hjd ▸ hj)⟩
    case beyond =>
      intro j hj
      rw [size_step] at hj
      have hne : j ≠ i := fun heq => by
        have := lt_size_of_assembler? ha
        omega
      rw [issued_of_ne hne, List.nil_append]
      exact h.beyond j hj

private theorem mention (h : Consistent s ledgers) (name : String) :
    Consistent (s.mention name) ledgers := by
  have hget : ∀ n, (s.mention name).labels.get n = s.labels.get n :=
    s.labels.get_set_get name
  constructor
  case names => exact Labels.nodup_set h.names name _
  case fresh =>
    intro n hnone
    rw [hget] at hnone ⊢
    exact h.fresh n hnone
  case owner =>
    intro n j howner
    rw [hget] at howner
    exact h.owner n j howner
  case agrees =>
    intro i a ha
    obtain ⟨hid, hagrees⟩ := h.agrees i a ha
    exact ⟨hid, hagrees.congr (fun n _ => hget n) (s.labels.pendingIn_set_get name _)⟩
  case beyond => exact h.beyond

private theorem modifyBuffer (h : Consistent s ledgers) (i : Nat) {f : CodeBuffer → CodeBuffer}
    (hf : ∀ b, CodeBuffer.Appends #[] b (f b)) : Consistent (s.modifyBuffer i f) ledgers := by
  have hsize := size_modifyBuffer s i f
  constructor
  case names => exact h.names
  case fresh => exact h.fresh
  case owner =>
    intro name j howner
    rw [hsize]
    exact h.owner name j howner
  case agrees =>
    intro j b hb
    obtain ⟨a, ha, htarget, happ⟩ := assembler?_modifyBuffer hf hb
    obtain ⟨hid, hagrees⟩ := h.agrees j a ha
    have hgrown := hagrees.grows ⟨_, happ⟩
    rw [htarget] at hgrown
    exact ⟨happ.id.trans hid, hgrown⟩
  case beyond =>
    intro j hj
    rw [hsize] at hj
    exact h.beyond j hj

private theorem pendingIn_eq_zero (h : Consistent s ledgers) :
    s.labels.pendingIn s.assemblers.size = 0 := by
  rw [Labels.pendingIn, List.countP_eq_zero]
  intro entry hentry hpends
  have hget := Labels.get_of_mem h.names hentry
  simp only [Label.pendsIn, Bool.and_eq_true, decide_eq_true_eq] at hpends
  rw [← hget] at hpends
  exact Nat.lt_irrefl _ (h.owner _ _ hpends.1)

private theorem add (h : Consistent s ledgers) {memory : Nat} {spec : TargetSpec}
    {options : Options} {t : Session} (ht : s.add memory spec options = .ok t) :
    Consistent t ledgers := by
  obtain ⟨a, hcreate, rfl⟩ := add_eq_ok ht
  obtain ⟨hid, hunresolved, hgranted⟩ := create_eq_ok hcreate
  constructor
  case names => exact h.names
  case fresh => exact h.fresh
  case owner =>
    intro name j howner
    rw [Array.size_push]
    exact Nat.lt_succ_of_lt (h.owner name j howner)
  case agrees =>
    intro i b hb
    rcases assembler?_push hb with hold | ⟨rfl, rfl⟩
    · exact h.agrees i b hold
    · rw [h.beyond _ (Nat.le_refl _)]
      refine ⟨hid, .create hgranted ?_ ?_⟩
      · intro name howner
        rw [hid] at howner
        exact Nat.lt_irrefl _ (h.owner name _ howner)
      · rw [hunresolved, hid, h.pendingIn_eq_zero]
  case beyond =>
    intro i hi
    rw [Array.size_push] at hi
    exact h.beyond i (Nat.le_of_succ_le hi)

theorem after (h : Consistent s ledgers) (e : Event) :
    Consistent (s.after e) (fun i => s.issued i e ++ ledgers i) := by
  cases e with
  | add memory spec options =>
    cases ht : s.add memory spec options with
    | ok t =>
      simp only [Session.after, ht]
      exact h.add ht
    | error e =>
      simp only [Session.after, ht]
      exact h
  | request i request => exact h.step i request
  | mention name => exact h.mention name
  | forget i => exact h.modifyBuffer i CodeBuffer.appends_forget
  | allow i memory => exact h.modifyBuffer i (CodeBuffer.appends_allow memory)

private theorem run (h : Consistent s ledgers) (events : List Event) :
    Consistent (s.run events) (fun i => s.ledger i events ++ ledgers i) := by
  induction events generalizing s ledgers with
  | nil => exact h
  | cons e rest ih =>
    have hrest := ih (h.after e)
    simp only [ledger, List.append_assoc]
    exact hrest

end Consistent

theorem consistent_empty : Consistent empty (fun _ => []) where
  names := List.nodup_nil
  fresh _ _ := rfl
  owner _ _ h := nomatch h
  agrees i a h := by simp [assembler?, empty] at h
  beyond _ _ := rfl

/-- In every state that a session can reach, code and labels agree with the ledgers of the run. -/
theorem consistent_run (events : List Event) :
    Consistent (empty.run events) (fun i => empty.ledger i events) := by
  simpa using consistent_empty.run events

/-! ## Branches of a run -/

/-- In the state `s` of a run, assembler `i` was `a` and gave a reply to the request. -/
def Replied (events : List Event) (s : Session) (i : Nat) (a : Assembler) (request : Request) :
    Prop :=
  ∃ before rest, events = before ++ .request i request :: rest ∧ s = empty.run before ∧
    s.assembler? i = some a ∧ (s.step i request).2.isReply = true

variable {events : List Event} {s : Session} {i : Nat} {a b : Assembler} {request : Request}
  {r : Issue}

theorem Replied.mem_ledger (h : Replied events s i a request)
    (hr : request.issue? s.labels a = some r) : r ∈ empty.ledger i events := by
  obtain ⟨before, rest, rfl, rfl, ha, hreply⟩ := h
  have hissued : (empty.run before).issued i (.request i request) = [r] := by
    simp only [issued, if_true, ha]
    cases hout : ((empty.run before).step i request).2 with
    | reply reply => simp only [hr, Option.toList_some]
    | failed failure =>
      rw [hout] at hreply
      cases hreply
  rw [ledger_append, ledger, hissued]
  simp

theorem Replied.appended (h : Replied events s i a request)
    (hr : request.issue? s.labels a = some r) :
    ∃ c, (s.step i request).1.assembler? i = some c ∧ r.start = a.buffer.size ∧
      c.buffer.size = a.buffer.size + r.shape.length := by
  obtain ⟨before, rest, rfl, rfl, ha, hreply⟩ := h
  have hconsistent := consistent_run before
  obtain ⟨-, hagrees⟩ := hconsistent.agrees i a ha
  have hserves := Assembler.serve_serves hagrees hconsistent.fresh request
  have hout : ((empty.run before).step i request).2 =
      (a.serve (empty.run before).labels request).2.2 := by
    rw [step_eq ha]
  rw [hout] at hreply
  cases houtcome : (a.serve (empty.run before).labels request).2.2 with
  | failed failure =>
    rw [houtcome] at hreply
    cases hreply
  | reply reply =>
    rw [houtcome, Request.record, hr, Option.toList_some, List.singleton_append] at hserves
    obtain ⟨t, hsome, hstart, hplaced⟩ := hserves.placed_of_cons
    refine ⟨⟨a.target, t.buffer⟩, ?_, hstart, Link.placed_size hplaced⟩
    rw [assembler?_step ha, if_pos rfl, hsome]

/-- A branch whose label ends up bound holds the way to it at the end of the run. -/
theorem Replied.resolved (h : Replied events s i a request)
    (hr : request.issue? s.labels a = some r) (hb : (empty.run events).assembler? i = some b)
    {p : Nat} (hp : ((empty.run events).labels.get r.name).position? = some p) :
    b.buffer.Granted ∧ r.Resolved p b.buffer.bytes := by
  obtain ⟨-, hagrees⟩ := (consistent_run events).agrees i b hb
  exact ⟨hagrees.granted,
    hagrees.resolved r (h.mem_ledger hr) p (Label.position?_eq_some.mp hp)⟩

end Session

end MachineCode
