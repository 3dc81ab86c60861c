import MachineCode.Proofs.Run

/-!
# Code leaves only when it is whole

The count of pending labels of a buffer is the number of its labels with pending branches. So code
leaves an assembler, by hand-over or by copy, exactly if every label that a branch of it refers to
is bound; and the position of a label is final.
-/

namespace MachineCode

/-! ## Pending labels -/

theorem Label.eq_of_fields {l l' : Label} (hplace : l.place = l'.place)
    (howner : l.owner = l'.owner) : l = l' := by
  cases l
  cases l'
  cases hplace
  cases howner
  rfl

private theorem Label.isLinked_eq_true {l : Label} :
    l.isLinked = true ↔ ∃ chain site, l.head chain = some site := by
  simp only [isLinked, Bool.or_eq_true, Option.isSome_iff_exists]
  constructor
  · intro h
    rcases h with (h | h) | h
    · exact ⟨.wide, h⟩
    · exact ⟨.near, h⟩
    · exact ⟨.short, h⟩
  · intro h
    obtain ⟨chain, hsite⟩ := h
    cases chain with
    | wide => exact .inl (.inl hsite)
    | near => exact .inl (.inr hsite)
    | short => exact .inr hsite

private theorem Labels.mem_of_get_ne_fresh {labels : Labels} {name : String}
    (h : labels.get name ≠ Label.fresh) : (name, labels.get name) ∈ labels := by
  induction labels with
  | nil => exact absurd rfl h
  | cons entry rest ih =>
    obtain ⟨key, l⟩ := entry
    rw [Labels.get_cons] at h ⊢
    by_cases hkey : name = key
    · rw [if_pos hkey, hkey]
      exact List.mem_cons_self ..
    · rw [if_neg hkey] at h ⊢
      exact List.mem_cons_of_mem _ (ih h)

def Labels.pendingNames (labels : Labels) (id : Nat) : List String :=
  (labels.filter fun entry => entry.2.pendsIn id).map Prod.fst

private theorem Labels.length_pendingNames (labels : Labels) (id : Nat) :
    (labels.pendingNames id).length = labels.pendingIn id := by
  rw [Labels.pendingNames, List.length_map, Labels.pendingIn, List.countP_eq_length_filter]

private theorem Labels.nodup_pendingNames {labels : Labels} (h : (labels.map Prod.fst).Nodup)
    (id : Nat) :
    (labels.pendingNames id).Nodup :=
  h.sublist (List.filter_sublist.map Prod.fst)

theorem Labels.mem_pendingNames {labels : Labels} (h : (labels.map Prod.fst).Nodup) {id : Nat}
    {name : String} :
    name ∈ labels.pendingNames id ↔
      (labels.get name).owner = some id ∧ (labels.get name).isLinked = true := by
  have hpends : (labels.get name).pendsIn id = true ↔
      (labels.get name).owner = some id ∧ (labels.get name).isLinked = true := by
    simp only [Label.pendsIn, Bool.and_eq_true, decide_eq_true_eq]
  rw [← hpends, Labels.pendingNames, List.mem_map]
  constructor
  · intro hmem
    obtain ⟨entry, hentry, rfl⟩ := hmem
    obtain ⟨hentry, hlinked⟩ := List.mem_filter.mp hentry
    rw [Labels.get_of_mem h hentry]
    exact hlinked
  · intro hlinked
    have hne : labels.get name ≠ Label.fresh := by
      intro hfresh
      rw [hfresh] at hlinked
      cases hlinked
    exact ⟨_, List.mem_filter.mpr ⟨Labels.mem_of_get_ne_fresh hne, hlinked⟩, rfl⟩

/-- The pending labels of a buffer are those of its ledger that are not bound. -/
theorem Agrees.mem_pendingNames {labels : Labels} {a : Assembler} {ledger : Ledger}
    (h : Agrees labels a ledger) (hnames : (labels.map Prod.fst).Nodup) (name : String) :
    name ∈ labels.pendingNames a.buffer.id ↔
      (∃ r ∈ ledger, r.name = name) ∧ (labels.get name).position? = none := by
  rw [Labels.mem_pendingNames hnames, Label.isLinked_eq_true]
  constructor
  · intro hpending
    obtain ⟨hown, chain, site, hhead⟩ := hpending
    cases hp : (labels.get name).place with
    | bound p => simp [Label.head, hp] at hhead
    | unbound heads =>
      refine ⟨?_, by simp only [Label.position?, hp]⟩
      rw [Label.head_of_unbound hp, h.heads name heads hown hp] at hhead
      obtain ⟨r, hr, -⟩ := List.mem_map.mp (List.mem_of_head? hhead)
      obtain ⟨hr, hon⟩ := List.mem_filter.mp hr
      exact ⟨r, hr, (of_decide_eq_true hon).1⟩
  · intro hbranch
    obtain ⟨⟨r, hr, rfl⟩, hnone⟩ := hbranch
    obtain ⟨heads, hp⟩ := Label.place_of_position?_eq_none hnone
    have hown := h.owned r hr
    have hsite : r.site ∈ ledger.sites r.name r.shape.chain :=
      List.mem_map_of_mem (List.mem_filter.mpr ⟨hr, decide_eq_true ⟨rfl, rfl⟩⟩)
    refine ⟨hown, r.shape.chain, ?_⟩
    rw [Label.head_of_unbound hp, h.heads r.name heads hown hp]
    exact ⟨_, List.head?_eq_some_head (List.ne_nil_of_mem hsite)⟩

/-! ## Requests for the code -/

def Request.reference? : Request → Option String
  | .x86Branch name _ => some name
  | .a64Branch name _ => some name
  | _ => none

private theorem Request.reference?_of_issue? {labels : Labels} {a : Assembler} {request : Request}
    {r : Issue} (h : request.issue? labels a = some r) : request.reference? = some r.name := by
  cases request with
  | x86Branch name branch =>
    cases h
    rfl
  | a64Branch name branch =>
    simp only [issue?] at h
    split at h
    · cases h
      rfl
    · cases h
  | _ => cases h

private theorem Request.issue?_of_reference? {labels : Labels} {a : Assembler} {request : Request}
    {name : String} (h : request.reference? = some name)
    (hreply : (a.serve labels request).2.2.isReply = true) :
    ∃ r, request.issue? labels a = some r ∧ r.name = name := by
  obtain ⟨target, buffer⟩ := a
  cases request with
  | x86Branch name branch =>
    cases h
    exact ⟨_, rfl, rfl⟩
  | a64Branch name branch =>
    cases h
    cases target with
    | a64 far => exact ⟨_, rfl, rfl⟩
    | x86 => cases hreply
    | bare => cases hreply
  | _ => cases h

def Overlaid (code destination result : Array Byte) : Prop :=
  result.size = destination.size ∧
    ∀ j : Nat, result[j]? = if j < code.size then code[j]? else destination[j]?

private theorem overlaid_append_extract {code destination : Array Byte}
    (h : code.size ≤ destination.size) :
    Overlaid code destination (code ++ destination.extract code.size destination.size) := by
  constructor
  · rw [Array.size_append, Array.size_extract]
    omega
  · intro j
    rw [Array.getElem?_append]
    split
    · rfl
    · rw [Array.getElem?_extract]
      split
      · congr 1
        omega
      · rw [Array.getElem?_eq_none (by omega)]

namespace Session

section

variable {s : Session} {i : Nat} {a : Assembler}

private theorem step_handOver (h : s.assembler? i = some a) :
    (s.step i .handOver).2 =
      if a.buffer.unresolved = 0 then .reply (.code a.buffer.bytes)
      else .failed (.error (.unresolvedLabels a.buffer.unresolved)) := by
  rw [step_eq h]
  simp only [Assembler.serve, CodeBuffer.handOver, CodeBuffer.checkResolved]
  by_cases hzero : a.buffer.unresolved = 0
  · rw [if_pos hzero, if_pos hzero]
    rfl
  · rw [if_neg hzero, if_neg hzero]
    rfl

private theorem step_copyOver (h : s.assembler? i = some a) (destination : Array Byte) :
    (s.step i (.copyOver destination)).2 =
      match CodeBuffer.copyOut ⟨a.buffer, destination⟩ with
      | .ok written t => .reply (.copied written t.destination)
      | .error e _ => .failed e := by
  rw [step_eq h]
  simp only [Assembler.serve, onBuffer, Functor.map, EStateM.map, CodeBuffer.copyOver]
  cases CodeBuffer.copyOut ⟨a.buffer, destination⟩ <;> rfl

/-- A bound label is not bound again, by any assembler. -/
theorem step_bind_of_bound (h : s.assembler? i = some a) (htarget : a.target ≠ .bare)
    {name : String} {p : Nat} (hp : (s.labels.get name).position? = some p) :
    (s.step i (.bind name)).2 = .failed (.error (.labelAlreadyBound p)) := by
  obtain ⟨target, buffer⟩ := a
  have hbinding : ∀ {α : Type} pending (write : List (Nat × α) → Emit Unit),
      binding pending write ⟨buffer, s.labels.get name⟩ =
        .error (.error (.labelAlreadyBound p)) ⟨buffer, s.labels.get name⟩ :=
    fun pending write => binding_bound pending write hp
  rw [step_eq h]
  cases target with
  | x86 => simp only [Assembler.serve, onLabel, X86.bind_eq_binding, hbinding]
  | a64 far => simp only [Assembler.serve, onLabel, A64.bind_eq_binding, hbinding]
  | bare => exact absurd rfl htarget

private theorem isReply_step_bind {name : String} {p : Nat}
    (hp : (s.labels.get name).position? = some p) (i : Nat) :
    (s.step i (.bind name)).2.isReply = false := by
  cases ha : s.assembler? i with
  | none =>
    simp only [step, ha]
    rfl
  | some a =>
    by_cases htarget : a.target = .bare
    · obtain ⟨target, buffer⟩ := a
      cases htarget
      rw [step_eq ha]
      rfl
    · rw [step_bind_of_bound ha htarget hp]
      rfl

end

/-! ## Labels and branches of a run -/

theorem Consistent.position_le {s : Session} {ledgers : Nat → Ledger} (h : Consistent s ledgers)
    {name : String} {p : Nat} (hp : (s.labels.get name).place = .bound p) :
    ∃ i, (s.labels.get name).owner = some i ∧
      ∀ a, s.assembler? i = some a → p ≤ a.buffer.size := by
  cases howner : (s.labels.get name).owner with
  | none =>
    have hfresh := h.fresh name howner
    rw [hp] at hfresh
    cases hfresh
  | some i =>
    refine ⟨i, rfl, ?_⟩
    intro a ha
    obtain ⟨hid, hagrees⟩ := h.agrees i a ha
    exact hagrees.within name p (hid ▸ howner) hp

theorem Consistent.get_after {s : Session} {ledgers : Nat → Ledger} (h : Consistent s ledgers)
    {name : String} {p : Nat} (hp : (s.labels.get name).place = .bound p) (e : Event) :
    (s.after e).labels.get name = s.labels.get name := by
  cases e with
  | add memory spec options =>
    cases ht : s.add memory spec options with
    | ok t =>
      obtain ⟨a, -, rfl⟩ := add_eq_ok ht
      simp only [Session.after, ht]
    | error e => simp only [Session.after, ht]
  | request i request =>
    cases ha : s.assembler? i with
    | none => simp only [Session.after, Session.step, ha]
    | some a =>
      have hhandled := h.handled ha request
      rcases hhandled.others name with hsame | ⟨hbefore, hafter⟩
      · exact hsame
      · have howner : (s.labels.get name).owner = some i := by
          rcases hbefore with hnone | hsome
          · have hplace := h.fresh name hnone
            rw [hp] at hplace
            cases hplace
          · exact hsome
        have hplace := hhandled.positions name p hp
        exact Label.eq_of_fields (hplace.trans hp.symm) (hafter.trans howner.symm)
  | mention other => exact s.labels.get_set_get other name
  | forget i => rfl
  | allow i memory => rfl

theorem Consistent.get_run {s : Session} {ledgers : Nat → Ledger} (h : Consistent s ledgers)
    {name : String} {p : Nat} (hp : (s.labels.get name).place = .bound p) (events : List Event) :
    (s.run events).labels.get name = s.labels.get name := by
  induction events generalizing s ledgers with
  | nil => rfl
  | cons e rest ih =>
    have hsame := h.get_after hp e
    have hp' : ((s.after e).labels.get name).place = .bound p := by rw [hsame, hp]
    rw [run_cons, ih (h.after e) hp', hsame]

private theorem exists_request_of_mem_ledger {s : Session} {i : Nat} {r : Issue}
    {events : List Event} (h : r ∈ s.ledger i events) :
    ∃ before rest request a, events = before ++ .request i request :: rest ∧
      (s.run before).assembler? i = some a ∧
      ((s.run before).step i request).2.isReply = true ∧
      request.issue? (s.run before).labels a = some r := by
  induction events generalizing s with
  | nil => cases h
  | cons e rest ih =>
    rw [ledger, List.mem_append] at h
    rcases h with hrest | hfirst
    · obtain ⟨before, after, request, a, hsplit, hmade⟩ := ih hrest
      exact ⟨e :: before, after, request, a, by rw [hsplit, List.cons_append], hmade⟩
    · cases e with
      | request j request =>
        simp only [issued] at hfirst
        split at hfirst
        · next hj =>
          subst hj
          split at hfirst
          · next a reply ha hreply =>
            refine ⟨[], rest, request, a, rfl, ha, ?_, Option.mem_toList.mp hfirst⟩
            rw [show (s.run []).step j request = s.step j request from rfl, hreply]
            rfl
          · cases hfirst
        · cases hfirst
      | _ => cases hfirst

/-- Some branch of assembler `i` in the run refers to the label. -/
def References (events : List Event) (i : Nat) (name : String) : Prop :=
  ∃ s a request, Replied events s i a request ∧ request.reference? = some name

private theorem references_iff {events : List Event} {i : Nat} {name : String} :
    References events i name ↔ ∃ r ∈ empty.ledger i events, r.name = name := by
  constructor
  · intro h
    obtain ⟨s, a, request, hreplied, href⟩ := h
    obtain ⟨before, rest, hsplit, hs, ha, hreply⟩ := hreplied
    have hserved : (a.serve s.labels request).2.2.isReply = true := by
      rw [step_eq ha] at hreply
      exact hreply
    obtain ⟨r, hr, hname⟩ := Request.issue?_of_reference? href hserved
    exact ⟨r, Replied.mem_ledger ⟨before, rest, hsplit, hs, ha, hreply⟩ hr, hname⟩
  · intro h
    obtain ⟨r, hr, rfl⟩ := h
    obtain ⟨before, rest, request, a, hsplit, ha, hreply, hissue⟩ := exists_request_of_mem_ledger hr
    exact ⟨_, a, request, ⟨before, rest, hsplit, rfl, ha, hreply⟩,
      Request.reference?_of_issue? hissue⟩

/-- Every label that a branch of assembler `i` refers to is bound. -/
def Whole (events : List Event) (i : Nat) : Prop :=
  ∀ name, References events i name →
    ((empty.run events).labels.get name).position?.isSome = true

/-- The count of pending labels is zero exactly if the code is whole. -/
theorem unresolved_eq_zero_iff {events : List Event} {i : Nat} {a : Assembler}
    (h : (empty.run events).assembler? i = some a) :
    a.buffer.unresolved = 0 ↔ Whole events i := by
  have hconsistent := consistent_run events
  obtain ⟨-, hagrees⟩ := hconsistent.agrees i a h
  rw [hagrees.count, ← Labels.length_pendingNames, List.length_eq_zero_iff,
    List.eq_nil_iff_forall_not_mem]
  apply forall_congr'
  intro name
  rw [hagrees.mem_pendingNames hconsistent.names, references_iff, not_and, ← ne_eq,
    ← Option.isSome_iff_ne_none]

def answer (events : List Event) (i : Nat) (request : Request) : Outcome :=
  ((empty.run events).step i request).2

/-- In every state that a session can reach, the count of pending labels is right, code leaves an
assembler exactly if it is whole and fits, and bound labels are final. -/
theorem code_leaves_iff_whole (events : List Event) :
    (∀ i a, (empty.run events).assembler? i = some a →
      a.buffer.id = i ∧
      (∃ names : List String, names.Nodup ∧
        (∀ name, name ∈ names ↔
          ((empty.run events).labels.get name).owner = some a.buffer.id ∧
            ((empty.run events).labels.get name).isLinked = true) ∧
        answer events i .unresolved = .reply (.number names.length)) ∧
      (Whole events i → answer events i .handOver = .reply (.code a.buffer.bytes)) ∧
      (¬Whole events i → answer events i .handOver =
        .failed (.error (.unresolvedLabels a.buffer.unresolved))) ∧
      ∀ destination,
        (¬Whole events i → answer events i (.copyOver destination) =
          .failed (.error (.unresolvedLabels a.buffer.unresolved))) ∧
        (Whole events i → destination.size < a.buffer.size →
          answer events i (.copyOver destination) =
            .failed (.error (.destinationTooSmall a.buffer.size destination.size))) ∧
        (Whole events i → a.buffer.size ≤ destination.size →
          ∃ t, CodeBuffer.copyOut ⟨a.buffer, destination⟩ = .ok a.buffer.size t ∧
            answer events i (.copyOver destination) =
              .reply (.copied a.buffer.size t.destination) ∧
            Overlaid a.buffer.bytes destination t.destination) ∧
        ((answer events i (.copyOver destination)).isReply = false →
          ∃ e t, CodeBuffer.copyOut ⟨a.buffer, destination⟩ = .error e t ∧
            answer events i (.copyOver destination) = .failed e ∧
            t.destination = destination)) ∧
    (∀ name p, ((empty.run events).labels.get name).position? = some p →
      (∀ later, (empty.run (events ++ later)).labels.get name =
        (empty.run events).labels.get name) ∧
      (∃ i, ((empty.run events).labels.get name).owner = some i ∧
        ∀ a, (empty.run events).assembler? i = some a → p ≤ a.buffer.size) ∧
      ∀ i, (answer events i (.bind name)).isReply = false ∧
        ∀ a, (empty.run events).assembler? i = some a → a.target ≠ .bare →
          answer events i (.bind name) = .failed (.error (.labelAlreadyBound p))) := by
  have hconsistent := consistent_run events
  refine ⟨fun i a ha => ?_, fun name p hp => ?_⟩
  · obtain ⟨hid, hagrees⟩ := hconsistent.agrees i a ha
    have hzero := unresolved_eq_zero_iff ha
    refine ⟨hid, ⟨(empty.run events).labels.pendingNames a.buffer.id,
      Labels.nodup_pendingNames hconsistent.names _,
      fun name => Labels.mem_pendingNames hconsistent.names, ?_⟩, ?_, ?_, fun destination => ?_⟩
    · rw [Labels.length_pendingNames, ← hagrees.count, answer, step_eq ha]
      rfl
    · intro hwhole
      rw [answer, step_handOver ha, if_pos (hzero.mpr hwhole)]
    · intro hnot
      rw [answer, step_handOver ha, if_neg (fun h => hnot (hzero.mp h))]
    · have hcopy := step_copyOver ha destination
      have hrun := CodeBuffer.copyOut_eq ⟨a.buffer, destination⟩
      refine ⟨fun hnot => ?_, fun hwhole hsmall => ?_, fun hwhole hfits => ?_, fun hfailed => ?_⟩
      · rw [if_neg (fun h => hnot (hzero.mp h))] at hrun
        rw [answer, hcopy, hrun]
      · rw [if_pos (hzero.mpr hwhole), if_pos hsmall] at hrun
        rw [answer, hcopy, hrun]
      · rw [if_pos (hzero.mpr hwhole), if_neg (Nat.not_lt.mpr hfits)] at hrun
        refine ⟨_, hrun, by rw [answer, hcopy, hrun], ?_⟩
        have hoverlaid := overlaid_append_extract
          (show a.buffer.bytes.size ≤ destination.size by rw [a.buffer.size_bytes]; exact hfits)
        rwa [a.buffer.size_bytes] at hoverlaid
      · rw [answer, hcopy] at hfailed ⊢
        cases hcopied : CodeBuffer.copyOut ⟨a.buffer, destination⟩ with
        | ok written t =>
          rw [hcopied] at hfailed
          cases hfailed
        | error e t =>
          refine ⟨e, t, rfl, rfl, ?_⟩
          rw [CodeBuffer.eq_of_copyOut_error hcopied]
  · have hplace := Label.position?_eq_some.mp hp
    refine ⟨fun later => ?_, ?_, fun i => ?_⟩
    · rw [run_append]
      exact hconsistent.get_run hplace later
    · exact hconsistent.position_le hplace
    · exact ⟨isReply_step_bind hp i, fun a ha htarget => step_bind_of_bound ha htarget hp⟩

/-- The first assembler has a call back and a failed branch to a label of the second one, which
has two branches on two chains to the same label. -/
private def mixedRun : List Event :=
  [.add 4096 .x86 { Options.standard with initialCapacity := 64 },
   .add 4096 .a64 { Options.standard with initialCapacity := 64 },
   .request 0 (.bind "in"),
   .request 0 (.x86Branch "in" .call),
   .request 1 (.a64Branch "out" (.jump false)),
   .request 0 (.x86Branch "out" .call),
   .request 1 (.a64Branch "out" (.onCondition .eq))]

theorem mixedRun_code_leaves :
    (∃ a, (empty.run mixedRun).assembler? 0 = some a ∧ Whole mixedRun 0 ∧
      answer mixedRun 0 .handOver = .reply (.code a.buffer.bytes)) ∧
    (∃ a, (empty.run mixedRun).assembler? 1 = some a ∧ ¬Whole mixedRun 1 ∧
      answer mixedRun 1 .handOver = .failed (.error (.unresolvedLabels 1))) ∧
    ((empty.run mixedRun).labels.get "in").position? = some 0 ∧
      answer mixedRun 1 (.bind "in") = .failed (.error (.labelAlreadyBound 0)) := by
  obtain ⟨hcode, hlabels⟩ := code_leaves_iff_whole mixedRun
  obtain ⟨a, ha, hzero⟩ := Option.map_eq_some_iff.mp
    (show ((empty.run mixedRun).assembler? 0).map (·.buffer.unresolved) = some 0 by decide +kernel)
  obtain ⟨b, hb, hpair⟩ := Option.map_eq_some_iff.mp
    (show ((empty.run mixedRun).assembler? 1).map (fun b => (b.buffer.unresolved, b.target)) =
      some (1, .a64 false) by decide +kernel)
  obtain ⟨hone, htarget⟩ := Prod.mk.inj hpair
  have hwhole := (unresolved_eq_zero_iff ha).mp hzero
  have hnot : ¬Whole mixedRun 1 := by
    intro h
    rw [← unresolved_eq_zero_iff hb, hone] at h
    cases h
  have hin : ((empty.run mixedRun).labels.get "in").position? = some 0 := by decide +kernel
  have hfailed := (hcode 1 b hb).2.2.2.1 hnot
  rw [hone] at hfailed
  have hbind := ((hlabels "in" 0 hin).2.2 1).2 b hb (by rw [htarget]; simp)
  exact ⟨⟨a, ha, hwhole, (hcode 0 a ha).2.2.1 hwhole⟩, ⟨b, hb, hnot, hfailed⟩, hin, hbind⟩

end Session

end MachineCode
