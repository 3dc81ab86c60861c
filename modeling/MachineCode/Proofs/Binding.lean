import MachineCode.Proofs.A64Chains
import MachineCode.Proofs.X86Chains

/-!
# When a label can be bound

Binding walks the chains in the code and checks every branch before it patches any. So it succeeds
exactly if all branches that wait for the label reach the end of the code, and it blames one of them
otherwise.
-/

namespace MachineCode.Session

/-- The branches of assembler `i` that wait for a label, the newest first. -/
def waiting (target : Target) (i : Nat) (events : List Event) : Ledger :=
  match target with
  | .x86 => (pending X86.requested? i events).map (Emission.issue X86.openShape)
  | .a64 far => (pending A64.requested? i events).map (Emission.issue (A64.openShape far))
  | .bare => []

def waitingFor (target : Target) (i : Nat) (events : List Event) (name : String) : Ledger :=
  (waiting target i events).filter fun r => decide (r.name = name)

section

variable {events : List Event} {i : Nat} {a : Assembler}

private theorem waiting_eq_filter (ha : (empty.run events).assembler? i = some a) :
    waiting a.target i events =
      (empty.ledger i events).filter fun r =>
        ((empty.run events).labels.get r.name).position?.isNone := by
  obtain ⟨-, hagrees⟩ := (consistent_run events).agrees i a ha
  cases htarget : a.target with
  | x86 => exact (consistent_empty.filter_ledger ha (htarget ▸ X86.issues_requested?)).symm
  | a64 far => exact (consistent_empty.filter_ledger ha (htarget ▸ A64.issues_requested? far)).symm
  | bare =>
    have hnone : ∀ r ∈ empty.ledger i events, False := fun r hr =>
      hagrees.inert htarget r.name (hagrees.owned r hr)
    symm
    rw [waiting, List.filter_eq_nil_iff]
    exact fun r hr => (hnone r hr).elim

theorem mem_waitingFor (ha : (empty.run events).assembler? i = some a) {name : String}
    (hopen : ((empty.run events).labels.get name).position? = none) {r : Issue} :
    r ∈ waitingFor a.target i events name ↔ r ∈ empty.ledger i events ∧ r.name = name := by
  rw [waitingFor, waiting_eq_filter ha, List.mem_filter, List.mem_filter, decide_eq_true_eq]
  constructor
  · rintro ⟨⟨hr, -⟩, hname⟩
    exact ⟨hr, hname⟩
  · rintro ⟨hr, rfl⟩
    exact ⟨⟨hr, by rw [hopen]; rfl⟩, rfl⟩

theorem isUnused_eq_true_iff (ha : (empty.run events).assembler? i = some a) {name : String}
    (hopen : ((empty.run events).labels.get name).position? = none)
    (hown : ((empty.run events).labels.get name).owner = none ∨
      ((empty.run events).labels.get name).owner = some i) :
    ((empty.run events).labels.get name).isUnused = true ↔
      waitingFor a.target i events name = [] := by
  have hconsistent := consistent_run events
  obtain ⟨hid, hagrees⟩ := hconsistent.agrees i a ha
  obtain ⟨heads, hp⟩ := Label.place_of_position?_eq_none hopen
  rw [List.eq_nil_iff_forall_not_mem]
  simp only [mem_waitingFor ha hopen, not_and]
  rcases hown with hnone | hsome
  · have hfresh := hconsistent.fresh name hnone
    constructor
    · intro _ r hr hname
      have howner := hagrees.owned r hr
      rw [hname, hnone] at howner
      cases howner
    · intro _
      simp only [Label.isUnused, hfresh]
      rfl
  · have hpending := hagrees.mem_pendingNames hconsistent.names name
    rw [Labels.mem_pendingNames hconsistent.names, hid] at hpending
    simp only [hsome, true_and, hopen, and_true] at hpending
    rw [Label.isUnused_eq hp, Bool.not_eq_true', ← Bool.not_eq_true, hpending]
    simp only [not_exists, not_and]

end

/-- In every state that a session can reach, a label that is neither bound nor of another buffer can
be bound exactly if every branch that waits for it reaches the end of the code. If not, the error
names one that does not and how far it would have to reach. If so, the label is at the end of the
code, and it counts as pending no more if a branch waited for it. -/
theorem bind_succeeds_iff_reached (events : List Event) {i : Nat} {a : Assembler}
    (ha : (empty.run events).assembler? i = some a) (htarget : a.target ≠ .bare) {name : String}
    (hopen : ((empty.run events).labels.get name).position? = none)
    (hown : ((empty.run events).labels.get name).owner = none ∨
      ((empty.run events).labels.get name).owner = some i) :
    (answer events i (.bind name) = .reply .done ↔
      ∀ r ∈ waitingFor a.target i events name, r.shape.Reaches r.site a.buffer.size) ∧
    (answer events i (.bind name) ≠ .reply .done →
      ∃ r ∈ waitingFor a.target i events name, ¬r.shape.Reaches r.site a.buffer.size ∧
        answer events i (.bind name) = .failed (.error (.branchOutOfRange
          (r.shape.distance r.site a.buffer.size) r.shape.linkField.max r.site))) ∧
    (answer events i (.bind name) = .reply .done →
      ∃ b, ((empty.run events).step i (.bind name)).1.assembler? i = some b ∧
        (((empty.run events).step i (.bind name)).1.labels.get name).position? =
          some a.buffer.size ∧
        b.buffer.unresolved + (if waitingFor a.target i events name = [] then 0 else 1) =
          a.buffer.unresolved) := by
  have hconsistent := consistent_run events
  obtain ⟨hid, hagrees⟩ := hconsistent.agrees i a ha
  have hmem := @mem_waitingFor events i a ha name hopen
  have hunused := isUnused_eq_true_iff ha hopen hown
  obtain ⟨heads, hp⟩ := Label.place_of_position?_eq_none hopen
  have hthread := hagrees.threaded htarget (hconsistent.fresh name) (hid ▸ hown) heads hp
  rcases Assembler.serve_bind hagrees hconsistent.fresh htarget name with
    ⟨t, ht, hserved⟩ | ⟨e, t, -, hreason, hserved⟩
  · have hanswer : answer events i (.bind name) = .reply .done := by
      rw [answer, step_eq ha, hserved]
    refine ⟨⟨fun _ r hr => ?_, fun _ => hanswer⟩, fun hne => absurd hanswer hne, fun _ => ?_⟩
    · obtain ⟨hr, hname⟩ := hmem.mp hr
      exact ht.reaches r hr hname
    · refine ⟨⟨a.target, t.buffer⟩, ?_, ?_, ?_⟩
      · rw [assembler?_step ha, if_pos rfl, hserved]
      · rw [step_eq ha, hserved, Labels.get_set_self, ht.label]
        rfl
      · have hcount : t.buffer.unresolved = a.buffer.unresolved -
            if ((empty.run events).labels.get name).isUnused then 0 else 1 := ht.unresolved
        simp only [hunused] at hcount ⊢
        by_cases hnil : waitingFor a.target i events name = []
        · rw [if_pos hnil] at hcount ⊢
          exact hcount
        · have hlinked : ((empty.run events).labels.get name).isLinked = true := by
            rw [← hunused, Label.isUnused_eq hp] at hnil
            simpa using hnil
          have hpos : 0 < a.buffer.unresolved := hthread.count hlinked
          rw [if_neg hnil] at hcount ⊢
          omega
  · have hanswer : answer events i (.bind name) = .failed e := by
      rw [answer, step_eq ha, hserved]
    have hne : answer events i (.bind name) ≠ .reply .done := by
      intro hdone
      cases hanswer.symm.trans hdone
    cases hreason with
    | bound place => cases place.symm.trans hp
    | foreign owner other =>
      rw [← hid] at hown
      rcases hown with hnone | hsome
      · cases owner.symm.trans hnone
      · exact absurd (Option.some.inj (owner.symm.trans hsome)) other
    | @outOfReach r hr toLabel far =>
      have hmem := hmem.mpr ⟨hr, toLabel⟩
      refine ⟨⟨fun hdone => absurd hdone hne, fun hall => absurd (hall r hmem) far⟩, fun _ => ?_,
        fun hdone => absurd hdone hne⟩
      exact ⟨r, hmem, far, hanswer⟩

/-- Two short jumps to one label, of which only the newer one still reaches, and a long jump to
another. -/
private def strandedRun : List Event :=
  [.add 4096 .x86 { Options.standard with initialCapacity := 192 },
   .request 0 (.x86Branch "out" (.jump .always .near)),
   .request 0 (.x86Branch "out" (.jump .always .near)),
   .request 0 (.x86Branch "loop" (.jump (.onCondition .equal) .far)),
   .request 0 (.x86 (.bytes (List.replicate 120 0x90#8)))]

theorem strandedRun_binds_loop_only :
    answer strandedRun 0 (.bind "loop") = .reply .done ∧
      ∃ r ∈ waitingFor .x86 0 strandedRun "out", ¬r.shape.Reaches r.site 130 ∧
        answer strandedRun 0 (.bind "out") = .failed (.error (.branchOutOfRange
          (r.shape.distance r.site 130) r.shape.linkField.max r.site)) := by
  have hrun : ((empty.run strandedRun).assembler? 0).map (fun a => (a.target, a.buffer.size)) =
        some (.x86, 130) ∧
      (∀ name ∈ ["loop", "out"], ((empty.run strandedRun).labels.get name).position? = none ∧
        ((empty.run strandedRun).labels.get name).owner = some 0) ∧
      waitingFor .x86 0 strandedRun "loop" =
        [⟨"loop", 4, .long (X86.Jump.onCondition .equal).longOpcode⟩] ∧
      (answer strandedRun 0 (.bind "out")).isReply = false := by
    decide +kernel
  obtain ⟨hsome, hlabels, hloop, hout⟩ := hrun
  obtain ⟨a, ha, hpair⟩ := Option.map_eq_some_iff.mp hsome
  obtain ⟨htarget, hsize⟩ := Prod.mk.inj hpair
  have hbind := fun name hname => bind_succeeds_iff_reached strandedRun ha (by simp [htarget])
    (hlabels name hname).1 (.inr (hlabels name hname).2)
  rw [htarget, hsize] at hbind
  refine ⟨(hbind "loop" (by simp)).1.mpr ?_, (hbind "out" (by simp)).2.1 fun hdone => ?_⟩
  · rw [hloop, List.forall_mem_singleton]
    decide
  · rw [hdone] at hout
    cases hout

end MachineCode.Session
