import MachineCode.Proofs.Atomicity
import MachineCode.Proofs.Chains
import MachineCode.Proofs.X86Program

/-!
# The x86-64 code is what was asked for

The code of an assembler is at all times the code of a program: operations and branches append
instructions to it, and a binding changes displacements of branches in it. So the code reads from
its start as the instructions that were asked for, and every size that the code once had is a
boundary between two of them.
-/

namespace MachineCode

open CodeBuffer

namespace X86

/-! ## Serving a request -/

private theorem Branch.exists_instr (branch : Branch) (position : Option Nat) (start : Nat) :
    ∃ instr : Instr, instr.shape? = some (branch.shape position start) ∧
      instr.insn.blank = branch.asked := by
  cases branch with
  | call => exact ⟨.call 0, rfl, rfl⟩
  | jump j distance =>
    have hshort : ∃ instr : Instr, instr.shape? = some (.short j.shortOpcode) ∧
        instr.insn.blank = .jump j 0 := ⟨.jumpShort j 0, rfl, rfl⟩
    have hlong : ∃ instr : Instr, instr.shape? = some (.long j.longOpcode) ∧
        instr.insn.blank = .jump j 0 := ⟨.jumpLong j 0, rfl, rfl⟩
    cases position with
    | some target =>
      simp only [Branch.shape]
      split
      · exact hshort
      · exact hlong
    | none =>
      cases distance with
      | near => exact hshort
      | far => exact hlong

end X86

private theorem Placed.exists_link {shape : Shape} {s t : Linking} (h : Placed shape s t)
    {instr : X86.Instr} (hshape : instr.shape? = some shape) :
    ∃ d, t.buffer.bytes = s.buffer.bytes ++ (instr.aim d).encode.toArray := by
  cases hp : s.label.place with
  | bound target =>
    obtain ⟨-, -, happ⟩ := h.bound target hp
    refine ⟨shape.distance (s.buffer.size + shape.opcode.length) target, ?_⟩
    rw [happ.bytes, instr.patch_eq_link hshape, X86.Instr.encode_aim hshape]
  | unbound heads =>
    obtain ⟨-, -, -, happ, -⟩ := h.unbound heads hp
    refine ⟨backLink (s.buffer.size + shape.opcode.length) (heads.get shape.chain), ?_⟩
    rw [X86.Instr.encode_aim hshape, ← happ.bytes, CodeBuffer.bytes_counting]

/-- What a request asks an x86-64 assembler to append to code of the given size. -/
def Request.asked (size : Nat) : Request → List X86.Insn
  | .x86 operation => operation.asked size
  | .x86Branch _ branch => [branch.asked]
  | _ => []

/-- A request without a reply appends nothing. -/
def Request.obtained (request : Request) (size : Nat) : Outcome → List X86.Insn
  | .reply _ => request.asked size
  | .failed _ => []

private theorem Request.obtained_eq_nil {request : Request} {size : Nat}
    (h : request.asked size = []) (outcome : Outcome) : request.obtained size outcome = [] := by
  cases outcome with
  | reply r => exact h
  | failed f => rfl

namespace X86

variable {program : List Instr} {buffer : CodeBuffer} {labels : Labels} {ledger : Ledger}

/-- The code after a request, as far as it is still there, continues the program as was asked. -/
def Carries (program : List Instr) (request : Request) (buffer : CodeBuffer) (labels : Labels)
    (ledger : Ledger) (served : Served) : Prop :=
  ∃ program', (∀ b, served.1 = some b → Spells program' b.buffer.bytes
      (request.record labels ⟨.x86, buffer⟩ ledger served.2.2)) ∧
    Continues program (request.obtained buffer.size served.2.2) program'

private theorem carries_of_still (h : Spells program buffer.bytes ledger) {request : Request}
    (hissue : request.issue? labels ⟨.x86, buffer⟩ = none) {served : Served}
    (hasked : request.obtained buffer.size served.2.2 = [])
    (hstill : ∀ b, served.1 = some b → b.buffer.bytes = buffer.bytes) :
    Carries program request buffer labels ledger served := by
  refine ⟨program, fun b hb => ?_, hasked ▸ Continues.refl program⟩
  rw [record_of_none request hissue, hstill b hb]
  exact h

private theorem run_carries (h : Spells program buffer.bytes ledger) {operation : Operation}
    (hraw : ∀ code, operation ≠ .bytes code)
    (hpad : ∀ alignment offset, operation = .align alignment offset →
      (Assembler.serve ⟨.x86, buffer⟩ labels (.x86 operation)).2.2.isReply = true) :
    Carries program (.x86 operation) buffer labels ledger
      (Assembler.serve ⟨.x86, buffer⟩ labels (.x86 operation)) := by
  have hends : Ends ((fun _ => Reply.done) <$> operation.run) buffer
      (fun _ c => ∃ more, Appends (encodeAll more).toArray buffer c ∧
        more.map Instr.insn = operation.asked buffer.size)
      (fun _ c => (∀ alignment offset, operation ≠ .align alignment offset) →
        Appends #[] buffer c) :=
    ends_map.mpr (Operation.run_writes hraw buffer)
  simp only [Assembler.serve] at hpad ⊢
  rcases onBuffer_cases hends .x86 labels with
    ⟨_, c, ⟨more, happ, hmore⟩, hserved⟩ | ⟨_, c, hc, hserved⟩
  · rw [hserved]
    refine ⟨program ++ more, ?_, program, more, rfl, rfl, ?_⟩
    · intro b hb
      cases hb
      have hspells := h.append more
      rw [← happ.bytes] at hspells
      exact hspells
    · calc more.map (fun instr => instr.insn.blank)
        _ = (more.map Instr.insn).map Insn.blank := by rw [List.map_map]; rfl
        _ = (operation.asked buffer.size).map Insn.blank := by rw [hmore]
        _ = operation.asked buffer.size := operation.blank_asked buffer.size
  · rw [hserved] at hpad ⊢
    have hstill : Appends #[] buffer c := by
      apply hc
      intro alignment offset hop
      cases hpad alignment offset hop
    refine carries_of_still h rfl rfl ?_
    intro b hb
    cases hb
    simpa using hstill.bytes

private theorem branch_carries (h : Spells program buffer.bytes ledger) (name : String)
    (branch : Branch) :
    Carries program (.x86Branch name branch) buffer labels ledger
      (Assembler.serve ⟨.x86, buffer⟩ labels (.x86Branch name branch)) := by
  simp only [Assembler.serve]
  rcases onLabel_cases (branch_ends branch ⟨buffer, labels.get name⟩) .x86 with
    ⟨_, t, ht, hserved⟩ | ⟨_, t, ⟨ht, -⟩, hserved⟩
  · obtain ⟨instr, hshape, hasked⟩ :=
      branch.exists_instr (labels.get name).position? buffer.size
    obtain ⟨d, hbytes⟩ := ht.exists_link hshape
    rw [hserved]
    refine ⟨program ++ [instr.aim d], ?_, program, [instr.aim d], rfl, rfl, ?_⟩
    · intro b hb
      cases hb
      rw [hbytes]
      refine h.branch ?_ (size_bytes buffer).symm
      rw [Instr.shape?_aim]
      exact hshape
    · rw [List.map_singleton, Instr.blank_insn_aim, hasked]
      rfl
  · rw [hserved]
    refine ⟨program, ?_, .refl program⟩
    intro b hb
    cases hb
    have hbytes : t.buffer.bytes = buffer.bytes := by simpa using ht.buffer.bytes
    rw [hbytes]
    exact h

private theorem bind_carries (h : Spells program buffer.bytes ledger)
    (hagrees : Agrees labels ⟨.x86, buffer⟩ ledger)
    (hfresh : ∀ name, (labels.get name).owner = none →
      (labels.get name).place = .unbound Heads.none) (name : String) :
    Carries program (.bind name) buffer labels ledger
      (Assembler.serve ⟨.x86, buffer⟩ labels (.bind name)) := by
  rcases Assembler.serve_bind hagrees hfresh (by simp) name with
    ⟨t, ht, hserved⟩ | ⟨_, t, ht, -, hserved⟩
  · obtain ⟨edits, hlist, hpatches⟩ := ht.patched
    have hedits : ∀ e ∈ edits, ∃ r ∈ ledger, e = (r.site, r.shape.patch r.site buffer.size) := by
      intro e he
      obtain ⟨r, hr, -, heq⟩ := hlist.sound e he
      exact ⟨r, hr, heq⟩
    obtain ⟨program', hakin, hspells⟩ := h.edited hedits
    have hbytes : t.buffer.bytes = MachineCode.edited buffer.bytes edits := hpatches.bytes
    rw [hserved]
    refine ⟨program', ?_, program', [], by simp, hakin, rfl⟩
    intro b hb
    cases hb
    rw [hbytes]
    exact hspells
  · rw [hserved]
    refine carries_of_still h rfl rfl ?_
    intro b hb
    cases hb
    simpa using ht.buffer.bytes

/-- Every request continues the program as was asked. -/
theorem serve_carries (h : Spells program buffer.bytes ledger)
    (hagrees : Agrees labels ⟨.x86, buffer⟩ ledger)
    (hfresh : ∀ name, (labels.get name).owner = none →
      (labels.get name).place = .unbound Heads.none) (request : Request)
    (hraw : ∀ code, request ≠ .x86 (.bytes code))
    (hpad : ∀ alignment offset, request = .x86 (.align alignment offset) →
      (Assembler.serve ⟨.x86, buffer⟩ labels request).2.2.isReply = true) :
    Carries program request buffer labels ledger
      (Assembler.serve ⟨.x86, buffer⟩ labels request) := by
  have hsame : ∀ (request : Request) (outcome : Outcome),
      request.issue? labels ⟨.x86, buffer⟩ = none → request.obtained buffer.size outcome = [] →
      Carries program request buffer labels ledger (some ⟨.x86, buffer⟩, labels, outcome) := by
    intro request outcome hissue hasked
    refine carries_of_still h hissue hasked ?_
    intro b hb
    cases hb
    rfl
  have hasked : ∀ (request : Request) (value : CodeBuffer → Except Violation Int),
      request.issue? labels ⟨.x86, buffer⟩ = none → request.asked buffer.size = [] →
      Carries program request buffer labels ledger (askAsserted .x86 buffer labels value) := by
    intro request value hissue hnone
    simp only [askAsserted]
    cases value buffer <;> exact hsame request _ hissue (Request.obtained_eq_nil hnone _)
  cases request with
  | loadByte offset => exact hasked (.loadByte offset) _ rfl rfl
  | loadWord offset => exact hasked (.loadWord offset) _ rfl rfl
  | loadSigned offset => exact hasked (.loadSigned offset) _ rfl rfl
  | copyOver destination =>
    refine carries_of_still h rfl (Request.obtained_eq_nil rfl _) ?_
    intro b hb
    simp only [Assembler.serve] at hb
    rcases onBuffer_cases ((copyOver_still destination).map buffer) .x86 labels with
      ⟨_, c, hc, hserved⟩ | ⟨_, c, hc, hserved⟩
    · rw [hserved] at hb
      cases hb
      simpa using hc.bytes
    · rw [hserved] at hb
      cases hb
      simpa using hc.bytes
  | handOver =>
    refine carries_of_still h rfl (Request.obtained_eq_nil rfl _) ?_
    intro b hb
    simp only [Assembler.serve] at hb
    cases hcode : buffer.handOver <;> rw [hcode] at hb <;> cases hb
  | x86 operation =>
    refine run_carries h (fun code hop => hraw code (hop ▸ rfl)) fun alignment offset hop => ?_
    exact hpad alignment offset (hop ▸ rfl)
  | x86Branch name branch => exact branch_carries h name branch
  | bind name => exact bind_carries h hagrees hfresh name
  | _ => exact hsame _ _ rfl rfl

end X86

/-! ## Runs -/

private theorem Request.obtained_of_ne {a : Assembler} (h : a.target ≠ .x86) (labels : Labels)
    (request : Request) : request.obtained a.buffer.size (a.serve labels request).2.2 = [] := by
  obtain ⟨target, buffer⟩ := a
  cases request with
  | x86 operation =>
    cases target with
    | x86 => exact absurd rfl h
    | _ => rfl
  | x86Branch name branch =>
    cases target with
    | x86 => exact absurd rfl h
    | _ => rfl
  | _ => exact Request.obtained_eq_nil rfl _

namespace Session

open X86 (Insn Instr Spells Continues)

/-- The instructions that assembler `i` was asked for in an event and gave a reply to. -/
def askedIn (s : Session) (i : Nat) : Event → List Insn
  | .request j request =>
    if j = i then
      match s.assembler? i with
      | some a => request.obtained a.buffer.size (s.step i request).2
      | none => []
    else []
  | _ => []

def asked (s : Session) (i : Nat) : List Event → List Insn
  | [] => []
  | e :: rest => s.askedIn i e ++ (s.after e).asked i rest

/-- The event gives assembler `i` no raw bytes and no padding that fails, of which a part may be
left. -/
def isRegular (s : Session) (i : Nat) : Event → Bool
  | .request j (.x86 (.bytes _)) => j ≠ i
  | .request j (.x86 (.align alignment offset)) =>
    j ≠ i ∨ (s.step i (.x86 (.align alignment offset))).2.isReply
  | _ => true

def regular (s : Session) (i : Nat) : List Event → Bool
  | [] => true
  | e :: rest => s.isRegular i e && (s.after e).regular i rest

private theorem regular_append (s : Session) (i : Nat) (before rest : List Event) :
    s.regular i (before ++ rest) = (s.regular i before && (s.run before).regular i rest) := by
  induction before generalizing s with
  | nil => rfl
  | cons e before ih =>
    rw [List.cons_append, regular, regular, ih, run_cons, Bool.and_assoc]

/-- The code of assembler `i`, if it is one for x86-64, is that of the program. -/
structure Spelled (s : Session) (i : Nat) (ledger : Ledger) (program : List Instr) : Prop where
  code : ∀ a, s.assembler? i = some a → a.target = .x86 → Spells program a.buffer.bytes ledger
  absent : s.assemblers.size ≤ i → program = []

section

variable {s : Session} {ledgers : Nat → Ledger} {i : Nat} {program : List Instr}

private theorem Consistent.spelled_step (h : Consistent s ledgers)
    (hspelled : s.Spelled i (ledgers i) program) {request : Request}
    (hregular : s.isRegular i (.request i request) = true) {a : Assembler}
    (ha : s.assembler? i = some a) :
    ∃ program',
      (s.step i request).1.Spelled i (s.issued i (.request i request) ++ ledgers i) program' ∧
      Continues program (request.obtained a.buffer.size (s.step i request).2) program' := by
  obtain ⟨-, hagrees⟩ := h.agrees i a ha
  have hi := lt_size_of_assembler? ha
  have habsent : ∀ p : List Instr, (s.step i request).1.assemblers.size ≤ i → p = [] := by
    intro p hle
    rw [size_step] at hle
    omega
  have hstep : (s.step i request).1.assembler? i = (a.serve s.labels request).1 := by
    rw [assembler?_step ha, if_pos rfl]
  rw [issued_eq_record ha, show (s.step i request).2 = (a.serve s.labels request).2.2 by
    rw [step_eq ha]]
  by_cases htarget : a.target = .x86
  · obtain ⟨target, buffer⟩ := a
    cases htarget
    have hraw : ∀ code, request ≠ .x86 (.bytes code) := by
      intro code hrequest
      rw [hrequest] at hregular
      simp [isRegular] at hregular
    have hpad : ∀ alignment offset, request = .x86 (.align alignment offset) →
        (Assembler.serve ⟨.x86, buffer⟩ s.labels request).2.2.isReply = true := by
      intro alignment offset hrequest
      rw [hrequest] at hregular ⊢
      simpa [isRegular, step_eq ha] using hregular
    obtain ⟨program', hcode, hcontinues⟩ :=
      X86.serve_carries (hspelled.code _ ha rfl) hagrees h.fresh request hraw hpad
    refine ⟨program', ⟨?_, habsent program'⟩, hcontinues⟩
    intro b hb _
    exact hcode b (hstep ▸ hb)
  · refine ⟨program, ⟨?_, habsent program⟩, ?_⟩
    · intro b hb hx86
      have hserves := Assembler.serve_serves hagrees h.fresh request
      rw [← hstep, hb] at hserves
      exact absurd (hserves.target_eq ▸ hx86) htarget
    · rw [request.obtained_of_ne htarget]
      exact .refl program

private theorem Spelled.modifyBuffer {ledger : Ledger} (h : s.Spelled i ledger program) (j : Nat)
    {f : CodeBuffer → CodeBuffer} (hf : ∀ b, Appends #[] b (f b)) :
    (s.modifyBuffer j f).Spelled i ledger program := by
  refine ⟨?_, fun hle => h.absent ?_⟩
  · intro b hb hx86
    obtain ⟨a, ha, htarget, happ⟩ := assembler?_modifyBuffer hf hb
    have hbytes : b.buffer.bytes = a.buffer.bytes := by simpa using happ.bytes
    rw [hbytes]
    exact h.code a ha (htarget.trans hx86)
  · rwa [size_modifyBuffer] at hle

/-- An event continues the program by what was asked for in it. -/
theorem Consistent.spelled_after (h : Consistent s ledgers)
    (hspelled : s.Spelled i (ledgers i) program) {e : Event} (hregular : s.isRegular i e = true) :
    ∃ program', (s.after e).Spelled i (s.issued i e ++ ledgers i) program' ∧
      Continues program (s.askedIn i e) program' := by
  cases e with
  | add memory spec options =>
    refine ⟨program, ?_, .refl program⟩
    cases ht : s.add memory spec options with
    | error e =>
      simp only [Session.after, ht]
      exact hspelled
    | ok t =>
      obtain ⟨a, hcreate, rfl⟩ := add_eq_ok ht
      simp only [Session.after, ht]
      refine ⟨?_, fun hle => hspelled.absent ?_⟩
      · intro b hb hx86
        rcases assembler?_push hb with hold | ⟨rfl, rfl⟩
        · exact hspelled.code b hold hx86
        · rw [hspelled.absent (Nat.le_refl _)]
          have hempty : b.buffer.bytes = #[] := by
            apply Array.eq_empty_of_size_eq_zero
            rw [CodeBuffer.size_bytes, create_size hcreate]
          refine ⟨by rw [hempty]; rfl, fun r hr => ?_⟩
          rw [show s.issued s.assemblers.size (.add memory spec options) = [] from rfl,
            List.nil_append, h.beyond _ (Nat.le_refl _)] at hr
          cases hr
      · rw [Array.size_push] at hle
        omega
  | request j request =>
    by_cases hij : j = i
    · subst hij
      cases ha : s.assembler? j with
      | some a =>
        simp only [askedIn, if_true, ha]
        exact h.spelled_step hspelled hregular ha
      | none =>
        refine ⟨program, ?_, by simp only [askedIn, if_true, ha]; exact .refl program⟩
        simp only [Session.after, Session.step, ha, issued, if_true, List.nil_append]
        exact hspelled
    · refine ⟨program, ?_, by rw [askedIn, if_neg hij]; exact .refl program⟩
      rw [issued_of_ne (Ne.symm hij), List.nil_append]
      refine ⟨?_, fun hle => hspelled.absent (by rw [← size_step j s request]; exact hle)⟩
      intro b hb hx86
      cases ha : s.assembler? j with
      | none =>
        simp only [Session.after, Session.step, ha] at hb
        exact hspelled.code b hb hx86
      | some a =>
        rw [Session.after, assembler?_step ha, if_neg (Ne.symm hij)] at hb
        exact hspelled.code b hb hx86
  | mention name => exact ⟨program, ⟨hspelled.code, hspelled.absent⟩, .refl program⟩
  | forget j => exact ⟨program, hspelled.modifyBuffer j appends_forget, .refl program⟩
  | allow j memory =>
    exact ⟨program, hspelled.modifyBuffer j (appends_allow memory), .refl program⟩

private theorem Consistent.spelled_run (h : Consistent s ledgers)
    (hspelled : s.Spelled i (ledgers i) program) {events : List Event}
    (hregular : s.regular i events = true) :
    ∃ program', (s.run events).Spelled i (s.ledger i events ++ ledgers i) program' ∧
      Continues program (s.asked i events) program' := by
  induction events generalizing s ledgers program with
  | nil => exact ⟨program, hspelled, .refl program⟩
  | cons e rest ih =>
    rw [regular, Bool.and_eq_true] at hregular
    obtain ⟨program', hafter, hcontinues⟩ := h.spelled_after hspelled hregular.1
    obtain ⟨program'', hrest, hcontinues'⟩ := ih (h.after e) hafter hregular.2
    refine ⟨program'', ?_, hcontinues.trans hcontinues'⟩
    rw [ledger, List.append_assoc]
    exact hrest

end

private theorem spelled_run {i : Nat} {events : List Event}
    (hregular : empty.regular i events = true) :
    ∃ program, (empty.run events).Spelled i (empty.ledger i events) program ∧
      program.map (fun instr => instr.insn.blank) = empty.asked i events := by
  have hempty : empty.Spelled i [] [] := by
    refine ⟨fun a ha => ?_, fun _ => rfl⟩
    simp [assembler?, empty] at ha
  obtain ⟨program, hspelled, hcontinues⟩ := consistent_empty.spelled_run hempty hregular
  rw [List.append_nil] at hspelled
  exact ⟨program, hspelled, hcontinues.map_eq⟩

/-- In every run without raw bytes, the code of an x86-64 assembler reads from its start as exactly
the instructions that it was asked for, displacements of branches apart. Whatever size the code had
at some point of the run, an instruction ends there, and those before it were asked for until then.
-/
theorem code_reads_as_asked (events : List Event) {i : Nat} {b : Assembler}
    (hb : (empty.run events).assembler? i = some b) (htarget : b.target = .x86)
    (hregular : empty.regular i events = true) :
    ∃ lines, X86.disassemble b.buffer.bytes.toList = some lines ∧
      lines.map (fun line => line.1.blank) = empty.asked i events ∧
      ∀ before rest a, events = before ++ rest → (empty.run before).assembler? i = some a →
        ∃ front back, lines = front ++ back ∧ X86.extent front = a.buffer.size ∧
          front.map (fun line => line.1.blank) = empty.asked i before ∧
          back.map (fun line => line.1.blank) = (empty.run before).asked i rest := by
  have hreads : ∀ {program ledger}, Spells program b.buffer.bytes ledger →
      X86.disassemble b.buffer.bytes.toList =
        some (program.map fun instr => (instr.insn, instr.encode.length)) := by
    intro program ledger hspells
    rw [hspells.code, X86.disassemble_encodeAll]
  obtain ⟨program, hspelled, hasked⟩ := spelled_run hregular
  have hlines := hreads (hspelled.code b hb htarget)
  refine ⟨_, hlines, by rw [List.map_map]; exact hasked, ?_⟩
  intro before rest a hsplit ha
  subst hsplit
  rw [regular_append, Bool.and_eq_true] at hregular
  rw [run_append] at hb
  obtain ⟨program₁, hspelled₁, hasked₁⟩ := spelled_run hregular.1
  obtain ⟨program₂, hspelled₂, front, back, rfl, hakin, hback⟩ :=
    (consistent_run before).spelled_run hspelled₁ hregular.2
  have hspells₁ := hspelled₁.code a ha
    (((consistent_run before).target_eq rest ha hb).trans htarget)
  have hlines₂ := hreads (hspelled₂.code b hb htarget)
  rw [hlines₂, List.map_append, Option.some.injEq] at hlines
  refine ⟨_, _, hlines.symm, ?_, ?_, ?_⟩
  · calc X86.extent (front.map fun instr => (instr.insn, instr.encode.length))
      _ = (X86.encodeAll front).length := X86.extent_encodeAll front
      _ = (X86.encodeAll program₁).length := hakin.length_encodeAll.symm
      _ = a.buffer.size := by rw [← hspells₁.code, Array.length_toList, CodeBuffer.size_bytes]
  · rw [List.map_map]
    exact (hakin.map_eq fun instr => instr.blank_insn_aim 0).symm.trans hasked₁
  · rw [List.map_map]
    exact hback

/-- Operands that need more than a ModR/M byte, a constant that needs the scratch register, a byte
that needs a REX byte, padding, and a branch that is bound over them. -/
private def assortedRun : List Event :=
  [.add 4096 .x86 { Options.standard with initialCapacity := 64 },
   .request 0 (.x86 (.load .r9 (.indexed .r13 .r12 .times4 0 (by decide)))),
   .request 0 (.x86Branch "out" (.jump (.onCondition .less) .near)),
   .request 0 (.x86 (.aluImm .cmp (.mem (.base .rsp 0x40)) (-0x123456789))),
   .request 0 (.x86 (.setcc .above .rsi)),
   .request 0 (.x86 (.align 16 0)),
   .request 0 (.bind "out"),
   .request 0 (.x86 .ret)]

theorem assortedRun_reads_as_asked :
    ∃ b lines, (empty.run assortedRun).assembler? 0 = some b ∧
      X86.disassemble b.buffer.bytes.toList = some lines ∧
      lines.map (fun line => line.1.blank) =
        [.load .qword .r9 (.mem (.sum (some .r13) (some (.r12, .times4)) 0)),
         .jump (.onCondition .less) 0,
         .movImm .qword (.reg .r11) (-0x123456789),
         .alu .cmp .qword (.mem (.sum (some .rsp) none 0x40)) .r11,
         .setcc .above (.low .rsi), .nop 6, .ret] ∧
      ∃ front back, lines = front ++ back ∧ X86.extent front = 22 ∧ front.length = 4 := by
  have hrun : ((empty.run assortedRun).assembler? 0).map (fun b => b.target) = some .x86 ∧
      empty.regular 0 assortedRun = true ∧
      ((empty.run (assortedRun.take 4)).assembler? 0).map (fun a => a.buffer.size) = some 22 ∧
      (empty.asked 0 (assortedRun.take 4)).length = 4 := by
    decide +kernel
  obtain ⟨htarget, hregular, hsize, hlength⟩ := hrun
  obtain ⟨b, hb, htarget⟩ := Option.map_eq_some_iff.mp htarget
  obtain ⟨a, ha, hsize⟩ := Option.map_eq_some_iff.mp hsize
  obtain ⟨lines, hlines, hasked, hsplit⟩ := code_reads_as_asked assortedRun hb htarget hregular
  obtain ⟨front, back, hfront, hextent, hblank, -⟩ :=
    hsplit (assortedRun.take 4) (assortedRun.drop 4) a (List.take_append_drop 4 _).symm ha
  refine ⟨b, lines, hb, hlines, hasked.trans (by decide +kernel), front, back, hfront,
    hextent.trans hsize, ?_⟩
  rw [← hlength, ← hblank, List.length_map]

end Session

end MachineCode
