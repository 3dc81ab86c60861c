import MachineCode.Proofs.Assertions
import MachineCode.Proofs.X86Decode

/-!
# x86-64 programs

What an operation asks for, as instructions apart from their encoding, and the program that it
appends for that. A program together with a ledger stands for the code: the branches of the ledger
are instructions of it, and patching them changes displacements only.
-/

namespace MachineCode

open CodeBuffer

namespace X86

/-! ## What was asked for -/

/-- A constant in a register; one without an upper half is given to the lower half. -/
def askedConstant (dst : Register) (imm : Int64) : Insn :=
  .movImm (if IsUint32 imm.toInt then .dword else .qword) (.reg dst) imm.toInt

/-- Arithmetic with a constant, which goes through the scratch register if it is too wide. -/
def askedAlu (op : AluOp) (dst : Operand) (imm : Int64) : List Insn :=
  if IsInt32 imm.toInt then [.aluImm op .qword dst.location imm.toInt]
  else [askedConstant .tmp imm, .alu op .qword dst.location .tmp]

def askedPadding (count : Nat) : List Insn :=
  List.replicate (count / 8) (.nop 8) ++ if count % 8 = 0 then [] else [.nop (count % 8)]

/-- The instructions of an operation on code of the given size. Raw bytes have none. -/
def Operation.asked (size : Nat) : Operation → List Insn
  | .callReg target => [.callAt (.reg target)]
  | .jmpReg target => [.jumpAt (.reg target)]
  | .callExternal target => [.movImm .qword (.reg .tmp) target.toInt, .callAt (.reg .tmp)]
  | .jmpExternal target => [.movImm .qword (.reg .tmp) target.toInt, .jumpAt (.reg .tmp)]
  | .ret => [.ret]
  | .int3 => [.int3]
  | .nop length => [.nop length]
  | .align alignment offset => askedPadding (padding alignment (size + offset))
  | .bytes _ => []
  | .push src => [.push src]
  | .pushImm imm =>
    if IsInt32 imm.toInt then [.pushImm imm.toInt]
    else [.movImm .qword (.reg .tmp) imm.toInt, .push .tmp]
  | .pop dst => [.pop dst]
  | .drop count =>
    if count ≤ 4 then List.replicate count (.pop .tmp)
    else askedAlu .add (.reg .rsp) (Int64.ofNat (8 * count))
  | .movImm dst imm => [askedConstant dst imm]
  | .movLow dst imm => [.movImm .dword (.reg dst) imm.toNat]
  | .mov dst src => [.mov .qword (.reg dst) src]
  | .load dst src => [.load .qword dst (.mem src.address)]
  | .store dst src => [.mov .qword (.mem dst.address) src]
  | .lea dst src => [.lea .qword dst src.address]
  | .alu op dst src => [.alu op .qword dst.location src]
  | .aluImm op dst imm => askedAlu op dst imm
  | .test a b => [.test .qword (.reg a) b]
  | .imul dst src => [.imul .qword dst (.reg src)]
  | .shiftImm op dst count => [.shift op .qword (.reg dst) count.toNat]
  | .shiftCl op dst => [.shiftCl op .qword (.reg dst)]
  | .setcc condition dst => [.setcc condition (.low dst)]

def Branch.asked : Branch → Insn
  | .jump j _ => .jump j 0
  | .call => .call 0

/-- The instruction without the displacement of a branch. -/
def Insn.blank : Insn → Insn
  | .jump j _ => .jump j 0
  | .call _ => .call 0
  | insn => insn

/-! ## The instructions of an operation -/

theorem insn_movConstant (dst : Register) (imm : Int64) :
    (movConstant dst imm).insn = askedConstant dst imm := by
  simp only [movConstant, askedConstant]
  split
  · next h =>
    have hvalue : ((imm.toBitVec.setWidth 32).toNat : Int) = imm.toInt := IsUint32.toNat_setWidth h
    simp only [Instr.insn, hvalue]
  · split
    · next h =>
      have hvalue : (imm.toBitVec.setWidth 32).toInt = imm.toInt :=
        IsInt32.toInt_setWidth (by decide) h
      simp only [Instr.insn, hvalue]
    · rfl

theorem IsInt8.isInt32 {value : Int} (h : IsInt8 value) : IsInt32 value := by
  obtain ⟨hlow, hhigh⟩ := h
  exact ⟨by omega, by omega⟩

theorem insn_aluConstant {op : AluOp} {dst : Operand} {imm : Int64} {offset : Nat}
    {program : List Instr} (h : aluConstant op dst imm offset = .ok program) :
    program.map Instr.insn = askedAlu op dst imm := by
  simp only [aluConstant] at h
  split at h
  · next hbyte =>
    cases h
    have hvalue : (imm.toBitVec.setWidth 8).toInt = imm.toInt :=
      IsInt8.toInt_setWidth (by decide) hbyte
    simp only [askedAlu, if_pos hbyte.isInt32, List.map_cons, List.map_nil, Instr.insn, hvalue]
  · split at h
    · next hdword =>
      have hvalue : (imm.toBitVec.setWidth 32).toInt = imm.toInt :=
        IsInt32.toInt_setWidth (by decide) hdword
      rw [askedAlu, if_pos hdword]
      split at h
      · next hrax =>
        cases h
        have hdst : dst = .reg .rax := by
          cases dst with
          | reg register => rw [Option.some.inj hrax]
          | mem memory => cases hrax
        simp only [List.map_cons, List.map_nil, Instr.insn, hvalue, hdst, Operand.location]
      · cases h
        simp only [List.map_cons, List.map_nil, Instr.insn, hvalue]
    · next hwide =>
      split at h
      · cases h
      · cases h
        rw [askedAlu, if_neg hwide, List.map_cons, insn_movConstant]
        rfl

/-- The instructions of an operation that passes its checks say what was asked for. -/
theorem Operation.insn_instructions {operation : Operation} {size : Nat} {program : List Instr}
    (hpad : ∀ alignment offset, operation ≠ .align alignment offset)
    (hcheck : operation.precheck = .ok ()) (h : operation.instructions size = .ok program) :
    program.map Instr.insn = operation.asked size := by
  cases operation with
  | align alignment offset => exact absurd rfl (hpad alignment offset)
  | nop length =>
    simp only [precheck] at hcheck
    split at hcheck
    · next hlength =>
      cases h
      have hextra : (length - 1) % 8 + 1 = length := by omega
      simp only [List.map_cons, List.map_nil, Instr.insn, Fin.val_ofNat, hextra, asked]
    · cases hcheck
  | pushImm imm =>
    simp only [instructions] at h
    split at h
    · next hbyte =>
      cases h
      have hvalue : (imm.toBitVec.setWidth 8).toInt = imm.toInt :=
        IsInt8.toInt_setWidth (by decide) hbyte
      simp only [asked, if_pos hbyte.isInt32, List.map_cons, List.map_nil, Instr.insn, hvalue]
    · split at h
      · next hdword =>
        cases h
        have hvalue : (imm.toBitVec.setWidth 32).toInt = imm.toInt :=
          IsInt32.toInt_setWidth (by decide) hdword
        simp only [asked, if_pos hdword, List.map_cons, List.map_nil, Instr.insn, hvalue]
      · next hwide =>
        cases h
        rw [asked, if_neg hwide]
        rfl
  | drop count =>
    simp only [instructions] at h
    split at h
    · next hfew =>
      cases h
      rw [asked, if_pos hfew, List.map_replicate]
      rfl
    · next hmany =>
      rw [asked, if_neg hmany]
      exact insn_aluConstant h
  | movImm dst imm =>
    cases h
    rw [List.map_cons, insn_movConstant]
    rfl
  | aluImm op dst imm => exact insn_aluConstant h
  | shiftImm op dst count =>
    cases h
    by_cases hone : count = 1#8
    · rw [if_pos hone, hone]
      rfl
    · rw [if_neg hone]
      rfl
  | _ =>
    cases h
    rfl

private theorem Insn.blank_askedAlu (op : AluOp) (dst : Operand) (imm : Int64) :
    (askedAlu op dst imm).map blank = askedAlu op dst imm := by
  rw [askedAlu]
  split <;> rfl

theorem Operation.blank_asked (operation : Operation) (size : Nat) :
    (operation.asked size).map Insn.blank = operation.asked size := by
  cases operation with
  | align alignment offset =>
    simp only [asked, askedPadding, List.map_append, List.map_replicate]
    split <;> rfl
  | pushImm imm =>
    simp only [asked]
    split <;> rfl
  | drop count =>
    simp only [asked]
    split
    · rw [List.map_replicate]
      rfl
    · exact Insn.blank_askedAlu ..
  | aluImm op dst imm => exact Insn.blank_askedAlu ..
  | _ => rfl

private theorem encodeAll_append (program more : List Instr) :
    encodeAll (program ++ more) = encodeAll program ++ encodeAll more :=
  List.flatMap_append ..

/-! ## Operations append instructions -/

/-- The work appends a program that says what was asked for. -/
def Writes (work : Emit Unit) (b : CodeBuffer) (asked : List Insn) (err : CodeBuffer → Prop) :
    Prop :=
  Ends work b
    (fun _ c => ∃ program, Appends (encodeAll program).toArray b c ∧ program.map Instr.insn = asked)
    (fun _ c => err c)

private theorem emitNop_writes (extra : Fin 8) (b : CodeBuffer) :
    Writes (emitInstruction (Instr.nop extra).encode) b [.nop (extra + 1)] fun _ => True := by
  apply (emitInstruction_ends (Nat.le_trans (length_nopBytes_le extra) (by decide)) b).mono
  · intro _ c happ
    exact ⟨[.nop extra], by simpa [encodeAll, Instr.encode] using happ, rfl⟩
  · exact fun _ _ _ => trivial

private theorem Writes.bind {work next : Emit Unit} {b : CodeBuffer} {asked more : List Insn}
    (h : Writes work b asked fun _ => True) (hnext : ∀ c, Writes next c more fun _ => True) :
    Writes (do work; next) b (asked ++ more) fun _ => True := by
  rw [Writes, ends_bind]
  apply h.mono
  · rintro - c ⟨program, happ, hprogram⟩
    apply (hnext c).mono
    · rintro - d ⟨program', happ', hprogram'⟩
      refine ⟨program ++ program', ?_, by rw [List.map_append, hprogram, hprogram']⟩
      rw [encodeAll_append, ← List.append_toArray]
      exact happ.trans happ'
    · exact fun _ _ _ => trivial
  · exact fun _ _ _ => trivial

private theorem pure_writes (b : CodeBuffer) : Writes (pure ()) b [] fun _ => True :=
  ⟨[], by simpa [encodeAll] using Appends.refl b, rfl⟩

private theorem emitLongNops_writes (count : Nat) (b : CodeBuffer) :
    Writes (emitLongNops count) b (List.replicate count (.nop 8)) fun _ => True := by
  induction count generalizing b with
  | zero => exact pure_writes b
  | succ count ih => exact (emitNop_writes 7 b).bind ih

private theorem pad_writes (count : Nat) (b : CodeBuffer) :
    Writes (pad count) b (askedPadding count) fun _ => True := by
  refine (emitLongNops_writes (count / 8) b).bind fun c => ?_
  split
  · next hpos =>
    have hextra : (count % 8 - 1) % 8 + 1 = count % 8 := by omega
    have hnop := emitNop_writes (Fin.ofNat 8 (count % 8 - 1)) c
    rw [Fin.val_ofNat, hextra] at hnop
    rw [if_neg (by omega)]
    exact hnop
  · rw [if_pos (by omega)]
    exact pure_writes c

/-- An operation other than padding and raw bytes appends its instructions. If it fails, it appends
nothing, and memory ran out or one of its checks failed. -/
theorem Operation.run_ends {operation : Operation} (hraw : ∀ code, operation ≠ .bytes code)
    (hpad : ∀ alignment offset, operation ≠ .align alignment offset) (b : CodeBuffer) :
    Ends operation.run b
      (fun _ c => operation.precheck = .ok () ∧
        ∃ program, operation.instructions b.size = .ok program ∧
          Appends (encodeAll program).toArray b c)
      (fun e c => Appends #[] b c ∧ (e.isMemory = true ∨ ∃ cause, e = .error cause ∧
        (operation.precheck = .error cause ∨ operation.instructions b.size = .error cause))) := by
  have hrun : operation.run = (do
      checked operation.precheck
      makeRoom
      let instructions ← checked (operation.instructions (← get).size)
      putInstruction (encodeAll instructions)) := by
    cases operation with
    | align alignment offset => exact absurd rfl (hpad alignment offset)
    | bytes code => exact absurd rfl (hraw code)
    | _ => rfl
  rw [hrun, ends_bind, ends_checked]
  refine ⟨fun _ hcheck => ?_, fun cause hcause => ⟨.refl b, .inr ⟨cause, rfl, .inl hcause⟩⟩⟩
  rw [ends_bind]
  apply (makeRoom_ends b).mono
  · rintro - c ⟨happ, room⟩
    have hsize : c.size = b.size := happ.size
    simp only [ends_bind, ends_get, ends_checked, hsize]
    refine ⟨fun program hprogram => ?_,
      fun cause hcause => ⟨happ, .inr ⟨cause, rfl, .inr hcause⟩⟩⟩
    apply (putInstruction_ends (Operation.length_encodeAll_le hprogram) room).mono
    · intro _ d hd
      exact ⟨hcheck, program, hprogram, by simpa using happ.trans hd⟩
    · exact fun _ _ h => h.elim
  · rintro e c ⟨rfl, hmemory⟩
    exact ⟨.refl _, .inl hmemory⟩

/-- An operation other than raw bytes appends what was asked for. If it fails, it appends nothing;
only padding may leave some of its `nop`s behind. -/
theorem Operation.run_writes {operation : Operation} (hraw : ∀ code, operation ≠ .bytes code)
    (b : CodeBuffer) :
    Writes operation.run b (operation.asked b.size) fun c =>
      (∀ alignment offset, operation ≠ .align alignment offset) → Appends #[] b c := by
  have hplain : (∀ alignment offset, operation ≠ .align alignment offset) →
      Writes operation.run b (operation.asked b.size) (Appends #[] b) := by
    intro hpad
    apply (Operation.run_ends hraw hpad b).mono
    · rintro _ c ⟨hcheck, program, hprogram, happ⟩
      exact ⟨program, happ, Operation.insn_instructions hpad hcheck hprogram⟩
    · exact fun _ _ h => h.1
  cases operation with
  | align alignment offset =>
    simp only [Operation.run, Writes, X86.align, ends_bind, ends_get, ends_ite, ends_throw]
    refine ⟨fun _ h => absurd rfl (h alignment offset),
      fun _ => ⟨fun _ h => absurd rfl (h alignment offset), fun _ => ?_⟩⟩
    exact (pad_writes _ b).mono (fun _ _ h => h) fun _ _ _ h => absurd rfl (h alignment offset)
  | bytes code => exact absurd rfl (hraw code)
  | _ => exact (hplain (by simp)).mono (fun _ _ h => h) fun _ _ h _ => h

/-! ## Branches in a program -/

/-- The instruction with another displacement, if it is a branch. -/
def Instr.aim (displacement : Int) : Instr → Instr
  | .jumpShort jump _ => .jumpShort jump (BitVec.ofInt 8 displacement)
  | .jumpLong jump _ => .jumpLong jump (BitVec.ofInt 32 displacement)
  | .call _ => .call (BitVec.ofInt 32 displacement)
  | instr => instr

/-- How a branch stands in the ledger. -/
def Instr.shape? : Instr → Option Shape
  | .jumpShort jump _ => some (.short jump.shortOpcode)
  | .jumpLong jump _ => some (.long jump.longOpcode)
  | .call _ => some (.long [0xE8#8])
  | _ => none

namespace Instr

private theorem aim_aim (instr : Instr) (d d' : Int) : (instr.aim d).aim d' = instr.aim d' := by
  cases instr <;> rfl

theorem shape?_aim (instr : Instr) (d : Int) : (instr.aim d).shape? = instr.shape? := by
  cases instr <;> rfl

theorem blank_insn_aim (instr : Instr) (d : Int) :
    (instr.aim d).insn.blank = instr.insn.blank := by
  cases instr <;> simp only [aim, insn, Insn.blank]

private theorem length_encode_aim (instr : Instr) (d : Int) :
    (instr.aim d).encode.length = instr.encode.length := by
  cases instr <;> simp [aim, encode]

theorem encode_aim {instr : Instr} {shape : Shape} (h : instr.shape? = some shape) (d : Int) :
    (instr.aim d).encode = shape.opcode ++ shape.link d := by
  cases instr <;> cases h <;> rfl

private theorem encode_of_shape? {instr : Instr} {shape : Shape} (h : instr.shape? = some shape) :
    ∃ site, instr.encode = shape.opcode ++ site ∧ site.length = shape.siteLength := by
  cases instr with
  | jumpShort jump d =>
    cases h
    exact ⟨[d], rfl, rfl⟩
  | jumpLong jump d =>
    cases h
    exact ⟨littleEndian 4 d, rfl, littleEndian_length 4 d⟩
  | call d =>
    cases h
    exact ⟨littleEndian 4 d, rfl, littleEndian_length 4 d⟩
  | _ => cases h

/-- A branch is patched by aiming it. -/
theorem patch_eq_link {instr : Instr} {shape : Shape} (h : instr.shape? = some shape)
    (site target : Nat) : shape.patch site target = shape.link (shape.distance site target) := by
  cases instr <;> cases h <;> rfl

end Instr

/-- The programs differ in the displacements of branches only. -/
def Akin (program program' : List Instr) : Prop :=
  program.map (Instr.aim 0) = program'.map (Instr.aim 0)

namespace Akin

variable {program program' before after more : List Instr} {instr : Instr}

theorem map_eq (h : Akin program program') {α : Type} {f : Instr → α}
    (hf : ∀ instr, f (instr.aim 0) = f instr) : program.map f = program'.map f := by
  have hcomp : ∀ p : List Instr, p.map f = (p.map (Instr.aim 0)).map f := by
    intro p
    rw [List.map_map]
    exact List.map_congr_left fun instr _ => (hf instr).symm
  rw [hcomp program, h, ← hcomp program']

theorem length_encodeAll (h : Akin program program') :
    (encodeAll program).length = (encodeAll program').length := by
  simp only [encodeAll, List.length_flatMap]
  rw [h.map_eq fun instr => instr.length_encode_aim 0]

private theorem split_append (h : Akin (before ++ after) program) :
    ∃ before' after', program = before' ++ after' ∧ Akin before before' ∧ Akin after after' := by
  rw [Akin, List.map_append] at h
  obtain ⟨before', after', rfl, hbefore, hafter⟩ := List.map_eq_append_iff.mp h.symm
  exact ⟨before', after', rfl, hbefore.symm, hafter.symm⟩

private theorem split_cons (h : Akin (instr :: after) program) :
    ∃ instr' after', program = instr' :: after' ∧ instr'.shape? = instr.shape? ∧
      Akin after after' := by
  rw [Akin, List.map_cons] at h
  obtain ⟨instr', after', rfl, hinstr, hafter⟩ := List.map_eq_cons_iff.mp h.symm
  refine ⟨instr', after', rfl, ?_, hafter.symm⟩
  rw [← instr'.shape?_aim 0, hinstr, Instr.shape?_aim]

end Akin

/-- The branch is an instruction of the program. -/
def Contains (program : List Instr) (r : Issue) : Prop :=
  ∃ before instr after, program = before ++ instr :: after ∧ instr.shape? = some r.shape ∧
    (encodeAll before).length = r.start

private theorem Contains.append {program : List Instr} {r : Issue} (h : Contains program r)
    (more : List Instr) : Contains (program ++ more) r := by
  obtain ⟨before, instr, after, rfl, hshape, hstart⟩ := h
  exact ⟨before, instr, after ++ more, by simp, hshape, hstart⟩

private theorem Contains.congr {program program' : List Instr} {r : Issue} (h : Contains program r)
    (hakin : Akin program program') : Contains program' r := by
  obtain ⟨before, instr, after, rfl, hshape, hstart⟩ := h
  obtain ⟨before', rest', rfl, hbefore, hrest⟩ := hakin.split_append
  obtain ⟨instr', after', rfl, hinstr, -⟩ := hrest.split_cons
  exact ⟨before', instr', after', rfl, hinstr.trans hshape, hbefore.length_encodeAll ▸ hstart⟩

/-- The code is that of the program, and the branches of the ledger are in it. -/
structure Spells (program : List Instr) (code : Array Byte) (ledger : Ledger) : Prop where
  code : code.toList = encodeAll program
  branches : ∀ r ∈ ledger, Contains program r

namespace Spells

variable {program more : List Instr} {code : Array Byte} {ledger : Ledger}

theorem append (h : Spells program code ledger) (more : List Instr) :
    Spells (program ++ more) (code ++ (encodeAll more).toArray) ledger where
  code := by simp [h.code, encodeAll_append]
  branches r hr := (h.branches r hr).append more

theorem branch (h : Spells program code ledger) {instr : Instr} {r : Issue}
    (hshape : instr.shape? = some r.shape) (hstart : r.start = code.size) :
    Spells (program ++ [instr]) (code ++ instr.encode.toArray) (r :: ledger) where
  code := by simp [h.code, encodeAll]
  branches r' hr' := by
    rcases List.mem_cons.mp hr' with rfl | hold
    · refine ⟨program, instr, [], rfl, hshape, ?_⟩
      rw [hstart, ← Array.length_toList, h.code]
    · exact (h.branches r' hold).append _

private theorem patch (h : Spells program code ledger) {r : Issue} (hr : r ∈ ledger)
    (target : Nat) :
    ∃ program', Akin program program' ∧
      Spells program' (overwrite code r.site (r.shape.patch r.site target)) ledger := by
  obtain ⟨before, instr, after, rfl, hshape, hstart⟩ := h.branches r hr
  have hlink := instr.patch_eq_link hshape r.site target
  generalize r.shape.distance r.site target = d at hlink
  have hakin : Akin (before ++ instr :: after) (before ++ instr.aim d :: after) := by
    simp only [Akin, List.map_append, List.map_cons, Instr.aim_aim]
  refine ⟨_, hakin, ⟨?_, fun r hr => (h.branches r hr).congr hakin⟩⟩
  obtain ⟨site, hsite, hlength⟩ := instr.encode_of_shape? hshape
  have hcode : code.toList =
      (encodeAll before ++ r.shape.opcode) ++ (site ++ encodeAll after) := by
    rw [h.code, encodeAll_append, encodeAll_cons, hsite]
    simp only [List.append_assoc]
  have hfront : (encodeAll before ++ r.shape.opcode).length = r.site := by
    rw [List.length_append, hstart, Issue.site]
  rw [hlink, ← hfront, toList_overwrite hcode (by rw [Shape.length_link, hlength]),
    encodeAll_append, encodeAll_cons, Instr.encode_aim hshape]
  simp only [List.append_assoc]

theorem edited (h : Spells program code ledger) {target : Nat} {edits : List (Nat × List Byte)}
    (hedits : ∀ e ∈ edits, ∃ r ∈ ledger, e = (r.site, r.shape.patch r.site target)) :
    ∃ program', Akin program program' ∧ Spells program' (edited code edits) ledger := by
  induction edits generalizing program code with
  | nil => exact ⟨program, rfl, h⟩
  | cons edit rest ih =>
    obtain ⟨r, hr, rfl⟩ := hedits edit (List.mem_cons_self ..)
    obtain ⟨program', hakin, hpatched⟩ := h.patch hr target
    obtain ⟨program'', hakin', hrest⟩ :=
      ih hpatched fun e he => hedits e (List.mem_cons_of_mem _ he)
    exact ⟨program'', hakin.trans hakin', hrest⟩

end Spells

/-- The program was continued by instructions that say what was asked for. -/
def Continues (program : List Instr) (asked : List Insn) (program' : List Instr) : Prop :=
  ∃ front back, program' = front ++ back ∧ Akin program front ∧
    back.map (fun instr => instr.insn.blank) = asked

theorem Continues.refl (program : List Instr) : Continues program [] program :=
  ⟨program, [], by simp, rfl, rfl⟩

theorem Continues.trans {program program' program'' : List Instr} {asked more : List Insn}
    (h : Continues program asked program') (h' : Continues program' more program'') :
    Continues program (asked ++ more) program'' := by
  obtain ⟨front, back, rfl, hfront, hback⟩ := h
  obtain ⟨front', back', rfl, hfront', hback'⟩ := h'
  obtain ⟨first, second, rfl, hfirst, hsecond⟩ := hfront'.split_append
  refine ⟨first, second ++ back', by simp, hfront.trans hfirst, ?_⟩
  have hblank : second.map (fun instr => instr.insn.blank) = asked :=
    (hsecond.map_eq fun instr => instr.blank_insn_aim 0).symm.trans hback
  rw [List.map_append, hblank, hback']

theorem Continues.map_eq {program : List Instr} {asked : List Insn}
    (h : Continues [] asked program) : program.map (fun instr => instr.insn.blank) = asked := by
  obtain ⟨front, back, rfl, hfront, hback⟩ := h
  have hnil : front = [] := List.map_eq_nil_iff.mp hfront.symm
  rw [hnil]
  exact hback

end X86

end MachineCode
