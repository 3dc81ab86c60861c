import MachineCode.Proofs.A64Reach
import MachineCode.Proofs.Binding

/-!
# Refused links

A branch to a label that is not bound keeps the link to the branch before it on its chain. If its
field does not hold the link, the branch is refused. That loses nothing: both branches have the same
field, and every position after the refused branch is further from the older one than the refused
branch itself is. So the older branch keeps the label from being bound there in any case.
-/

namespace MachineCode

open CodeBuffer

/-! ## Fields -/

namespace DispField

private theorem max_lt_neg_min (f : DispField) : f.max < -f.min := by
  cases f <;> decide

/-- A field that does not reach back over a distance does not reach forward over it either, and
neither does a narrower field. -/
private theorem not_fits_of_back {f g : DispField} (hle : g.max ≤ f.max) {back way : Int}
    (hunit : back % f.unit = 0) (hneg : back < 0) (hfar : ¬f.Fits back) (hway : -back ≤ way) :
    ¬g.Fits way := by
  intro hfits
  have hmax : 0 ≤ f.max := f.fits_zero.2.2
  have hmin : back < f.min := by
    apply Int.lt_of_not_ge
    intro hreach
    exact hfar ⟨hunit, hreach, by omega⟩
  have hwidth := f.max_lt_neg_min
  have hlast : way ≤ g.max := hfits.2.2
  omega

end DispField

namespace A64

private theorem fieldOf_cases (word : Word) :
    fieldOf word = .imm26 ∨ fieldOf word = .imm19 ∨ fieldOf word = .imm14 := by
  rw [fieldOf]
  cases BranchKind.ofWord? word with
  | none => exact .inr (.inl rfl)
  | some kind => cases kind <;> simp [BranchKind.field]

private theorem unit_fieldOf (word : Word) : (fieldOf word).unit = 4 := by
  rcases fieldOf_cases word with h | h | h <;> rw [h] <;> rfl

private theorem max_fieldOf_le (word : Word) : (fieldOf word).max ≤ DispField.imm26.max := by
  rcases fieldOf_cases word with h | h | h <;> rw [h] <;> decide

private theorem fieldOf_eq_of_chainOf {first second : Word}
    (h : chainOf (fieldOf first) = chainOf (fieldOf second)) : fieldOf first = fieldOf second := by
  rcases fieldOf_cases first with hf | hf | hf <;>
    rcases fieldOf_cases second with hs | hs | hs <;>
      rw [hf, hs] at h ⊢ <;> cases h

private theorem unit_of_chained {far : Bool} {shape : Shape} (h : Chained far shape) :
    shape.linkField.unit = 4 := by
  cases shape with
  | short _ => exact h.elim
  | long _ => exact h.elim
  | single word => exact unit_fieldOf word
  | pair _ => rfl

end A64

private theorem X86.unit_of_chained {shape : Shape} (h : X86.Chained shape) :
    shape.linkField.unit = 1 := by
  cases shape with
  | short _ => rfl
  | long _ => rfl
  | single _ => exact h.elim
  | pair _ => exact h.elim

private theorem Target.linkField_eq {target : Target} {first second : Shape}
    (hfirst : target.Chained first) (hsecond : target.Chained second)
    (hchain : first.chain = second.chain) :
    first.linkField = second.linkField := by
  cases target with
  | x86 =>
    cases first with
    | short _ =>
      obtain ⟨_, rfl⟩ := X86.eq_short_of_near hsecond hchain.symm
      rfl
    | long _ =>
      obtain ⟨_, rfl⟩ := X86.eq_long_of_wide hsecond hchain.symm
      rfl
    | single _ => exact hfirst.elim
    | pair _ => exact hfirst.elim
  | a64 far =>
    cases far with
    | true => rw [A64.linkField_of_chained hfirst, A64.linkField_of_chained hsecond]
    | false =>
      cases first with
      | single _ =>
        cases second with
        | single _ => exact A64.fieldOf_eq_of_chainOf hchain
        | pair _ => cases hsecond.1
        | short _ => exact hsecond.elim
        | long _ => exact hsecond.elim
      | pair _ => cases hfirst.1
      | short _ => exact hfirst.elim
      | long _ => exact hfirst.elim
  | bare => exact hfirst.elim

/-! ## The older branch -/

private theorem Shape.four_le_siteLength {shape : Shape} (h : shape.linkField ≠ .rel8) :
    4 ≤ shape.siteLength := by
  cases shape with
  | short _ => exact absurd rfl h
  | long _ => exact Nat.le_refl 4
  | single _ => exact Nat.le_refl 4
  | pair _ => exact Nat.le_add_left 4 4

/-- A branch does not reach beyond one that cannot keep the link to it. The displacement of a branch
counts from the end of its field at the latest, so the way is at least as long as the link. -/
private theorem Shape.not_reaches_beyond {older newer : Shape}
    (hfield : older.linkField = newer.linkField) {first site : Nat} (hlt : first < site)
    (hunit : (first - site : Int) % newer.linkField.unit = 0)
    (hfar : ¬newer.linkField.Fits (backLink site (some first))) {target : Nat}
    (hbeyond : site + newer.siteLength ≤ target) : ¬older.Reaches first target := by
  have hneg : (first - site : Int) < 0 := by omega
  have hpos := newer.siteLength_pos
  have hshort : ∀ g : DispField, g.max ≤ newer.linkField.max →
      ∀ way : Int, (site - first : Int) ≤ way → ¬g.Fits way := by
    intro g hle way hway
    exact DispField.not_fits_of_back hle hunit hneg hfar (by omega)
  rw [← hfield] at hshort
  cases older with
  | short _ =>
    refine hshort _ (Int.le_refl _) _ ?_
    simp only [distance]
    omega
  | long _ =>
    have hlength := newer.four_le_siteLength fun hbyte => by cases hfield.trans hbyte
    refine hshort _ (Int.le_refl _) _ ?_
    simp only [distance]
    omega
  | single word =>
    refine hshort _ (Int.le_refl _) _ ?_
    simp only [distance]
    omega
  | pair word =>
    have hlength := newer.four_le_siteLength fun hbyte => by cases hfield.trans hbyte
    intro hreaches
    cases hreaches with
    | inl hdirect =>
      refine hshort _ (A64.max_fieldOf_le word) _ ?_ hdirect
      simp only [distance]
      omega
    | inr hbranch =>
      refine hshort _ (Int.le_refl _) _ ?_ hbranch
      simp only [distance]
      omega

section

variable {labels : Labels} {a : Assembler} {ledger : Ledger} {name : String}

private theorem Agrees.exists_head (h : Agrees labels a ledger) (htarget : a.target ≠ .bare)
    (hfresh : (labels.get name).owner = none → (labels.get name).place = .unbound Heads.none)
    (hown : (labels.get name).owner = none ∨ (labels.get name).owner = some a.buffer.id)
    {heads : Heads} (hp : (labels.get name).place = .unbound heads) {f : DispField} {chain : Chain}
    {site : Nat} (hfar : ¬f.Fits (backLink site (heads.get chain))) :
    ∃ older ∈ ledger, older.name = name ∧ older.shape.chain = chain ∧
      a.target.Chained older.shape ∧ heads.get chain = some older.site := by
  have hthread := h.threaded htarget hfresh hown heads hp
  cases hhead : heads.get chain with
  | none =>
    rw [hhead] at hfar
    exact absurd f.fits_zero hfar
  | some first =>
    rw [hthread.heads] at hhead
    obtain ⟨older, hmem, rfl⟩ := List.mem_map.mp (List.mem_of_head? hhead)
    obtain ⟨hmem, hon⟩ := List.mem_filter.mp hmem
    obtain ⟨hname, hchain⟩ := of_decide_eq_true hon
    obtain ⟨rest, hsuffix⟩ := Ledger.exists_suffix_of_mem hmem
    obtain ⟨hchained, -⟩ := h.pending older rest hsuffix heads (hname ▸ hp)
    exact ⟨older, hmem, hname, hchain, hchained, rfl⟩

private theorem Assembler.rejected_of_outOfRange {request : Request} {refused : Issue}
    (hissue : request.issue? labels a = some refused)
    (hopen : (labels.get refused.name).position? = none) {displacement max : Int} {offset : Nat}
    (hserved : (a.serve labels request).2.2 =
      .failed (.error (.branchOutOfRange displacement max offset))) :
    refused.start = a.buffer.size ∧ a.target.Chained refused.shape ∧
      Rejected refused.shape ⟨a.buffer, labels.get refused.name⟩
        (.error (.branchOutOfRange displacement max offset)) := by
  obtain ⟨target, buffer⟩ := a
  cases request with
  | x86Branch name branch =>
    cases hissue
    cases target with
    | x86 =>
      refine ⟨rfl, X86.chained_shape .., ?_⟩
      rcases onLabel_cases (X86.branch_ends branch ⟨buffer, labels.get name⟩) .x86 with
        ⟨_, t, -, hresult⟩ | ⟨e, t, ⟨-, he⟩, hresult⟩
      · simp only [serve, hresult] at hserved
        cases hserved
      · simp only [serve, hresult] at hserved
        cases hserved
        exact he
    | a64 far => cases hserved
    | bare => cases hserved
  | a64Branch name branch =>
    cases target with
    | x86 => cases hissue
    | a64 far =>
      cases hissue
      refine ⟨rfl, ?_, ?_⟩
      · simp only [hopen]
        exact A64.chained_shape far branch buffer.size
      rcases onLabel_cases (A64.branch_ends far branch ⟨buffer, labels.get name⟩) (.a64 far) with
        ⟨_, t, -, hresult⟩ | ⟨e, t, ⟨-, he⟩, hresult⟩
      · simp only [serve, hresult] at hserved
        cases hserved
      · simp only [serve, hresult] at hserved
        cases hserved
        refine he.resolve_right fun hoperands => ?_
        obtain ⟨cause, hcause, heq⟩ := hoperands
        cases heq
        exact A64.encoder_ne_outOfRange branch _ _ _ _ hcause
    | bare => cases hissue
  | _ => cases hissue

end

namespace Session

private theorem unit_dvd_link (events : List Event) {i : Nat} {a : Assembler}
    (ha : (empty.run events).assembler? i = some a) {name : String} {heads : Heads}
    (hp : ((empty.run events).labels.get name).place = .unbound heads) {older : Issue}
    (hmem : older ∈ empty.ledger i events) (hname : older.name = name) {shape : Shape}
    (hchained : a.target.Chained shape) :
    (older.site - (a.buffer.size + shape.opcode.length : Nat) : Int) % shape.linkField.unit =
      0 := by
  obtain ⟨-, hagrees⟩ := (consistent_run events).agrees i a ha
  cases htarget : a.target with
  | x86 =>
    rw [htarget] at hchained
    rw [X86.unit_of_chained hchained]
    exact Int.emod_one _
  | a64 far =>
    rw [htarget] at hchained
    have haligned := aligned_run events i a far ha htarget
    obtain ⟨-, hsite⟩ := haligned.site hagrees htarget hp hmem hname
    have hsize := haligned.size
    rw [A64.unit_of_chained hchained, A64.opcode_of_chained hchained, List.length_nil]
    omega
  | bare =>
    rw [htarget] at hchained
    exact hchained.elim

/-- A branch that does not reach the end of the code keeps its label from being bound there. -/
theorem bind_of_unreached (events : List Event) {i : Nat} {a : Assembler}
    (ha : (empty.run events).assembler? i = some a) {older : Issue}
    (hmem : older ∈ empty.ledger i events)
    (hopen : ((empty.run events).labels.get older.name).position? = none)
    (hfar : ¬older.shape.Reaches older.site a.buffer.size) :
    ∃ r ∈ empty.ledger i events, r.name = older.name ∧
      answer events i (.bind older.name) = .failed (r.unreached a.buffer.size) := by
  have hconsistent := consistent_run events
  obtain ⟨hid, hagrees⟩ := hconsistent.agrees i a ha
  have hbare : a.target ≠ .bare := fun htarget =>
    hagrees.inert htarget older.name (hagrees.owned older hmem)
  rcases Assembler.serve_bind hagrees hconsistent.fresh hbare older.name with
    ⟨t, ht, -⟩ | ⟨e, t, -, hreason, hserved⟩
  · exact absurd (ht.reaches older hmem rfl) hfar
  · have hanswer : answer events i (.bind older.name) = .failed e := by
      rw [answer, step_eq ha, hserved]
    cases hreason with
    | bound place =>
      rw [Label.position?_eq_some.mpr place] at hopen
      cases hopen
    | foreign owner other =>
      exact absurd (Option.some.inj (owner.symm.trans (hagrees.owned older hmem))) other
    | @outOfReach r hr toLabel _ => exact ⟨r, hr, toLabel, hanswer⟩

/-- In every state that a session can reach, a branch to a label that is not bound is out of range
only if the head of the chain that it would have joined reaches no position from the end of the
refused branch on. Whatever happens next, the label cannot be bound at such a position. -/
theorem refused_link_not_spurious (events : List Event) {i : Nat} {a : Assembler}
    (ha : (empty.run events).assembler? i = some a) {request : Request} {refused : Issue}
    (hissue : request.issue? (empty.run events).labels a = some refused)
    (hopen : ((empty.run events).labels.get refused.name).position? = none)
    (hown : ((empty.run events).labels.get refused.name).owner = none ∨
      ((empty.run events).labels.get refused.name).owner = some i)
    {displacement max : Int} {offset : Nat}
    (hrefused : answer events i request =
      .failed (.error (.branchOutOfRange displacement max offset))) :
    ∃ older ∈ waitingFor a.target i events refused.name,
      ((empty.run events).labels.get refused.name).head refused.shape.chain = some older.site ∧
      older.shape.chain = refused.shape.chain ∧
      (∀ position, refused.stop ≤ position → ¬older.shape.Reaches older.site position) ∧
      ∀ (later : List Event) (b : Assembler),
        (empty.run (events ++ later)).assembler? i = some b →
        ((empty.run (events ++ later)).labels.get refused.name).position? = none →
        refused.stop ≤ b.buffer.size →
        ∃ r ∈ waitingFor a.target i (events ++ later) refused.name,
          answer (events ++ later) i (.bind refused.name) =
            .failed (.error (.branchOutOfRange (r.shape.distance r.site b.buffer.size)
              r.shape.linkField.max r.site)) := by
  have hconsistent := consistent_run events
  obtain ⟨hid, hagrees⟩ := hconsistent.agrees i a ha
  obtain ⟨heads, hp⟩ := Label.place_of_position?_eq_none hopen
  rw [answer, step_eq ha] at hrefused
  obtain ⟨hstart, hchained, hrejected⟩ :=
    Assembler.rejected_of_outOfRange hissue hopen hrefused
  have hbare : a.target ≠ .bare := by
    intro htarget
    rw [htarget] at hchained
    exact hchained
  rw [← hid] at hown
  have hfar : ¬refused.shape.linkField.Fits
      (backLink refused.site (heads.get refused.shape.chain)) := by
    cases hrejected with
    | memory isMemory => cases isMemory
    | outOfReach place _ => cases place.symm.trans hp
    | outOfLink place far =>
      cases place.symm.trans hp
      rw [Issue.site, hstart]
      exact far
  obtain ⟨older, hmem, hname, hchain, holder, hhead⟩ :=
    hagrees.exists_head hbare (hconsistent.fresh refused.name) hown hp hfar
  have hlt : older.site < refused.site := by
    have hbelow := Nat.lt_of_lt_of_le older.site_lt_stop (hagrees.stacked.stop_le hmem)
    have := refused.start_le_site
    omega
  have hunit := unit_dvd_link events ha hp hmem hname hchained
  rw [← hstart] at hunit
  have hunreached : ∀ position, refused.stop ≤ position →
      ¬older.shape.Reaches older.site position := by
    intro position hposition
    rw [Issue.stop_eq] at hposition
    rw [hhead] at hfar
    exact Shape.not_reaches_beyond (Target.linkField_eq holder hchained hchain) hlt hunit hfar
      hposition
  refine ⟨older, (mem_waitingFor ha hopen).mpr ⟨hmem, hname⟩, ?_, hchain, hunreached, ?_⟩
  · rw [Label.head_of_unbound hp, hhead]
  · intro later b hb hstill hbeyond
    have hlater : older ∈ empty.ledger i (events ++ later) := by
      rw [ledger_append]
      exact List.mem_append_right _ hmem
    rw [← hname] at hstill ⊢
    obtain ⟨r, hr, hrname, hanswer⟩ :=
      bind_of_unreached (events ++ later) hb hlater hstill (hunreached _ hbeyond)
    have htarget : a.target = b.target := by
      rw [run_append] at hb
      exact hconsistent.target_eq later ha hb
    rw [htarget]
    exact ⟨r, (mem_waitingFor hb hstill).mpr ⟨hr, hrname⟩, hanswer⟩

/-- A short jump and code behind it that a second short jump cannot link over. -/
private def overlongRun : List Event :=
  [.add 4096 .x86 { Options.standard with initialCapacity := 192 },
   .request 0 (.x86Branch "out" (.jump .always .near)),
   .request 0 (.x86 (.bytes (List.replicate 127 0x90#8)))]

/-- Code in place of the refused jump, up to where it would have ended. -/
private def overlongDetour : List Event :=
  [.request 0 (.x86 (.bytes [0x90#8, 0x90#8]))]

theorem overlongRun_refuses_link :
    answer overlongRun 0 (.x86Branch "out" (.jump .always .near)) =
        .failed (.error (.branchOutOfRange (-129) 127 129)) ∧
      (∃ older ∈ waitingFor .x86 0 overlongRun "out", older.site = 1 ∧
        ∀ position, 131 ≤ position → ¬older.shape.Reaches older.site position) ∧
      ∃ r ∈ waitingFor .x86 0 (overlongRun ++ overlongDetour) "out",
        answer (overlongRun ++ overlongDetour) 0 (.bind "out") =
          .failed (.error (.branchOutOfRange (r.shape.distance r.site 131)
            r.shape.linkField.max r.site)) := by
  have hrun : ((empty.run overlongRun).assembler? 0).map (fun a => (a.target, a.buffer.size)) =
        some (.x86, 129) ∧
      ((empty.run overlongRun).labels.get "out").position? = none ∧
      ((empty.run overlongRun).labels.get "out").owner = some 0 ∧
      ((empty.run overlongRun).labels.get "out").head .near = some 1 ∧
      (answer overlongRun 0 (.x86Branch "out" (.jump .always .near))).error? =
        some (.branchOutOfRange (-129) 127 129) ∧
      ((empty.run (overlongRun ++ overlongDetour)).assembler? 0).map (fun a => a.buffer.size) =
        some 131 ∧
      ((empty.run (overlongRun ++ overlongDetour)).labels.get "out").position? = none := by
    decide +kernel
  obtain ⟨hsome, hopen, hown, hhead, herror, hlater, hstill⟩ := hrun
  obtain ⟨a, ha, hpair⟩ := Option.map_eq_some_iff.mp hsome
  obtain ⟨htarget, hsize⟩ := Prod.mk.inj hpair
  obtain ⟨b, hb, hend⟩ := Option.map_eq_some_iff.mp hlater
  have hrefused := Outcome.eq_of_error? herror
  have hissue : (Request.x86Branch "out" (.jump .always .near)).issue?
      (empty.run overlongRun).labels a = some ⟨"out", 129, .short X86.Jump.always.shortOpcode⟩ := by
    rw [Request.issue?, hsize, hopen]
    rfl
  obtain ⟨older, hmem, hsite, -, hunreached, hbind⟩ :=
    refused_link_not_spurious overlongRun ha hissue hopen (.inr hown) hrefused
  have hdetour := hbind overlongDetour b hb hstill (by rw [hend]; decide)
  rw [htarget] at hmem hdetour
  rw [hend] at hdetour
  refine ⟨hrefused, ⟨older, hmem, ?_, hunreached⟩, hdetour⟩
  exact Option.some.inj (hsite.symm.trans hhead)

end Session

end MachineCode
