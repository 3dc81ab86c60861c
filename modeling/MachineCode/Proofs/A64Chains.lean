import MachineCode.Proofs.Chains

/-!
# Chains of A64 branches

With far branches off, a label has three chains, one for each field, and each word holds its own
link. With far branches on, all of its branches are on the wide chain, and a pair holds its link in
the second word.
-/

namespace MachineCode.A64

open CodeBuffer Session

def requested? : Request → Option (String × Branch)
  | .a64Branch name branch => some (name, branch)
  | _ => none

/-- The chain of a family that keeps its links in its own words. -/
def BranchKind.chain : BranchKind → Chain
  | .unconditional => .wide
  | .conditional | .compareAndBranch => .near
  | .testAndBranch => .short

/-- A branch with a test takes two words if far branches are on. -/
def layout (far : Bool) : Layout Branch where
  chain branch := if far then .wide else branch.kind.chain
  before _ := 0
  length branch := if far = true ∧ branch.kind ≠ .unconditional then 8 else 4

/-- The link at a site: in the field of its own word, or in the word behind the guard of a pair. -/
def storedLink (far : Bool) (b : CodeBuffer) (site : Nat) : Option Int := do
  let word ← (b.loadWord site).toOption
  let kind ← BranchKind.ofWord? word
  if far = true ∧ kind ≠ .unconditional then
    let second ← (b.loadWord (site + 4)).toOption
    return DispField.imm26.decode second
  else
    return kind.field.decode word

/-- The chains run through the pending branches, and the words there are those asked for. -/
structure ChainsHold (far : Bool) (labels : Labels) (b : CodeBuffer)
    (pending : List (Emission Branch)) : Prop extends
    MachineCode.ChainsHold (layout far) (fun _ => storedLink far b) labels b pending where
  family : ∀ e ∈ pending, ∃ word, b.loadWord e.start = .ok word ∧
    BranchKind.ofWord? word = some e.branch.kind
  second : far = true → ∀ e ∈ pending, e.branch.kind ≠ .unconditional →
    ∃ word, b.loadWord (e.start + 4) = .ok word ∧ word &&& 0xFC000000#32 = wordB

/-! ## Words of pending branches -/

section

variable {b : CodeBuffer} {r : Issue} {older : Ledger} {word : Word} {k : BranchKind} {far : Bool}

private theorem loadWord_single (granted : b.Granted) (hshape : r.shape = .single word)
    (hpending : r.Pending older b.bytes) :
    b.loadWord r.site = .ok ((fieldOf word).insert (r.backLink older) word) := by
  have hholds := hpending.holds_link
  rw [hshape] at hholds
  exact loadWord_eq_of_holds granted hholds

private theorem loadWord_pair (granted : b.Granted) (hshape : r.shape = .pair word)
    (hpending : r.Pending older b.bytes) :
    b.loadWord r.site = .ok (guardOf word) ∧
      b.loadWord (r.site + 4) = .ok (DispField.imm26.insert (r.backLink older) wordB) := by
  have hholds := hpending.holds_link
  rw [hshape] at hholds
  obtain ⟨hguard, hsecond⟩ := holds_append.mp hholds
  exact ⟨loadWord_eq_of_holds granted hguard, loadWord_eq_of_holds granted hsecond⟩

private theorem ofWord?_guardOf (h : BranchKind.ofWord? word = some k) :
    BranchKind.ofWord? (guardOf word) = some k := by
  rw [guardOf, fieldOf_eq h]
  exact BranchKind.ofWord?_insert (ofWord?_invertBranch h) 8

private theorem storedLink_eq (granted : b.Granted) (hchained : Chained far r.shape)
    (hpending : r.Pending older b.bytes) : storedLink far b r.site = some (r.backLink older) := by
  have hfits := hpending.1
  cases hshape : r.shape with
  | short _ =>
    rw [hshape] at hchained
    exact hchained.elim
  | long _ =>
    rw [hshape] at hchained
    exact hchained.elim
  | single word =>
    rw [hshape] at hchained hfits
    obtain ⟨k, hk, hnear⟩ := hchained
    have hown : ¬(far = true ∧ k ≠ .unconditional) := by
      rcases hnear with hkind | hoff
      · exact fun h => h.2 hkind
      · simp [hoff]
    simp only [Shape.linkField, fieldOf_eq hk] at hfits
    simp only [storedLink, loadWord_single granted hshape hpending, fieldOf_eq hk, Except.toOption,
      Option.bind_eq_bind, Option.bind_some, BranchKind.ofWord?_insert hk, if_neg hown,
      DispField.decode_insert hfits, Option.pure_def]
  | pair word =>
    rw [hshape] at hchained hfits
    obtain ⟨hfar, k, hk, htest⟩ := hchained
    obtain ⟨hguard, hsecond⟩ := loadWord_pair granted hshape hpending
    have hdecode : DispField.imm26.decode (DispField.imm26.insert (r.backLink older) wordB) =
        r.backLink older :=
      DispField.decode_insert hfits wordB
    simp only [storedLink, hguard, hsecond, Except.toOption, Option.bind_eq_bind, Option.bind_some,
      ofWord?_guardOf hk, if_pos (And.intro hfar htest), hdecode, Option.pure_def]

end

def openShape (far : Bool) (branch : Branch) : Shape :=
  if far = true ∧ branch.kind ≠ .unconditional then .pair branch.word else .single branch.word

private theorem shape_none (far : Bool) (branch : Branch) (start : Nat) :
    branch.shape far none start = openShape far branch := by
  simp only [Branch.shape, openShape]
  by_cases hkind : branch.kind = .unconditional
  · simp [hkind]
  · cases far <;> simp [hkind]

private theorem describes_openShape (far : Bool) : (layout far).Describes (openShape far) := by
  intro branch
  have hfield : chainOf (fieldOf branch.word) = branch.kind.chain := by
    rw [fieldOf_eq (ofWord?_word branch)]
    cases branch.kind <;> rfl
  cases far with
  | false => simp [openShape, layout, Shape.chain, Shape.opcode, Shape.siteLength, hfield]
  | true =>
    by_cases hkind : branch.kind = .unconditional
    · simp [openShape, layout, Shape.chain, Shape.opcode, Shape.siteLength, hfield, hkind,
        BranchKind.chain]
    · simp [openShape, layout, Shape.chain, Shape.opcode, Shape.siteLength, hkind]

/-! ## Runs -/

theorem issues_requested? (far : Bool) : Issues (.a64 far) requested? (openShape far) := by
  constructor
  case nothing =>
    intro labels a request htarget hreply hnone
    obtain ⟨target, buffer⟩ := a
    cases htarget
    cases request with
    | a64Branch name branch => cases hnone
    | x86Branch name branch => cases hreply
    | _ => rfl
  case branch =>
    intro labels a request name branch htarget _ hsome
    obtain ⟨target, buffer⟩ := a
    cases htarget
    cases request with
    | a64Branch name' branch' =>
      cases hsome
      refine ⟨_, rfl, rfl, fun hnone => ?_⟩
      rw [hnone, shape_none]
    | _ => cases hsome

private theorem chainsHold_run (events : List Event) {i : Nat} {a : Assembler} {far : Bool}
    (ha : (empty.run events).assembler? i = some a) (htarget : a.target = .a64 far) :
    ChainsHold far (empty.run events).labels a.buffer (pending requested? i events) := by
  obtain ⟨-, hagrees⟩ := (consistent_run events).agrees i a ha
  have hpending : (empty.ledger i events).filter
      (fun r => ((empty.run events).labels.get r.name).position?.isNone) =
        (pending requested? i events).map (Emission.issue (openShape far)) :=
    consistent_empty.filter_ledger ha (htarget ▸ issues_requested? far)
  have hholds : ∀ r older, r :: older <:+ empty.ledger i events →
      ((empty.run events).labels.get r.name).position? = none →
      Chained far r.shape ∧ r.Pending older a.buffer.bytes := by
    intro r older hs hnone
    obtain ⟨heads, hp⟩ := Label.place_of_position?_eq_none hnone
    have hpend := hagrees.pending r older hs heads hp
    rw [htarget] at hpend
    exact hpend
  have hemitted : ∀ e ∈ pending requested? i events, ∃ older,
      (e.issue (openShape far)).Pending older a.buffer.bytes := by
    intro e he
    obtain ⟨hmem, hnone⟩ := mem_ledger_of_pending hpending he
    obtain ⟨older, hs⟩ := Ledger.exists_suffix_of_mem hmem
    exact ⟨older, (hholds _ older hs hnone).2⟩
  have hsite : ∀ e : Emission Branch, (e.issue (openShape far)).site = e.start := by
    intro e
    rw [Issue.site, Emission.issue, (describes_openShape far e.branch).2.1]
    rfl
  refine ⟨hagrees.chainsHold (describes_openShape far) hpending ?_, ?_, ?_⟩
  · intro r older hs hnone
    obtain ⟨hchained, hpend⟩ := hholds r older hs hnone
    exact storedLink_eq hagrees.granted hchained hpend
  · intro e he
    obtain ⟨older, hpend⟩ := hemitted e he
    have hk := ofWord?_word e.branch
    rw [← hsite e]
    by_cases hpair : far = true ∧ e.branch.kind ≠ .unconditional
    · obtain ⟨hguard, -⟩ := loadWord_pair hagrees.granted (if_pos hpair) hpend
      exact ⟨_, hguard, ofWord?_guardOf hk⟩
    · have hload := loadWord_single hagrees.granted (if_neg hpair) hpend
      rw [fieldOf_eq hk] at hload
      exact ⟨_, hload, BranchKind.ofWord?_insert hk _⟩
  · intro hfar e he htest
    obtain ⟨older, hpend⟩ := hemitted e he
    obtain ⟨-, hsecond⟩ := loadWord_pair hagrees.granted (if_pos ⟨hfar, htest⟩) hpend
    rw [hsite e] at hsecond
    refine ⟨_, hsecond, ?_⟩
    rw [DispField.insert_and (by decide)]
    decide

/-- In every state that a session can reach, the chains of an A64 assembler hold its pending
branches, and binding a label leaves the chains of the others. -/
theorem chains_hold_branches (events : List Event) {i : Nat} {a : Assembler} {far : Bool}
    (ha : (empty.run events).assembler? i = some a) (htarget : a.target = .a64 far) :
    ChainsHold far (empty.run events).labels a.buffer (pending requested? i events) ∧
      ∀ name, (answer events i (.bind name)).isReply = true →
        ∃ b, ((empty.run events).step i (.bind name)).1.assembler? i = some b ∧
          ChainsHold far ((empty.run events).step i (.bind name)).1.labels b.buffer
            ((pending requested? i events).filter fun e => decide (e.name ≠ name)) := by
  refine ⟨chainsHold_run events ha htarget, fun name hreply => ?_⟩
  exact holds_after_bind (fun _ _ hb => chainsHold_run _ hb) ha htarget rfl hreply

/-- A plain branch and a pair to one label, with a pair to another label between them. -/
private def farTangle : List Event :=
  [.add 4096 .a64 { Options.standard with initialCapacity := 64, farBranches := true },
   .request 0 (.a64Branch "out" (.jump false)),
   .request 0 (.a64Branch "loop" (.onCondition .eq)),
   .request 0 (.a64Branch "out" (.test true .lr 3))]

theorem farTangle_chains_hold :
    ∃ a b, (empty.run farTangle).assembler? 0 = some a ∧
      (∀ visited, Walk (storedLink true a.buffer)
        (((empty.run farTangle).labels.get "out").head .wide) visited ↔ visited = [12, 0]) ∧
      ((empty.run farTangle).step 0 (.bind "loop")).1.assembler? 0 = some b ∧
      ChainsHold true ((empty.run farTangle).step 0 (.bind "loop")).1.labels b.buffer
        ((pending requested? 0 farTangle).filter fun e => decide (e.name ≠ "loop")) := by
  obtain ⟨a, ha, hpair⟩ := Option.map_eq_some_iff.mp
    (show ((empty.run farTangle).assembler? 0).map (fun a => (a.target, a.buffer.id)) =
      some (.a64 true, 0) by decide +kernel)
  obtain ⟨htarget, hid⟩ := Prod.mk.inj hpair
  obtain ⟨hchains, hbind⟩ := chains_hold_branches farTangle ha htarget
  obtain ⟨b, hb, hother⟩ := hbind "loop" (by decide +kernel)
  have howner : ((empty.run farTangle).labels.get "out").owner = some a.buffer.id := by
    rw [hid]
    decide +kernel
  have hsites : Emission.sites (layout true) (pending requested? 0 farTangle) "out" .wide =
      [12, 0] := by
    decide +kernel
  refine ⟨a, b, ha, fun visited => ?_, hb, hother⟩
  rw [← hsites]
  exact hchains.visits "out" howner (by decide +kernel) .wide visited

end MachineCode.A64
