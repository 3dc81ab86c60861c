import MachineCode.Proofs.Linking

/-!
# A64 branches and bindings

A pair is emitted with the opposite test in its guard. Binding turns it back into the branch that
was asked for if that one reaches, and otherwise completes the `b` behind the guard.
-/

namespace MachineCode.A64

open CodeBuffer Link

/-! ## Words -/

/-- The family of a branch. The condition that always holds makes it unconditional. -/
def Branch.kind : Branch → BranchKind
  | .jump _ | .onCondition .al => .unconditional
  | .onCondition _ => .conditional
  | .compare .. => .compareAndBranch
  | .test .. => .testAndBranch

def Branch.word : Branch → Word
  | .jump link => if link then wordBl else wordB
  | .onCondition .al => wordB
  | .onCondition condition => wordBCond ||| field 0 condition.code
  | .compare nonzero rt width =>
    wordCbz ||| width.widthBit ||| flag 24 nonzero |||
      field 0 ((rt.slot .zero).getD 0#5)
  | .test set rt bit =>
    wordTbz ||| field 31 ((BitVec.ofNat 6 bit).extractLsb' 5 1) ||| flag 24 set |||
      field 19 ((BitVec.ofNat 6 bit).extractLsb' 0 5) |||
      field 0 ((rt.slot .zero).getD 0#5)

private theorem word_and (branch : Branch) :
    branch.word &&& (branch.kind.familyMask ||| branch.kind.field.mask) =
      branch.kind.familyBits := by
  cases branch with
  | jump link => cases link <;> decide
  | onCondition condition => cases condition <;> decide
  | compare nonzero rt width =>
    simp only [Branch.word, Branch.kind, AccessSize.widthBit, BitVec.and_or_distrib_right]
    rw [flag_and (by decide), flag_and (by decide), field_and (by decide)]
    decide
  | test set rt bit =>
    simp only [Branch.word, Branch.kind, BitVec.and_or_distrib_right]
    rw [flag_and (by decide), field_and (by decide), field_and (by decide), field_and (by decide)]
    decide

theorem ofWord?_word (branch : Branch) : BranchKind.ofWord? branch.word = some branch.kind := by
  have hfamily : (branch.kind.familyMask ||| branch.kind.field.mask) &&& branch.kind.familyMask =
      branch.kind.familyMask := by
    cases branch.kind <;> decide
  have hbits : branch.kind.familyBits &&& branch.kind.familyMask = branch.kind.familyBits := by
    cases branch.kind <;> decide
  rw [BranchKind.ofWord?_eq_some_iff, ← hfamily, ← BitVec.and_assoc, word_and, hbits]

theorem word_and_mask (branch : Branch) : branch.word &&& branch.kind.field.mask = 0#32 := by
  have hfield : (branch.kind.familyMask ||| branch.kind.field.mask) &&& branch.kind.field.mask =
      branch.kind.field.mask := by
    cases branch.kind <;> decide
  have hbits : branch.kind.familyBits &&& branch.kind.field.mask = 0#32 := by
    cases branch.kind <;> decide
  rw [← hfield, ← BitVec.and_assoc, word_and, hbits]

theorem fieldOf_eq {word : Word} {k : BranchKind} (h : BranchKind.ofWord? word = some k) :
    fieldOf word = k.field := by
  simp only [fieldOf, h, Option.map_some, Option.getD_some]

private theorem compareWord_eq_ok {nonzero : Bool} {rt : Register} {width : AccessSize}
    {offset : Nat} {word : Word} (h : compareWord nonzero rt width offset = .ok word) :
    word = (Branch.compare nonzero rt width).word := by
  simp only [compareWord, except_bind_eq_ok, registerField] at h
  obtain ⟨slot, hslot, hword⟩ := h
  cases hnumber : rt.slot .zero with
  | none =>
    rw [hnumber] at hslot
    cases hslot
  | some number =>
    rw [hnumber] at hslot
    cases hslot
    cases hword
    simp only [Branch.word, hnumber, Option.getD_some]

private theorem testWord_eq_ok {set : Bool} {rt : Register} {bit offset : Nat} {word : Word}
    (h : testWord set rt bit offset = .ok word) : word = (Branch.test set rt bit).word := by
  simp only [testWord, except_bind_eq_ok, registerField, unsignedField] at h
  obtain ⟨number, hbit, slot, hslot, hword⟩ := h
  split at hbit
  · cases hbit
    cases hnumber : rt.slot .zero with
    | none =>
      rw [hnumber] at hslot
      cases hslot
    | some number =>
      rw [hnumber] at hslot
      cases hslot
      cases hword
      simp only [Branch.word, hnumber, Option.getD_some]
  · cases hbit

/-! ## Emission -/

/-- The shape of a branch emitted at `start`: a test is a pair if far branches are on and it is not
known to reach. -/
def Branch.shape (branch : Branch) (far : Bool) (position : Option Nat) (start : Nat) : Shape :=
  if branch.kind = .unconditional ∨ far = false then .single branch.word
  else
    match position with
    | some target =>
      if branch.kind.field.Fits (target - start) then .single branch.word else .pair branch.word
    | none => .pair branch.word

theorem emitWord_ends (word : Word) (b : CodeBuffer) :
    Ends (emitWord word) b (fun _ c => Appends (littleEndian 4 word).toArray b c)
      (fun e c => Appends #[] b c ∧ e.isMemory = true) := by
  have hlen : (littleEndian 4 word).length ≤ instructionGap := by
    simp [instructionGap]
  apply (emitInstruction_ends hlen b).mono
  · exact fun _ _ h => h
  · rintro _ _ ⟨rfl, hmemory⟩
    exact ⟨.refl _, hmemory⟩

private theorem emitPair_ends (first second : Word) (b : CodeBuffer) :
    Ends (emitPair first second) b
      (fun _ c => Appends (littleEndian 4 first ++ littleEndian 4 second).toArray b c)
      (fun e c => Appends #[] b c ∧ e.isMemory = true) := by
  have hlen : (littleEndian 4 first ++ littleEndian 4 second).length ≤ instructionGap := by
    simp [instructionGap]
  apply (emitInstruction_ends hlen b).mono
  · exact fun _ _ h => h
  · rintro _ _ ⟨rfl, hmemory⟩
    exact ⟨.refl _, hmemory⟩

private theorem guardWord_eq {word : Word} {k : BranchKind} (h : BranchKind.ofWord? word = some k) :
    guardWord k.field word = .ok (guardOf word) := by
  have hfits : k.field.Fits 8 := by cases k <;> decide
  rw [guardWord, DispField.embed_of_fits hfits, guardOf, fieldOf_eq h]

section

variable {s : Linking} {word : Word}

private theorem reachSingle_ends {target : Nat}
    (hown : s.label.owner = none ∨ s.label.owner = some s.buffer.id)
    (hp : s.label.place = .bound target)
    (hfits : (fieldOf word).Fits ((target : Int) - s.buffer.size)) :
    Ends (do onBuffer (emitWord (← asserted ((fieldOf word).embed (target - s.buffer.size) word))))
      ⟨s.buffer, s.label.ownedBy s.buffer.id⟩ (fun _ t => Placed (.single word) s t)
      (fun e t => Refused s t ∧ Rejected (.single word) s e) := by
  rw [DispField.embed_of_fits hfits, ends_bind, ends_asserted_ok]
  exact reach_ends (.single word) hown hp hfits (emitWord_ends _ _)

private theorem linkSingle_ends {heads : Heads} {notice : Notice}
    (hown : s.label.owner = none ∨ s.label.owner = some s.buffer.id)
    (hp : s.label.place = .unbound heads)
    (hlt : ∀ head, heads.get (chainOf (fieldOf word)) = some head → head < s.buffer.size)
    (hfits : (fieldOf word).Fits (backLink s.buffer.size (heads.get (chainOf (fieldOf word))))) :
    Ends (do
        let linked ← asserted ((fieldOf word).embed
          (backLink s.buffer.size (heads.get (chainOf (fieldOf word)))) word)
        onBuffer (emitWord linked)
        Link.push (chainOf (fieldOf word)) s.buffer.size
        notify notice)
      ⟨s.buffer, s.label.ownedBy s.buffer.id⟩ (fun _ t => Placed (.single word) s t)
      (fun e t => Refused s t ∧ Rejected (.single word) s e) := by
  rw [DispField.embed_of_fits hfits, ends_bind, ends_asserted_ok]
  exact link_ends (.single word) hown hp hlt hfits (emitWord_ends _ _) _

end

private theorem emitJump_ends {word : Word} (hk : BranchKind.ofWord? word = some .unconditional)
    (s : Linking) :
    Ends (emitJump word) s (fun _ t => Placed (.single word) s t)
      (fun e t => Refused s t ∧ Rejected (.single word) s e) := by
  have hfield : DispField.imm26 = fieldOf word := (fieldOf_eq hk).symm
  have hchain : Chain.wide = chainOf (fieldOf word) := by rw [← hfield]; rfl
  simp only [emitJump, ends_bind, ends_size]
  rw [hfield, hchain]
  apply (adopt_ends s).mono
  · rintro - _ ⟨rfl, hown⟩
    have hposition : (s.label.ownedBy s.buffer.id).position? = s.label.position? := rfl
    simp only [ends_get, hposition]
    cases hpos : s.label.position? with
    | some target =>
      have hp := Label.position?_eq_some.mp hpos
      rw [ends_ite]
      refine ⟨fun hfits => ?_, fun hfar => ?_⟩
      · exact reachSingle_ends hown hp hfits
      · exact ⟨refused_of_adoptable hown (.refl _), .outOfReach hp hfar⟩
    | none =>
      obtain ⟨heads, hp⟩ := Label.place_of_position?_eq_none hpos
      refine linkBack_ends (.single word) hown hp (.refl _) fun hlt => ?_
      rw [ends_ite]
      refine ⟨fun hfits => ?_, fun hfar => ?_⟩
      · exact linkSingle_ends hown hp hlt hfits
      · exact ⟨refused_of_adoptable hown (.refl _), .outOfLink hp hfar⟩
  · rintro - t ⟨rfl, rfl, id, howner, hne⟩
    exact ⟨refused_refl _, .foreign howner hne⟩

def conditionalShape (far : Bool) (f : DispField) (word : Word) (position : Option Nat)
    (start : Nat) : Shape :=
  if far = false then .single word
  else
    match position with
    | some target => if f.Fits (target - start) then .single word else .pair word
    | none => .pair word

private theorem emitConditional_ends (far : Bool) {word : Word} {k : BranchKind}
    (hk : BranchKind.ofWord? word = some k) (s : Linking) :
    Ends (emitConditional far word) s
      (fun _ t => Placed (conditionalShape far k.field word s.label.position? s.buffer.size) s t)
      (fun e t => Refused s t ∧
        Rejected (conditionalShape far k.field word s.label.position? s.buffer.size) s e) := by
  have hfield : ((BranchKind.ofWord? word).map BranchKind.field).getD .imm19 = k.field :=
    fieldOf_eq hk
  simp only [emitConditional, ends_bind, ends_size, hfield]
  apply (adopt_ends s).mono
  · rintro - _ ⟨rfl, hown⟩
    have hposition : (s.label.ownedBy s.buffer.id).position? = s.label.position? := rfl
    simp only [ends_get, hposition]
    cases hpos : s.label.position? with
    | some target =>
      have hp := Label.position?_eq_some.mp hpos
      simp only [conditionalShape]
      rw [ends_ite]
      refine ⟨fun hfits => ?_, fun hfits => ?_⟩
      · simp only [if_pos hfits, ite_self]
        rw [← fieldOf_eq hk] at hfits ⊢
        exact reachSingle_ends hown hp hfits
      · cases far with
        | false =>
          rw [← fieldOf_eq hk] at hfits ⊢
          exact ⟨refused_of_adoptable hown (.refl _), .outOfReach hp hfits⟩
        | true =>
          simp only [Bool.not_true, Bool.false_eq_true, if_false, reduceCtorEq, if_neg hfits,
            ends_ite]
          rw [← fieldOf_eq hk] at hfits
          refine ⟨fun hwide => ?_, fun hwide => ?_⟩
          · rw [guardWord_eq hk, DispField.embed_of_fits hwide, ends_bind, ends_asserted_ok,
              ends_bind, ends_asserted_ok, ends_bind]
            have hemit := emitPair_ends (guardOf word)
              (DispField.imm26.insert (target - s.buffer.size - 4) wordB) s.buffer
            have hpatch : (Shape.pair word).patch s.buffer.size target =
                littleEndian 4 (guardOf word) ++
                  littleEndian 4 (DispField.imm26.insert (target - s.buffer.size - 4) wordB) :=
              if_neg hfits
            rw [← hpatch] at hemit
            apply (reach_ends (.pair word) hown hp (.inr hwide) hemit).mono
            · intro _ t ht
              exact placed_notify ht _
            · exact fun _ _ h => h
          · exact ⟨refused_of_adoptable hown (.refl _),
              .outOfReach hp (not_or.mpr ⟨hfits, hwide⟩)⟩
    | none =>
      obtain ⟨heads, hp⟩ := Label.place_of_position?_eq_none hpos
      cases far with
      | false =>
        simp only [conditionalShape, Bool.false_eq_true, if_false, if_true]
        rw [← fieldOf_eq hk]
        refine linkBack_ends (.single word) hown hp (.refl _) fun hlt => ?_
        rw [ends_ite]
        refine ⟨fun hfits => ?_, fun hfits => ?_⟩
        · exact linkSingle_ends hown hp hlt hfits
        · exact ⟨refused_of_adoptable hown (.refl _), .outOfLink hp hfits⟩
      | true =>
        simp only [conditionalShape, if_true, reduceCtorEq, if_false]
        refine linkBack_ends (.pair word) hown hp (.refl _) fun hlt => ?_
        rw [ends_ite]
        refine ⟨fun hfits => ?_, fun hfits => ?_⟩
        · rw [guardWord_eq hk, DispField.embed_of_fits hfits, ends_bind, ends_asserted_ok,
            ends_bind, ends_asserted_ok]
          exact link_ends (.pair word) hown hp hlt hfits (emitPair_ends _ _ _) _
        · exact ⟨refused_of_adoptable hown (.refl _), .outOfLink hp hfits⟩
  · rintro - t ⟨rfl, rfl, id, howner, hne⟩
    exact ⟨refused_refl _, .foreign howner hne⟩

private theorem run_onCondition (far : Bool) {condition : Condition} (hal : condition ≠ .al)
    (hnv : condition ≠ .nv) :
    (Branch.onCondition condition).run far =
      emitConditional far (Branch.onCondition condition).word := by
  cases condition with
  | al => exact absurd rfl hal
  | nv => exact absurd rfl hnv
  | _ => rfl

theorem Branch.kind_onCondition {condition : Condition} (hal : condition ≠ .al) :
    (Branch.onCondition condition).kind = .conditional := by
  cases condition with
  | al => exact absurd rfl hal
  | _ => rfl

/-- The word of a branch, less the displacement, or why no instruction takes its operands. -/
def Branch.encoder : Branch → Encoder
  | .onCondition .nv => refuse .neverBranch
  | .compare nonzero rt width => compareWord nonzero rt width
  | .test set rt bit => testWord set rt bit
  | branch => fun _ => .ok branch.word

/-- A branch is refused or appended in its shape. Operands are checked before anything else. -/
theorem branch_ends (far : Bool) (branch : Branch) (s : Linking) :
    Ends (branch.run far) s
      (fun _ t => Placed (branch.shape far s.label.position? s.buffer.size) s t)
      (fun e t => Refused s t ∧
        (Rejected (branch.shape far s.label.position? s.buffer.size) s e ∨
          ∃ cause, branch.encoder s.buffer.size = .error cause ∧ e = .error cause)) := by
  have hjump : ∀ b : Branch, b.kind = .unconditional →
      Ends (emitJump b.word) s
        (fun _ t => Placed (b.shape far s.label.position? s.buffer.size) s t)
        (fun e t => Refused s t ∧ (Rejected (b.shape far s.label.position? s.buffer.size) s e ∨
          ∃ cause, b.encoder s.buffer.size = .error cause ∧ e = .error cause)) := by
    intro b hb
    simp only [Branch.shape, hb, true_or, if_true]
    apply (emitJump_ends (hb ▸ ofWord?_word b) s).mono
    · exact fun _ _ h => h
    · exact fun _ _ h => ⟨h.1, .inl h.2⟩
  have htest : ∀ b : Branch, b.kind ≠ .unconditional →
      Ends (emitConditional far b.word) s
        (fun _ t => Placed (b.shape far s.label.position? s.buffer.size) s t)
        (fun e t => Refused s t ∧ (Rejected (b.shape far s.label.position? s.buffer.size) s e ∨
          ∃ cause, b.encoder s.buffer.size = .error cause ∧ e = .error cause)) := by
    intro b hb
    simp only [Branch.shape, hb, false_or]
    apply (emitConditional_ends far (ofWord?_word b) s).mono
    · exact fun _ _ h => h
    · exact fun _ _ h => ⟨h.1, .inl h.2⟩
  cases branch with
  | jump link => exact hjump (.jump link) rfl
  | onCondition condition =>
    by_cases hal : condition = .al
    · subst hal
      exact hjump (.onCondition .al) rfl
    · by_cases hnv : condition = .nv
      · subst hnv
        exact ⟨refused_refl s, .inr ⟨_, rfl, rfl⟩⟩
      · rw [run_onCondition far hal hnv]
        exact htest _ (by simp [Branch.kind_onCondition hal])
  | compare nonzero rt width =>
    simp only [Branch.run, ends_bind, ends_size]
    rw [ends_checked]
    refine ⟨fun word hword => ?_, fun cause hcause => ⟨refused_refl s, .inr ⟨cause, hcause, rfl⟩⟩⟩
    rw [compareWord_eq_ok hword]
    exact htest (.compare nonzero rt width) (by simp [Branch.kind])
  | test set rt bit =>
    simp only [Branch.run, ends_bind, ends_size]
    rw [ends_checked]
    refine ⟨fun word hword => ?_, fun cause hcause => ⟨refused_refl s, .inr ⟨cause, hcause, rfl⟩⟩⟩
    rw [testWord_eq_ok hword]
    exact htest (.test set rt bit) (by simp [Branch.kind])

/-! ## Binding -/

/-- The shapes of A64 branches to a label that is not bound: with far branches on, all tests are
pairs. -/
def Chained (far : Bool) : Shape → Prop
  | .single word => ∃ k, BranchKind.ofWord? word = some k ∧ (k = .unconditional ∨ far = false)
  | .pair word => far = true ∧ ∃ k, BranchKind.ofWord? word = some k ∧ k ≠ .unconditional
  | .short _ | .long _ => False

theorem chained_shape (far : Bool) (branch : Branch) (start : Nat) :
    Chained far (branch.shape far none start) := by
  simp only [Branch.shape]
  split
  · next h => exact ⟨_, ofWord?_word branch, h⟩
  · next h =>
    rw [not_or, Bool.not_eq_false] at h
    exact ⟨h.2, _, ofWord?_word branch, h.1⟩

/-- What binding at `position` makes of a branch. -/
def patchOf (position : Nat) (r : Issue) : Patch :=
  match r.shape with
  | .single word => .single ((fieldOf word).insert (r.shape.distance r.site position) word)
  | .pair word =>
    if (fieldOf word).Fits (r.shape.distance r.site position) then
      .pair ((fieldOf word).insert (r.shape.distance r.site position) word) wordNop true
    else
      .pair (guardOf word)
        (DispField.imm26.insert (r.shape.distance r.site position - 4) wordB) false
  | .short _ | .long _ => .single wordNop

def Patch.bytes : Patch → List Byte
  | .single word => littleEndian 4 word
  | .pair first second _ => littleEndian 4 first ++ littleEndian 4 second

theorem bytes_patchOf {far : Bool} {r : Issue} (h : Chained far r.shape) (position : Nat) :
    (patchOf position r).bytes = r.shape.patch r.site position := by
  simp only [patchOf]
  generalize r.shape = shape at h
  cases shape with
  | short _ => exact h.elim
  | long _ => exact h.elim
  | single word => rfl
  | pair word =>
    simp only [Shape.patch]
    split <;> rfl

section

variable {b : CodeBuffer} {position : Nat} {r : Issue} {older : Ledger} {word : Word}
  {k : BranchKind}

private theorem resolveSingle_yields {far : Bool} (granted : b.Granted)
    (hshape : r.shape = .single word) (hk : BranchKind.ofWord? word = some k)
    (hnear : k = .unconditional ∨ far = false) (hstack : older.Stacked r.start)
    (hpending : r.Pending older b.bytes) :
    r.Yields position (patchOf position r, (Ledger.sites older r.name r.shape.chain).head?)
      (resolve far b position r.site) := by
  have hfits := hpending.1
  have hholds := hpending.holds_link
  have hlink := r.linkedSite_backLink hstack
  generalize r.backLink older = d at hfits hholds hlink
  rw [hshape] at hfits hholds
  have hload : b.loadWord r.site = .ok (k.field.insert d word) := by
    rw [← fieldOf_eq hk]
    exact CodeBuffer.loadWord_eq_of_holds granted hholds
  have hfar : ¬(k ≠ .unconditional ∧ far = true) := by
    rcases hnear with hkind | hoff
    · exact fun h => h.1 hkind
    · simp [hoff]
  simp only [Shape.linkField, fieldOf_eq hk] at hfits
  simp only [resolve, hload, ofAsserted_ok, ok_bind, BranchKind.ofWord?_insert hk, hfar, if_false,
    DispField.decode_insert hfits, hlink]
  simp only [Issue.Yields, Issue.unreached, patchOf, hshape, Shape.Reaches, Shape.distance,
    Shape.linkField, fieldOf_eq hk]
  by_cases hreach : k.field.Fits ((position : Int) - r.site)
  · left
    simp only [if_pos hreach, DispField.embed_of_fits hreach, DispField.insert_insert,
      ofAsserted_ok, ok_bind]
    exact ⟨hreach, rfl⟩
  · right
    simp only [if_neg hreach]
    exact ⟨hreach, rfl⟩

private theorem resolvePair_yields (granted : b.Granted) (hshape : r.shape = .pair word)
    (hk : BranchKind.ofWord? word = some k) (htest : k ≠ .unconditional)
    (hstack : older.Stacked r.start) (hpending : r.Pending older b.bytes) :
    r.Yields position (patchOf position r, (Ledger.sites older r.name r.shape.chain).head?)
      (resolve true b position r.site) := by
  have hfits := hpending.1
  have hholds := hpending.holds_link
  have hlink := r.linkedSite_backLink hstack
  generalize r.backLink older = d at hfits hholds hlink
  rw [hshape] at hfits hholds
  obtain ⟨hguard, hsecond⟩ := holds_append.mp hholds
  have hloadGuard : b.loadWord r.site = .ok (k.field.insert 8 (invertBranch word)) := by
    rw [← fieldOf_eq hk]
    exact CodeBuffer.loadWord_eq_of_holds granted hguard
  have hloadSecond : b.loadWord (r.site + 4) = .ok (DispField.imm26.insert d wordB) :=
    CodeBuffer.loadWord_eq_of_holds granted hsecond
  have hdecode : DispField.imm26.decode (DispField.imm26.insert d wordB) = d :=
    DispField.decode_insert hfits wordB
  have hinverse := ofWord?_invertBranch hk
  -- The opposite of the guard is the branch that was asked for.
  have hback : invertBranch (k.field.insert 8 (invertBranch word)) = k.field.insert 8 word := by
    rw [invertBranch_insert hinverse, invertBranch_invertBranch hk]
  simp only [resolve, hloadGuard, hloadSecond, ofAsserted_ok, ok_bind,
    BranchKind.ofWord?_insert hinverse, htest, ne_eq, not_false_eq_true, and_self, if_true, hdecode,
    hlink, hback]
  simp only [Issue.Yields, Issue.unreached, patchOf, hshape, Shape.Reaches, Shape.distance,
    Shape.linkField, guardOf, fieldOf_eq hk]
  by_cases hreach : k.field.Fits ((position : Int) - r.site)
  · left
    simp only [if_pos hreach, DispField.embed_of_fits hreach, DispField.insert_insert,
      ofAsserted_ok, ok_bind]
    exact ⟨.inl hreach, rfl⟩
  · by_cases hwide : DispField.imm26.Fits ((position : Int) - r.site - 4)
    · left
      simp only [if_neg hreach, if_pos hwide, DispField.embed_of_fits hwide,
        DispField.insert_insert, ofAsserted_ok, ok_bind]
      exact ⟨.inr hwide, rfl⟩
    · right
      simp only [if_neg hreach, if_neg hwide]
      exact ⟨not_or.mpr ⟨hreach, hwide⟩, rfl⟩

theorem resolve_yields {far : Bool} (granted : b.Granted) (hchained : Chained far r.shape)
    (hstack : older.Stacked r.start) (hpending : r.Pending older b.bytes) :
    r.Yields position (patchOf position r, (Ledger.sites older r.name r.shape.chain).head?)
      (resolve far b position r.site) := by
  cases hshape : r.shape with
  | short _ =>
    rw [hshape] at hchained
    exact hchained.elim
  | long _ =>
    rw [hshape] at hchained
    exact hchained.elim
  | single word =>
    rw [hshape] at hchained
    obtain ⟨k, hk, hnear⟩ := hchained
    exact hshape ▸ resolveSingle_yields granted hshape hk hnear hstack hpending
  | pair word =>
    rw [hshape] at hchained
    obtain ⟨rfl, k, hk, htest⟩ := hchained
    exact hshape ▸ resolvePair_yields granted hshape hk htest hstack hpending

end

def edits (patches : List (Nat × Patch)) : List (Nat × List Byte) :=
  patches.map fun p => (p.1, p.2.bytes)

section

variable {s : Linking} {heads : Heads} {ledger : Ledger} {name : String} {position : Nat}
  {far : Bool}

def chainPatches (ledger : Ledger) (name : String) (position : Nat) (chain : Chain) :
    List (Nat × Patch) :=
  (ledger.filter (Ledger.OnChain name chain)).map fun r => (r.site, patchOf position r)

private theorem patchList_chainPatches
    (hchained : ∀ r ∈ ledger, r.name = name → Chained far r.shape) :
    PatchList ledger name position (edits (chainPatches ledger name position .wide ++
      chainPatches ledger name position .near ++ chainPatches ledger name position .short)) := by
  have hmem : ∀ e, e ∈ edits (chainPatches ledger name position .wide ++
        chainPatches ledger name position .near ++ chainPatches ledger name position .short) ↔
      ∃ r ∈ ledger, r.name = name ∧ e = (r.site, (patchOf position r).bytes) := by
    intro e
    simp only [edits, chainPatches, List.map_append, List.map_map, List.mem_append, List.mem_map,
      List.mem_filter, decide_eq_true_eq, Function.comp_apply]
    constructor
    · rintro ((⟨r, ⟨hr, hon⟩, rfl⟩ | ⟨r, ⟨hr, hon⟩, rfl⟩) | ⟨r, ⟨hr, hon⟩, rfl⟩) <;>
        exact ⟨r, hr, hon.1, rfl⟩
    · rintro ⟨r, hr, hname, rfl⟩
      cases hc : r.shape.chain with
      | wide => exact .inl (.inl ⟨r, ⟨hr, hname, hc⟩, rfl⟩)
      | near => exact .inl (.inr ⟨r, ⟨hr, hname, hc⟩, rfl⟩)
      | short => exact .inr ⟨r, ⟨hr, hname, hc⟩, rfl⟩
  refine ⟨fun e he => ?_, fun r hr hname => ?_⟩
  · obtain ⟨r, hr, hname, rfl⟩ := (hmem e).mp he
    rw [bytes_patchOf (hchained r hr hname)]
    exact ⟨r, hr, hname, rfl⟩
  · rw [← bytes_patchOf (hchained r hr hname)]
    exact (hmem _).mpr ⟨r, hr, hname, rfl⟩

/-- The pending sites of a label are those of its branches in the ledger, chain by chain. -/
theorem pendingPatches_eq (granted : s.buffer.Granted) (hstack : ledger.Stacked s.buffer.size)
    (hthread : Threaded (Chained far) ledger name s heads) (position : Nat) :
    (∀ r ∈ ledger, r.name = name → r.shape.Reaches r.site position) ∧
        pendingPatches far s.buffer (s.label.ownedBy s.buffer.id) position =
          .ok (chainPatches ledger name position .wide ++ chainPatches ledger name position .near ++
            chainPatches ledger name position .short) ∨
      ∃ r ∈ ledger, r.name = name ∧ ¬r.shape.Reaches r.site position ∧
        pendingPatches far s.buffer (s.label.ownedBy s.buffer.id) position =
          .error (r.unreached position) := by
  have hchain := fun chain => resolveChain_sites (resolve far s.buffer position) position
    (patchOf position) hstack (hthread.head s.buffer.id chain) fun r older hs hon => by
      obtain ⟨rfl, rfl⟩ := hon
      exact resolve_yields granted (hthread.chained r (hs.mem (by simp)) rfl) (hstack.suffix hs)
        (hthread.pending r older hs rfl)
  simp only [pendingPatches]
  rcases hchain .wide with ⟨hwideGood, hwide⟩ | ⟨r, hr, hon, hbad, hwide⟩
  · rcases hchain .near with ⟨hnearGood, hnear⟩ | ⟨r, hr, hon, hbad, hnear⟩
    · rcases hchain .short with ⟨hshortGood, hshort⟩ | ⟨r, hr, hon, hbad, hshort⟩
      · left
        refine ⟨fun r hr hname => ?_, by simp only [hwide, hnear, hshort, ok_bind]; rfl⟩
        cases hc : r.shape.chain with
        | wide => exact hwideGood r hr ⟨hname, hc⟩
        | near => exact hnearGood r hr ⟨hname, hc⟩
        | short => exact hshortGood r hr ⟨hname, hc⟩
      · right
        exact ⟨r, hr, hon.1, hbad, by simp only [hwide, hnear, hshort, ok_bind]; rfl⟩
    · right
      exact ⟨r, hr, hon.1, hbad, by simp only [hwide, hnear, ok_bind]; rfl⟩
  · right
    exact ⟨r, hr, hon.1, hbad, by simp only [hwide]; rfl⟩

private theorem pendingPatches_gathers (granted : s.buffer.Granted)
    (hstack : ledger.Stacked s.buffer.size)
    (hthread : Threaded (Chained far) ledger name s heads) (position : Nat) :
    Gathers ledger name position edits
      (pendingPatches far s.buffer (s.label.ownedBy s.buffer.id) position) := by
  rcases pendingPatches_eq granted hstack hthread position with ⟨hgood, hpatches⟩ | hrefused
  · exact .inl ⟨_, hpatches, patchList_chainPatches hthread.chained, hgood⟩
  · exact .inr hrefused

private theorem storePair_ends {b : CodeBuffer} (granted : b.Granted) {site : Nat}
    (first second : Word) (inside : site + 8 ≤ b.size) (notice : Notice) :
    Ends (do
        CodeBuffer.storeWord site first
        CodeBuffer.storeWord (site + 4) second
        modify (CodeBuffer.notify notice)) b
      (fun _ c => Patches [(site, littleEndian 4 first ++ littleEndian 4 second)] b c)
      (fun _ _ => False) := by
  simp only [ends_bind, ends_modify]
  apply (store_ends granted (by simp; omega)).mono
  · intro _ c hc
    apply (store_ends (hc.granted granted) (by rw [hc.size]; simp; omega)).mono
    · intro _ d hd
      have hall := hc.trans hd
      refine ⟨⟨hall.id, hall.trap, hall.unresolved, hall.capacity, hall.granted⟩, ?_⟩
      have hbytes : (d.notify notice).bytes = d.bytes := rfl
      rw [hbytes, hall.bytes]
      simp only [List.cons_append, List.nil_append, edited, overwrite_append, littleEndian_length]
    · exact fun _ _ h => h
  · exact fun _ _ h => h

theorem applyPatches_ends {b : CodeBuffer} (granted : b.Granted)
    {patches : List (Nat × Patch)} (inside : ∀ e ∈ edits patches, e.1 + e.2.length ≤ b.size) :
    Ends (applyPatches patches) b (fun _ c => Patches (edits patches) b c) (fun _ _ => False) := by
  induction patches generalizing b with
  | nil => exact .refl b
  | cons first rest ih =>
    obtain ⟨site, patch⟩ := first
    have hfirst : site + patch.bytes.length ≤ b.size := inside _ (List.mem_cons_self ..)
    have hrest : ∀ c, Patches [(site, patch.bytes)] b c →
        Ends (applyPatches rest) c (fun _ d => Patches (edits ((site, patch) :: rest)) b d)
          (fun _ _ => False) := by
      intro c hc
      have hin : ∀ e ∈ edits rest, e.1 + e.2.length ≤ c.size := by
        intro e he
        rw [hc.size]
        exact inside e (List.mem_cons_of_mem _ he)
      apply (ih (hc.granted granted) hin).mono
      · exact fun _ d hd => hc.trans hd
      · exact fun _ _ h => h
    cases patch with
    | single word =>
      simp only [applyPatches, ends_bind]
      apply (store_ends granted hfirst).mono
      · exact fun _ c hc => hrest c hc
      · exact fun _ _ h => h
    | pair word second shrunk =>
      have hpair := storePair_ends granted word second (by simpa [Patch.bytes] using hfirst)
        (.farSite site shrunk)
      have hsplit : applyPatches ((site, .pair word second shrunk) :: rest) = (do
          CodeBuffer.storeWord site word
          CodeBuffer.storeWord (site + 4) second
          modify (CodeBuffer.notify (.farSite site shrunk))) >>= fun _ => applyPatches rest := by
        simp only [applyPatches, bind_assoc]
      rw [hsplit, ends_bind]
      apply hpair.mono
      · exact fun _ c hc => hrest c hc
      · exact fun _ _ h => h

end

theorem bind_eq_binding (far : Bool) : bind far = binding (pendingPatches far) applyPatches := by
  unfold bind binding
  refine bind_congr fun _ => bind_congr fun _ => bind_congr fun position => bind_congr fun s => ?_
  cases pendingPatches far s.buffer s.label position <;> rfl

/-- A label is refused or bound with all of its branches. -/
theorem bind_ends {s : Linking} {ledger : Ledger} {name : String} {far : Bool}
    (granted : s.buffer.Granted) (hstack : ledger.Stacked s.buffer.size)
    (hthread : s.label.owner = none ∨ s.label.owner = some s.buffer.id →
      ∀ heads, s.label.place = .unbound heads → Threaded (Chained far) ledger name s heads) :
    Ends (bind far) s (fun _ t => Bound ledger name s t)
      (fun e t => Refused s t ∧ Unbindable ledger name s e) := by
  rw [bind_eq_binding]
  exact binding_ends edits hstack hthread
    (fun _ hthreaded => pendingPatches_gathers granted hstack hthreaded s.buffer.size)
    (fun _ inside => applyPatches_ends granted inside)

end MachineCode.A64
