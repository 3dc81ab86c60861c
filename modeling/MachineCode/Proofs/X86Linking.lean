import MachineCode.Proofs.Linking
import MachineCode.X86.Branch

/-!
# x86-64 branches and bindings
-/

namespace MachineCode.X86

open CodeBuffer Link

/-- The shape of a branch emitted at `start`: a jump to a bound label is short if the short form
reaches, one to an unbound label is what was asked for, and a call is always long. -/
def Branch.shape (branch : Branch) (position : Option Nat) (start : Nat) : Shape :=
  match branch with
  | .call => .long [0xE8#8]
  | .jump j distance =>
    match position with
    | some target =>
      if DispField.rel8.Fits (target - (start + j.shortOpcode.length + 1)) then
        .short j.shortOpcode
      else .long j.longOpcode
    | none =>
      match distance with
      | .near => .short j.shortOpcode
      | .far => .long j.longOpcode

theorem length_shortOpcode (jump : Jump) : jump.shortOpcode.length = 1 := by
  cases jump <;> rfl

theorem length_longOpcode_le (jump : Jump) : jump.longOpcode.length ≤ 2 := by
  cases jump <;> simp [Jump.longOpcode]

private theorem putShort_ends {jump : Jump} {b c : CodeBuffer} (happ : Appends #[] b c)
    (room : c.size + instructionGap ≤ c.capacity) (d : Int) :
    Ends (putInstruction (Instr.jumpShort jump (BitVec.ofInt 8 d)).encode) c
      (fun _ t => Appends (jump.shortOpcode ++ [BitVec.ofInt 8 d]).toArray b t)
      (fun e t => Appends #[] b t ∧ e.isMemory = true) := by
  have hlen : (Instr.jumpShort jump (BitVec.ofInt 8 d)).encode.length ≤ instructionGap := by
    simp only [Instr.encode, List.length_append, length_shortOpcode, instructionGap,
      List.length_singleton]
    omega
  apply (putInstruction_ends hlen room).mono
  · intro _ t ht
    simpa [Instr.encode] using happ.trans ht
  · exact fun _ _ h => h.elim

private theorem putLong_ends {jump : Jump} {b c : CodeBuffer} (happ : Appends #[] b c)
    (room : c.size + instructionGap ≤ c.capacity) (d : Int) :
    Ends (putInstruction (Instr.jumpLong jump (BitVec.ofInt 32 d)).encode) c
      (fun _ t => Appends (jump.longOpcode ++ littleEndian 4 (BitVec.ofInt 32 d)).toArray b t)
      (fun e t => Appends #[] b t ∧ e.isMemory = true) := by
  have hlen : (Instr.jumpLong jump (BitVec.ofInt 32 d)).encode.length ≤ instructionGap := by
    have := length_longOpcode_le jump
    simp only [Instr.encode, List.length_append, instructionGap, littleEndian_length]
    omega
  apply (putInstruction_ends hlen room).mono
  · intro _ t ht
    simpa [Instr.encode] using happ.trans ht
  · exact fun _ _ h => h.elim

private theorem chain_ends (shape : Shape) {s : Linking} {c : CodeBuffer} {heads : Heads}
    {emit : Int → Emit Unit} {notice : Notice}
    (hown : s.label.owner = none ∨ s.label.owner = some s.buffer.id)
    (hp : s.label.place = .unbound heads) (happ : Appends #[] s.buffer c)
    (hemit : ∀ d, Ends (emit d) c
      (fun _ t => Appends (shape.opcode ++ shape.link d).toArray s.buffer t)
      (fun e t => Appends #[] s.buffer t ∧ e.isMemory = true)) :
    Ends (do
        let link ← asserted (linkBack (s.buffer.size + shape.opcode.length)
          ((← get).label.head shape.chain))
        if shape.linkField.Fits link then
          onBuffer (emit link)
          push shape.chain (s.buffer.size + shape.opcode.length)
          notify notice
        else
          fail (.branchOutOfRange link shape.linkField.max s.buffer.size))
      ⟨c, s.label.ownedBy s.buffer.id⟩ (fun _ t => Placed shape s t)
      (fun e t => Refused s t ∧ Rejected shape s e) := by
  refine linkBack_ends shape hown hp happ fun hlt => ?_
  rw [ends_ite]
  refine ⟨fun hfits => ?_, fun hfar => ⟨refused_of_adoptable hown happ, .outOfLink hp hfar⟩⟩
  exact link_ends shape hown hp hlt hfits (hemit _) _

private theorem emitJump_ends (jump : Jump) (distance : Distance) (s : Linking) :
    Ends (emitJump jump distance) s
      (fun _ t => Placed
        ((Branch.jump jump distance).shape s.label.position? s.buffer.size) s t)
      (fun e t => Refused s t ∧
        Rejected ((Branch.jump jump distance).shape s.label.position? s.buffer.size) s e) := by
  simp only [emitJump, ends_bind, ends_size]
  apply (adopt_ends s).mono
  · rintro - _ ⟨rfl, hown⟩
    rw [ends_onBuffer]
    apply (makeRoom_ends s.buffer).mono
    · rintro - c ⟨happ, room⟩
      have hposition : (s.label.ownedBy s.buffer.id).position? = s.label.position? := rfl
      simp only [ends_get, hposition]
      cases hpos : s.label.position? with
      | some target =>
        have hp := Label.position?_eq_some.mp hpos
        simp only [ends_ite]
        refine ⟨fun hshort => ?_, fun hshort => ⟨fun hlong => ?_, fun hlong => ?_⟩⟩
        · simp only [Branch.shape, if_pos hshort]
          refine reach_ends (.short jump.shortOpcode) hown hp hshort ?_
          exact putShort_ends happ room _
        · simp only [Branch.shape, if_neg hshort]
          refine reach_ends (.long jump.longOpcode) hown hp hlong ?_
          exact putLong_ends happ room _
        · simp only [Branch.shape, if_neg hshort]
          exact ⟨refused_of_adoptable hown happ, .outOfReach hp hlong⟩
      | none =>
        obtain ⟨heads, hp⟩ := Label.place_of_position?_eq_none hpos
        cases distance with
        | near => exact chain_ends (.short jump.shortOpcode) hown hp happ (putShort_ends happ room)
        | far => exact chain_ends (.long jump.longOpcode) hown hp happ (putLong_ends happ room)
    · rintro _ c ⟨rfl, hmemory⟩
      exact ⟨refused_of_adoptable hown (.refl _), .memory hmemory⟩
  · rintro - t ⟨rfl, rfl, id, howner, hne⟩
    exact ⟨refused_refl _, .foreign howner hne⟩

private theorem emitCall_ends (s : Linking) :
    Ends emitCall s
      (fun _ t => Placed (Branch.call.shape s.label.position? s.buffer.size) s t)
      (fun e t => Refused s t ∧
        Rejected (Branch.call.shape s.label.position? s.buffer.size) s e) := by
  have hemit : ∀ d, Ends (emitInstruction (Instr.call (BitVec.ofInt 32 d)).encode) s.buffer
      (fun _ t => Appends ([0xE8#8] ++ littleEndian 4 (BitVec.ofInt 32 d)).toArray s.buffer t)
      (fun e t => Appends #[] s.buffer t ∧ e.isMemory = true) := by
    intro d
    have hlen : (Instr.call (BitVec.ofInt 32 d)).encode.length ≤ instructionGap := by
      simp [Instr.encode, instructionGap]
    apply (emitInstruction_ends hlen s.buffer).mono
    · exact fun _ _ h => h
    · rintro _ _ ⟨rfl, hmemory⟩
      exact ⟨.refl _, hmemory⟩
  simp only [emitCall, ends_bind, ends_size]
  apply (adopt_ends s).mono
  · rintro - _ ⟨rfl, hown⟩
    have hposition : (s.label.ownedBy s.buffer.id).position? = s.label.position? := rfl
    have hbound : (s.label.ownedBy s.buffer.id).isBound = s.label.position?.isSome := rfl
    simp only [ends_get, hposition, hbound]
    cases hpos : s.label.position? with
    | some target =>
      have hp := Label.position?_eq_some.mp hpos
      simp only [Option.isSome_some, Bool.not_true, Bool.false_eq_true, if_false, ends_bind,
        ends_pure, ends_ite]
      refine ⟨fun hfits => ?_, fun hfar => ?_⟩
      · exact reach_ends (.long [0xE8#8]) hown hp hfits (hemit _)
      · exact ⟨refused_of_adoptable hown (.refl _), .outOfReach hp hfar⟩
    | none =>
      obtain ⟨heads, hp⟩ := Label.place_of_position?_eq_none hpos
      simp only [Option.isSome_none, Bool.not_false, if_true]
      refine linkBack_ends (.long [0xE8#8]) hown hp (.refl _) fun hlt => ?_
      rw [ends_ite]
      refine ⟨fun hfits => ?_, fun hfar => ?_⟩
      · exact link_ends (.long [0xE8#8]) hown hp hlt hfits (hemit _) _
      · exact ⟨refused_of_adoptable hown (.refl _), .outOfLink hp hfar⟩
  · rintro - t ⟨rfl, rfl, id, howner, hne⟩
    exact ⟨refused_refl _, .foreign howner hne⟩

/-- A branch is refused or appended in its shape. -/
theorem branch_ends (branch : Branch) (s : Linking) :
    Ends branch.run s
      (fun _ t => Placed (branch.shape s.label.position? s.buffer.size) s t)
      (fun e t => Refused s t ∧
        Rejected (branch.shape s.label.position? s.buffer.size) s e) := by
  cases branch with
  | jump jump distance => exact emitJump_ends jump distance s
  | call => exact emitCall_ends s

/-! ## Binding -/

def Chained : Shape → Prop
  | .short _ | .long _ => True
  | .single _ | .pair _ => False

theorem chained_shape (branch : Branch) (position : Option Nat) (start : Nat) :
    Chained (branch.shape position start) := by
  cases branch with
  | call => trivial
  | jump j distance =>
    cases position with
    | some target =>
      simp only [Branch.shape]
      split <;> trivial
    | none => cases distance <;> trivial

section

variable {b : CodeBuffer} {position : Nat} {r : Issue} {older : Ledger} {opcode : List Byte}

theorem resolveNear_yields (granted : b.Granted) (hshape : r.shape = .short opcode)
    (hstack : older.Stacked r.start) (hpending : r.Pending older b.bytes) :
    r.Yields position (BitVec.ofInt 8 (r.shape.distance r.site position),
      (Ledger.sites older r.name r.shape.chain).head?) (resolveNear b position r.site) := by
  have hfits := hpending.1
  have hholds := hpending.holds_link
  have hlink := r.linkedSite_backLink hstack
  generalize r.backLink older = d at hfits hholds hlink
  rw [hshape] at hfits
  have hload : b.loadByte r.site = .ok (BitVec.ofInt 8 d) := by
    rw [hshape] at hholds
    exact CodeBuffer.loadByte_eq_of_holds granted hholds
  simp only [resolveNear, hload, ofAsserted_ok, ok_bind, DispField.toInt_ofInt_rel8 hfits, hlink]
  simp only [Issue.Yields, Issue.unreached, hshape, Shape.Reaches, Shape.distance, Shape.linkField]
  by_cases hreach : DispField.rel8.Fits ((position : Int) - (r.site + 1))
  · exact .inl ⟨hreach, if_pos hreach⟩
  · exact .inr ⟨hreach, if_neg hreach⟩

theorem resolveWide_yields (granted : b.Granted) (hshape : r.shape = .long opcode)
    (hstack : older.Stacked r.start) (hpending : r.Pending older b.bytes) :
    r.Yields position (BitVec.ofInt 32 (r.shape.distance r.site position),
      (Ledger.sites older r.name r.shape.chain).head?) (resolveWide b position r.site) := by
  have hfits := hpending.1
  have hholds := hpending.holds_link
  have hlink := r.linkedSite_backLink hstack
  generalize r.backLink older = d at hfits hholds hlink
  rw [hshape] at hfits
  have hload : b.loadWord r.site = .ok (BitVec.ofInt 32 d) := by
    rw [hshape] at hholds
    exact CodeBuffer.loadWord_eq_of_holds granted hholds
  simp only [resolveWide, hload, ofAsserted_ok, ok_bind, DispField.toInt_ofInt_rel32 hfits, hlink]
  simp only [Issue.Yields, Issue.unreached, hshape, Shape.Reaches, Shape.distance, Shape.linkField]
  by_cases hreach : DispField.rel32.Fits ((position : Int) - (r.site + 4))
  · exact .inl ⟨hreach, if_pos hreach⟩
  · exact .inr ⟨hreach, if_neg hreach⟩

end

theorem eq_short_of_near {shape : Shape} (h : Chained shape) (hc : shape.chain = .near) :
    ∃ opcode, shape = .short opcode := by
  cases shape with
  | short opcode => exact ⟨opcode, rfl⟩
  | long _ => cases hc
  | single _ => exact h.elim
  | pair _ => exact h.elim

theorem eq_long_of_wide {shape : Shape} (h : Chained shape) (hc : shape.chain = .wide) :
    ∃ opcode, shape = .long opcode := by
  cases shape with
  | short _ => cases hc
  | long opcode => exact ⟨opcode, rfl⟩
  | single _ => exact h.elim
  | pair _ => exact h.elim

section

variable {s : Linking} {heads : Heads} {ledger : Ledger} {name : String}

def chainPatches (ledger : Ledger) (name : String) (position : Nat) (chain : Chain) :
    List (Nat × List Byte) :=
  (ledger.filter (Ledger.OnChain name chain)).map fun r => (r.site, r.shape.patch r.site position)

theorem chain_eq (hchained : ∀ r ∈ ledger, r.name = name → Chained r.shape) {r : Issue}
    (hr : r ∈ ledger) (hname : r.name = name) :
    Ledger.OnChain name .wide r ∨ Ledger.OnChain name .near r := by
  have hshape := hchained r hr hname
  cases h : r.shape with
  | short opcode => exact .inr ⟨hname, by rw [h]; rfl⟩
  | long opcode => exact .inl ⟨hname, by rw [h]; rfl⟩
  | single w => exact absurd hshape (by rw [h]; exact id)
  | pair w => exact absurd hshape (by rw [h]; exact id)

private theorem patchList_chainPatches (hchained : ∀ r ∈ ledger, r.name = name → Chained r.shape)
    (position : Nat) :
    PatchList ledger name position
      (chainPatches ledger name position .wide ++ chainPatches ledger name position .near) := by
  refine ⟨fun e he => ?_, fun r hr hname => ?_⟩
  · simp only [chainPatches, List.mem_append, List.mem_map, List.mem_filter,
      decide_eq_true_eq] at he
    rcases he with ⟨r, ⟨hr, hon⟩, rfl⟩ | ⟨r, ⟨hr, hon⟩, rfl⟩ <;> exact ⟨r, hr, hon.1, rfl⟩
  · simp only [chainPatches, List.mem_append, List.mem_map, List.mem_filter, decide_eq_true_eq]
    exact (chain_eq hchained hr hname).imp (fun hon => ⟨r, ⟨hr, hon⟩, rfl⟩)
      (fun hon => ⟨r, ⟨hr, hon⟩, rfl⟩)

/-- The pending sites of a label are those of its branches in the ledger, chain by chain. -/
theorem pendingPatches_eq (granted : s.buffer.Granted) (hstack : ledger.Stacked s.buffer.size)
    (hthread : Threaded Chained ledger name s heads) (position : Nat) :
    (∀ r ∈ ledger, r.name = name → r.shape.Reaches r.site position) ∧
        pendingPatches s.buffer (s.label.ownedBy s.buffer.id) position =
          .ok (chainPatches ledger name position .wide ++
            chainPatches ledger name position .near) ∨
      ∃ r ∈ ledger, r.name = name ∧ ¬r.shape.Reaches r.site position ∧
        pendingPatches s.buffer (s.label.ownedBy s.buffer.id) position =
          .error (r.unreached position) := by
  have hchained := hthread.chained
  have hnear := resolveChain_sites (resolveNear s.buffer position) position
    (fun r => BitVec.ofInt 8 (r.shape.distance r.site position)) hstack
    (hthread.head s.buffer.id .near) fun r older hs hon => by
      obtain ⟨rfl, hc⟩ := hon
      obtain ⟨opcode, hshape⟩ := eq_short_of_near (hchained r (hs.mem (by simp)) rfl) hc
      rw [← hc]
      exact resolveNear_yields granted hshape (hstack.suffix hs) (hthread.pending r older hs rfl)
  have hwide := resolveChain_sites (resolveWide s.buffer position) position
    (fun r => BitVec.ofInt 32 (r.shape.distance r.site position)) hstack
    (hthread.head s.buffer.id .wide) fun r older hs hon => by
      obtain ⟨rfl, hc⟩ := hon
      obtain ⟨opcode, hshape⟩ := eq_long_of_wide (hchained r (hs.mem (by simp)) rfl) hc
      rw [← hc]
      exact resolveWide_yields granted hshape (hstack.suffix hs) (hthread.pending r older hs rfl)
  simp only [pendingPatches]
  rcases hnear with ⟨hnearGood, hnear⟩ | ⟨r, hr, hon, hbad, hnear⟩
  · rcases hwide with ⟨hwideGood, hwide⟩ | ⟨r, hr, hon, hbad, hwide⟩
    · left
      refine ⟨fun r hr hname => ?_, ?_⟩
      · rcases chain_eq hchained hr hname with hon | hon
        · exact hwideGood r hr hon
        · exact hnearGood r hr hon
      · have hlong : chainPatches ledger name position .wide =
            (ledger.filter (Ledger.OnChain name .wide)).map fun r =>
              (r.site, littleEndian 4 (BitVec.ofInt 32 (r.shape.distance r.site position))) := by
          apply List.map_congr_left
          intro r hr
          obtain ⟨hmem, hon⟩ := List.mem_filter.mp hr
          obtain ⟨hname, hc⟩ := of_decide_eq_true hon
          obtain ⟨opcode, hshape⟩ := eq_long_of_wide (hchained r hmem hname) hc
          simp only [hshape, Shape.patch]
        have hshort : chainPatches ledger name position .near =
            (ledger.filter (Ledger.OnChain name .near)).map fun r =>
              (r.site, [BitVec.ofInt 8 (r.shape.distance r.site position)]) := by
          apply List.map_congr_left
          intro r hr
          obtain ⟨hmem, hon⟩ := List.mem_filter.mp hr
          obtain ⟨hname, hc⟩ := of_decide_eq_true hon
          obtain ⟨opcode, hshape⟩ := eq_short_of_near (hchained r hmem hname) hc
          simp only [hshape, Shape.patch]
        simp only [hnear, hwide, ok_bind, hlong, hshort, List.map_map]
        rfl
    · right
      exact ⟨r, hr, hon.1, hbad, by simp only [hnear, hwide, ok_bind]; rfl⟩
  · right
    exact ⟨r, hr, hon.1, hbad, by simp only [hnear]; rfl⟩

private theorem pendingPatches_gathers (granted : s.buffer.Granted)
    (hstack : ledger.Stacked s.buffer.size) (hthread : Threaded Chained ledger name s heads)
    (position : Nat) :
    Gathers ledger name position id
      (pendingPatches s.buffer (s.label.ownedBy s.buffer.id) position) := by
  rcases pendingPatches_eq granted hstack hthread position with ⟨hgood, hpatches⟩ | hrefused
  · exact .inl ⟨_, hpatches, patchList_chainPatches hthread.chained position, hgood⟩
  · exact .inr hrefused

private theorem applyPatches_ends {b : CodeBuffer} (granted : b.Granted)
    {patches : List (Nat × List Byte)} (inside : ∀ e ∈ patches, e.1 + e.2.length ≤ b.size) :
    Ends (applyPatches patches) b (fun _ c => Patches patches b c) (fun _ _ => False) := by
  induction patches generalizing b with
  | nil => exact .refl b
  | cons first rest ih =>
    simp only [applyPatches, ends_bind]
    apply (store_ends granted (inside first (by simp))).mono
    · intro _ c hc
      have hin : ∀ e ∈ rest, e.1 + e.2.length ≤ c.size := by
        intro e he
        rw [hc.size]
        exact inside e (List.mem_cons_of_mem _ he)
      apply (ih (hc.granted granted) hin).mono
      · exact fun _ d hd => hc.trans hd
      · exact fun _ _ h => h
    · exact fun _ _ h => h

end

theorem bind_eq_binding : bind = binding pendingPatches applyPatches := by
  unfold bind binding
  refine bind_congr fun _ => bind_congr fun _ => bind_congr fun position => bind_congr fun s => ?_
  cases pendingPatches s.buffer s.label position <;> rfl

/-- A label is refused or bound with all of its branches. -/
theorem bind_ends {s : Linking} {ledger : Ledger} {name : String} (granted : s.buffer.Granted)
    (hstack : ledger.Stacked s.buffer.size)
    (hthread : s.label.owner = none ∨ s.label.owner = some s.buffer.id →
      ∀ heads, s.label.place = .unbound heads → Threaded Chained ledger name s heads) :
    Ends bind s (fun _ t => Bound ledger name s t)
      (fun e t => Refused s t ∧ Unbindable ledger name s e) := by
  rw [bind_eq_binding]
  exact binding_ends id hstack hthread
    (fun _ hthreaded => pendingPatches_gathers granted hstack hthreaded s.buffer.size)
    (fun _ inside => applyPatches_ends granted inside)

end MachineCode.X86
