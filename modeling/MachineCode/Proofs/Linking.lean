import MachineCode.Proofs.Ledger

/-!
# What branches and bindings do to a buffer and a label

Work on a label ends in one of three ways: it is refused and leaves the code as it was, it appends a
branch that holds a displacement or a link, or it binds the label and patches all of its branches.
-/

namespace MachineCode

def CodeBuffer.counting (n : Nat) (b : CodeBuffer) : CodeBuffer :=
  { b with unresolved := n }

@[simp] theorem CodeBuffer.bytes_counting (n : Nat) (b : CodeBuffer) :
    (b.counting n).bytes = b.bytes :=
  rfl

@[simp] theorem CodeBuffer.size_counting (n : Nat) (b : CodeBuffer) :
    (b.counting n).size = b.size :=
  rfl

def Label.ownedBy (id : Nat) (l : Label) : Label :=
  { l with owner := some id }

/-- Nothing was emitted and nothing bound; at most the label has an owner now. -/
structure Refused (s t : Linking) : Prop where
  buffer : CodeBuffer.Appends #[] s.buffer t.buffer
  label : t.label = s.label ∨ s.label.owner = none ∧ t.label = s.label.ownedBy s.buffer.id

/-- A branch was appended. It holds the displacement to the label's position, or the link to the
branch that was the head of its chain. -/
structure Placed (shape : Shape) (s t : Linking) : Prop where
  adoptable : s.label.owner = none ∨ s.label.owner = some s.buffer.id
  owner : t.label.owner = some s.buffer.id
  bound : ∀ target, s.label.place = .bound target →
    t.label.place = .bound target ∧
    shape.Reaches (s.buffer.size + shape.opcode.length) target ∧
    CodeBuffer.Appends
      (shape.opcode ++ shape.patch (s.buffer.size + shape.opcode.length) target).toArray
      s.buffer t.buffer
  unbound : ∀ heads, s.label.place = .unbound heads →
    t.label.place = .unbound (heads.set shape.chain (s.buffer.size + shape.opcode.length)) ∧
    (∀ head, heads.get shape.chain = some head → head < s.buffer.size + shape.opcode.length) ∧
    shape.linkField.Fits
      (backLink (s.buffer.size + shape.opcode.length) (heads.get shape.chain)) ∧
    CodeBuffer.Appends
      (shape.opcode ++ shape.link
        (backLink (s.buffer.size + shape.opcode.length) (heads.get shape.chain))).toArray
      s.buffer (t.buffer.counting s.buffer.unresolved) ∧
    t.buffer.unresolved = s.buffer.unresolved + if s.label.isUnused then 1 else 0

inductive Rejected (shape : Shape) (s : Linking) : Failure → Prop
  | memory {failure : Failure} (isMemory : failure.isMemory = true) : Rejected shape s failure
  | foreign {id : Nat} (owner : s.label.owner = some id) (other : id ≠ s.buffer.id) :
    Rejected shape s (.error .foreignLabel)
  /-- No field of the branch holds the way to the label. -/
  | outOfReach {target : Nat} (place : s.label.place = .bound target)
    (far : ¬shape.Reaches (s.buffer.size + shape.opcode.length) target) :
    Rejected shape s (.error (.branchOutOfRange
      (shape.distance (s.buffer.size + shape.opcode.length) target) shape.linkField.max
      s.buffer.size))
  /-- The field does not hold the link to the head of the chain. -/
  | outOfLink {heads : Heads} (place : s.label.place = .unbound heads)
    (far : ¬shape.linkField.Fits
      (backLink (s.buffer.size + shape.opcode.length) (heads.get shape.chain))) :
    Rejected shape s (.error (.branchOutOfRange
      (backLink (s.buffer.size + shape.opcode.length) (heads.get shape.chain))
      shape.linkField.max s.buffer.size))
  /-- The head of the chain does not lie before the branch. -/
  | disorder {heads : Heads} {head : Nat}
    (own : s.label.owner = none ∨ s.label.owner = some s.buffer.id)
    (place : s.label.place = .unbound heads)
    (isHead : heads.get shape.chain = some head)
    (beyond : s.buffer.size + shape.opcode.length ≤ head) :
    Rejected shape s (.violation .siteBeforeHead)

/-- The runs of bytes that binding at `target` gives the branches to the named label. -/
structure PatchList (ledger : Ledger) (name : String) (target : Nat)
    (edits : List (Nat × List Byte)) : Prop where
  sound : ∀ e ∈ edits, ∃ r ∈ ledger, r.name = name ∧ e = (r.site, r.shape.patch r.site target)
  complete : ∀ r ∈ ledger, r.name = name → (r.site, r.shape.patch r.site target) ∈ edits

/-- The label was bound to the end of the code, which all of its branches reach, and they were
patched. -/
structure Bound (ledger : Ledger) (name : String) (s t : Linking) : Prop where
  adoptable : s.label.owner = none ∨ s.label.owner = some s.buffer.id
  unbound : ∃ heads, s.label.place = .unbound heads
  label : t.label = ⟨.bound s.buffer.size, some s.buffer.id⟩
  reaches : ∀ r ∈ ledger, r.name = name → r.shape.Reaches r.site s.buffer.size
  patched : ∃ edits, PatchList ledger name s.buffer.size edits ∧
    CodeBuffer.Patches edits s.buffer (t.buffer.counting s.buffer.unresolved)
  unresolved : t.buffer.unresolved = s.buffer.unresolved - if s.label.isUnused then 0 else 1

/-- The refusal to bind at `target` a label with a branch that does not reach it. -/
def Issue.unreached (r : Issue) (target : Nat) : Failure :=
  .error (.branchOutOfRange (r.shape.distance r.site target) r.shape.linkField.max r.site)

/-- What comes of a pending branch to a label bound at `target`: an answer if the branch reaches it,
and otherwise the refusal. -/
def Issue.Yields {α : Type} (r : Issue) (target : Nat) (answer : α) (result : Except Failure α) :
    Prop :=
  r.shape.Reaches r.site target ∧ result = .ok answer ∨
    ¬r.shape.Reaches r.site target ∧ result = .error (r.unreached target)

inductive Unbindable (ledger : Ledger) (name : String) (s : Linking) : Failure → Prop
  | bound {position : Nat} (place : s.label.place = .bound position) :
    Unbindable ledger name s (.error (.labelAlreadyBound position))
  | foreign {id : Nat} (owner : s.label.owner = some id) (other : id ≠ s.buffer.id) :
    Unbindable ledger name s (.error .foreignLabel)
  | outOfReach {r : Issue} (mem : r ∈ ledger) (toLabel : r.name = name)
    (far : ¬r.shape.Reaches r.site s.buffer.size) :
    Unbindable ledger name s (r.unreached s.buffer.size)

namespace Label

theorem position?_eq_some {l : Label} {target : Nat} :
    l.position? = some target ↔ l.place = .bound target := by
  simp only [position?]
  cases l.place <;> simp

theorem place_of_position?_eq_none {l : Label} (h : l.position? = none) :
    ∃ heads, l.place = .unbound heads := by
  simp only [position?] at h
  cases hp : l.place with
  | bound p => simp [hp] at h
  | unbound heads => exact ⟨heads, rfl⟩

theorem head_of_unbound {l : Label} {heads : Heads} (h : l.place = .unbound heads) (chain : Chain) :
    l.head chain = heads.get chain := by
  simp only [head, h]

private theorem head_ownedBy (id : Nat) (l : Label) (chain : Chain) :
    (l.ownedBy id).head chain = l.head chain :=
  rfl

end Label

namespace Link

open CodeBuffer

theorem adopt_ends (s : Linking) :
    Ends adopt s
      (fun _ t => t = ⟨s.buffer, s.label.ownedBy s.buffer.id⟩ ∧
        (s.label.owner = none ∨ s.label.owner = some s.buffer.id))
      (fun e t => t = s ∧ e = .error .foreignLabel ∧
        ∃ id, s.label.owner = some id ∧ id ≠ s.buffer.id) := by
  obtain ⟨b, place, owner⟩ := s
  cases owner with
  | none => exact ⟨rfl, .inl rfl⟩
  | some id =>
    by_cases h : id = b.id
    · subst h
      simp [Ends, adopt, Label.ownedBy]
    · simp [Ends, adopt, h]

private theorem push_ends {b : CodeBuffer} {l : Label} {heads : Heads}
    (hp : l.place = .unbound heads) (chain : Chain) (site : Nat) :
    Ends (push chain site) ⟨b, l⟩
      (fun _ t => t = ⟨b.counting (b.unresolved + if l.isUnused then 1 else 0),
        { l with place := .unbound (heads.set chain site) }⟩)
      (fun _ _ => False) := by
  simp only [push, ends_bind, ends_get, hp]
  cases hu : l.isUnused <;> rfl

/-- The pending count goes down only if the label counted. -/
theorem settle_ends {b : CodeBuffer} {l : Label} (position : Nat)
    (hcount : l.isUnused = false → 0 < b.unresolved) :
    Ends (settle position) ⟨b, l⟩
      (fun _ t => t.label = { l with place := .bound position } ∧
        t.buffer.unresolved = b.unresolved - (if l.isUnused then 0 else 1) ∧
        Appends #[] b (t.buffer.counting b.unresolved))
      (fun _ _ => False) := by
  cases hu : l.isUnused with
  | true =>
    simp only [settle, ends_bind, ends_get, hu, Bool.not_true, Bool.false_eq_true, if_false,
      ends_notify, ends_modify]
    exact ⟨trivial, rfl, (Appends.refl b).notify _⟩
  | false =>
    have hne : b.unresolved ≠ 0 := Nat.ne_of_gt (hcount hu)
    simp only [settle, ends_bind, ends_get, hu, Bool.not_false, if_true, ends_onBuffer,
      removePending, hne, if_false, ends_notify, ends_modify]
    exact ⟨trivial, rfl, (Appends.refl b).notify _⟩

/-! ## Branches -/

theorem refused_refl (s : Linking) : Refused s s :=
  ⟨.refl s.buffer, .inl rfl⟩

theorem refused_of_adoptable {s : Linking} {c : CodeBuffer}
    (hown : s.label.owner = none ∨ s.label.owner = some s.buffer.id)
    (hc : Appends #[] s.buffer c) : Refused s ⟨c, s.label.ownedBy s.buffer.id⟩ := by
  refine ⟨hc, ?_⟩
  rcases hown with h | h
  · exact .inr ⟨h, rfl⟩
  · left
    simp only [Label.ownedBy, ← h]

theorem placed_notify {shape : Shape} {s t : Linking} (h : Placed shape s t) (n : Notice) :
    Placed shape s ⟨t.buffer.notify n, t.label⟩ := by
  refine ⟨h.adoptable, h.owner, ?_, ?_⟩
  · intro target hp
    obtain ⟨hplace, hreach, happ⟩ := h.bound target hp
    exact ⟨hplace, hreach, happ.notify n⟩
  · intro heads hp
    obtain ⟨hplace, hlt, hfits, happ, hcount⟩ := h.unbound heads hp
    exact ⟨hplace, hlt, hfits, happ.notify n, hcount⟩

theorem placed_size {shape : Shape} {s t : Linking} (h : Placed shape s t) :
    t.buffer.size = s.buffer.size + shape.length := by
  cases hp : s.label.place with
  | bound target =>
    have hsize := (h.bound target hp).2.2.size
    simpa only [List.size_toArray, List.length_append, Shape.length_patch, Shape.length] using hsize
  | unbound heads =>
    have hsize := (h.unbound heads hp).2.2.2.1.size
    simpa only [List.size_toArray, List.length_append, Shape.length_link, Shape.length,
      size_counting] using hsize

/-- Emission of a branch to a bound label. -/
theorem reach_ends (shape : Shape) {s : Linking} {b : CodeBuffer} {target : Nat} {work : Emit Unit}
    (hown : s.label.owner = none ∨ s.label.owner = some s.buffer.id)
    (hp : s.label.place = .bound target)
    (hreach : shape.Reaches (s.buffer.size + shape.opcode.length) target)
    (hwork : Ends work b
      (fun _ c => Appends
        (shape.opcode ++ shape.patch (s.buffer.size + shape.opcode.length) target).toArray
        s.buffer c)
      (fun e c => Appends #[] s.buffer c ∧ e.isMemory = true)) :
    Ends (onBuffer work) ⟨b, s.label.ownedBy s.buffer.id⟩ (fun _ t => Placed shape s t)
      (fun e t => Refused s t ∧ Rejected shape s e) := by
  rw [ends_onBuffer]
  apply hwork.mono
  · intro _ c hc
    refine ⟨hown, rfl, ?_, ?_⟩
    · intro target' hp'
      obtain rfl : target = target' := by simpa [hp] using hp'
      exact ⟨hp, hreach, hc⟩
    · intro heads hp'
      simp [hp] at hp'
  · exact fun _ c hc => ⟨refused_of_adoptable hown hc.1, .memory hc.2⟩

/-- Emission of a branch to an unbound label, which joins a chain. -/
theorem link_ends (shape : Shape) {s : Linking} {b : CodeBuffer} {heads : Heads} {work : Emit Unit}
    (hown : s.label.owner = none ∨ s.label.owner = some s.buffer.id)
    (hp : s.label.place = .unbound heads)
    (hlt : ∀ head, heads.get shape.chain = some head →
      head < s.buffer.size + shape.opcode.length)
    (hfits : shape.linkField.Fits
      (backLink (s.buffer.size + shape.opcode.length) (heads.get shape.chain)))
    (hwork : Ends work b
      (fun _ c => Appends (shape.opcode ++ shape.link
        (backLink (s.buffer.size + shape.opcode.length) (heads.get shape.chain))).toArray
        s.buffer c)
      (fun e c => Appends #[] s.buffer c ∧ e.isMemory = true)) (notice : Notice) :
    Ends (do
        onBuffer work
        push shape.chain (s.buffer.size + shape.opcode.length)
        notify notice)
      ⟨b, s.label.ownedBy s.buffer.id⟩ (fun _ t => Placed shape s t)
      (fun e t => Refused s t ∧ Rejected shape s e) := by
  simp only [ends_bind, ends_onBuffer]
  apply hwork.mono
  · intro _ c hc
    have hp' : (s.label.ownedBy s.buffer.id).place = .unbound heads := hp
    apply (push_ends hp' _ _).mono
    · rintro - t rfl
      rw [ends_notify]
      refine ⟨hown, rfl, ?_, ?_⟩
      · intro target htarget
        simp [hp] at htarget
      · intro heads' hheads
        obtain rfl : heads = heads' := by simpa [hp] using hheads
        refine ⟨rfl, hlt, hfits, ?_, ?_⟩
        · exact ⟨⟨hc.id, hc.trap, rfl, hc.capacity, hc.granted⟩, hc.bytes⟩
        · change c.unresolved + _ = _
          rw [hc.unresolved]
          rfl
    · exact fun _ _ h => h.elim
  · exact fun _ c hc => ⟨refused_of_adoptable hown hc.1, .memory hc.2⟩

/-- The link of a branch is taken from the head of its chain, which is left behind. -/
theorem linkBack_ends (shape : Shape) {s : Linking} {b : CodeBuffer} {heads : Heads}
    {after : Int → Link Unit} {ok : Unit → Linking → Prop}
    (hown : s.label.owner = none ∨ s.label.owner = some s.buffer.id)
    (hp : s.label.place = .unbound heads) (happ : Appends #[] s.buffer b)
    (hafter : (∀ head, heads.get shape.chain = some head →
        head < s.buffer.size + shape.opcode.length) →
      Ends (after (backLink (s.buffer.size + shape.opcode.length) (heads.get shape.chain)))
        ⟨b, s.label.ownedBy s.buffer.id⟩ ok (fun e t => Refused s t ∧ Rejected shape s e)) :
    Ends (do
        let link ← asserted (linkBack (s.buffer.size + shape.opcode.length)
          ((← get).label.head shape.chain))
        after link)
      ⟨b, s.label.ownedBy s.buffer.id⟩ ok (fun e t => Refused s t ∧ Rejected shape s e) := by
  rw [ends_bind, ends_get, ends_bind, ends_asserted, Label.head_ownedBy, Label.head_of_unbound hp]
  refine ⟨fun link hlink => ?_, fun v hv => ?_⟩
  · obtain ⟨rfl, hlt⟩ := linkBack_eq_ok hlink
    exact hafter hlt
  · obtain ⟨head, hhead, hle, rfl⟩ := linkBack_eq_error hv
    exact ⟨refused_of_adoptable hown happ, .disorder hown hp hhead hle⟩

end Link

/-! ## Walking a chain -/

/-- A chain is walked from branch to branch of the ledger, if each answer of `resolve` leads on to
the site before. The walk ends early only at a branch that is not good. -/
private theorem followChain_sites {α : Type} {resolve : Nat → Except Failure (α × Option Nat)}
    {name : String} {chain : Chain} {ledger : Ledger} {top : Nat} (hstack : ledger.Stacked top)
    (answer : Issue → α) (Good : Issue → Prop) (refusal : Issue → Failure)
    (h : ∀ r older, r :: older <:+ ledger → Ledger.OnChain name chain r →
      Good r ∧ resolve r.site = .ok (answer r, (Ledger.sites older name chain).head?) ∨
        ¬Good r ∧ resolve r.site = .error (refusal r))
    {steps : Nat} (hsteps : ∀ site, (Ledger.sites ledger name chain).head? = some site →
      site < steps) :
    (∀ r ∈ ledger, Ledger.OnChain name chain r → Good r) ∧
        followChain resolve steps (Ledger.sites ledger name chain).head? =
          .ok ((ledger.filter (Ledger.OnChain name chain)).map fun r => (r.site, answer r)) ∨
      ∃ r ∈ ledger, Ledger.OnChain name chain r ∧ ¬Good r ∧
        followChain resolve steps (Ledger.sites ledger name chain).head? =
          .error (refusal r) := by
  induction ledger generalizing steps top with
  | nil =>
    left
    refine ⟨fun r hr => by simp at hr, ?_⟩
    simp only [Ledger.sites, List.filter_nil, List.map_nil, List.head?_nil, followChain]
  | cons r older ih =>
    have hrest := fun steps => @ih r.start hstack.2
      (fun r' older' hs => h r' older' (hs.trans (List.suffix_cons r older))) steps
    by_cases hon : Ledger.OnChain name chain r
    · rw [Ledger.sites_cons_of_onChain hon, List.head?_cons] at hsteps ⊢
      have hsite := hsteps r.site rfl
      cases steps with
      | zero => omega
      | succ steps =>
        rcases h r older (List.suffix_refl _) hon with ⟨hgood, hresolve⟩ | ⟨hbad, hresolve⟩
        · have hbelow : ∀ site, (Ledger.sites older name chain).head? = some site →
              site < steps := by
            intro site hhead
            have := hstack.2.site_lt (List.mem_of_head? hhead)
            have := r.start_le_site
            omega
          rcases hrest steps hbelow with ⟨hall, hwalk⟩ | ⟨r', hr', hon', hbad, hwalk⟩
          · left
            refine ⟨fun r' hmem hon' => ?_, ?_⟩
            · rcases List.mem_cons.mp hmem with rfl | hmem
              · exact hgood
              · exact hall r' hmem hon'
            · simp only [List.filter_cons, decide_eq_true hon, if_true, List.map_cons, followChain,
                hresolve, ok_bind, hwalk]
              rfl
          · right
            refine ⟨r', List.mem_cons_of_mem _ hr', hon', hbad, ?_⟩
            simp only [followChain, hresolve, ok_bind, hwalk]
            rfl
        · right
          refine ⟨r, List.mem_cons_self .., hon, hbad, ?_⟩
          rw [followChain, hresolve]
          rfl
    · rw [Ledger.sites_cons_of_not_onChain hon] at hsteps ⊢
      rcases hrest steps hsteps with ⟨hall, hwalk⟩ | ⟨r', hr', hon', hbad, hwalk⟩
      · left
        refine ⟨fun r' hmem hon' => ?_, ?_⟩
        · rcases List.mem_cons.mp hmem with rfl | hmem
          · exact absurd hon' hon
          · exact hall r' hmem hon'
        · rw [hwalk]
          simp only [List.filter_cons, decide_eq_false hon, Bool.false_eq_true, if_false]
      · exact .inr ⟨r', List.mem_cons_of_mem _ hr', hon', hbad, hwalk⟩

/-- The patches of the branches to the named label on one chain, or the refusal of one that does not
reach. -/
theorem resolveChain_sites {α : Type} (resolve : Nat → Except Failure (α × Option Nat))
    (target : Nat) (answer : Issue → α) {l : Label} {name : String} {chain : Chain}
    {ledger : Ledger} {top : Nat} (hstack : ledger.Stacked top)
    (hhead : l.head chain = (ledger.sites name chain).head?)
    (h : ∀ r older, r :: older <:+ ledger → Ledger.OnChain name chain r →
      r.Yields target (answer r, (Ledger.sites older name chain).head?) (resolve r.site)) :
    (∀ r ∈ ledger, Ledger.OnChain name chain r → r.shape.Reaches r.site target) ∧
        l.resolveChain chain resolve =
          .ok ((ledger.filter (Ledger.OnChain name chain)).map fun r => (r.site, answer r)) ∨
      ∃ r ∈ ledger, Ledger.OnChain name chain r ∧ ¬r.shape.Reaches r.site target ∧
        l.resolveChain chain resolve = .error (r.unreached target) := by
  have hwalk : ∃ steps, (∀ site, (ledger.sites name chain).head? = some site → site < steps) ∧
      l.resolveChain chain resolve = followChain resolve steps (ledger.sites name chain).head? := by
    rw [← hhead, Label.resolveChain]
    cases l.head chain with
    | none => exact ⟨0, nofun, rfl⟩
    | some site => exact ⟨site + 1, fun _ h => by cases h; omega, rfl⟩
  obtain ⟨steps, hsteps, hwalk⟩ := hwalk
  rw [hwalk]
  exact followChain_sites hstack answer (fun r => r.shape.Reaches r.site target) _ h hsteps

/-! ## Binding -/

theorem PatchList.inside {ledger : Ledger} {name : String} {target : Nat}
    {edits : List (Nat × List Byte)} (h : PatchList ledger name target edits) {top : Nat}
    (hstack : ledger.Stacked top) {e : Nat × List Byte} (he : e ∈ edits) :
    e.1 + e.2.length ≤ top := by
  obtain ⟨r, hr, -, rfl⟩ := h.sound e he
  have := hstack.stop_le hr
  rw [Issue.stop_eq] at this
  simpa using this

theorem PatchList.agree {ledger : Ledger} {name : String} {target : Nat}
    {edits : List (Nat × List Byte)} (h : PatchList ledger name target edits) {top : Nat}
    (hstack : ledger.Stacked top) : Agree edits := by
  intro e he e' he' j hj hj'
  obtain ⟨r, hr, -, rfl⟩ := h.sound e he
  obtain ⟨r', hr', -, rfl⟩ := h.sound e' he'
  simp only [Covers, Shape.length_patch, ← Issue.stop_eq] at hj hj'
  have hs := r.start_le_site
  have hs' := r'.start_le_site
  rcases hstack.apart hr hr' with rfl | h | h
  · rfl
  · omega
  · omega

theorem PatchList.getElem?_kept {ledger : Ledger} {name : String} {target : Nat}
    {edits : List (Nat × List Byte)} (h : PatchList ledger name target edits) {top : Nat}
    (hstack : ledger.Stacked top) {r : Issue} (hr : r ∈ ledger) {j : Nat} (hfrom : r.start ≤ j)
    (hto : j < r.stop) (hkept : r.name ≠ name ∨ j < r.site) (code : Array Byte) :
    (edited code edits)[j]? = code[j]? := by
  apply getElem?_edited_of_not_covers
  intro e he hcovers
  obtain ⟨r', hr', hname, rfl⟩ := h.sound e he
  simp only [Covers, Shape.length_patch, ← Issue.stop_eq] at hcovers
  have hsite := r'.start_le_site
  rcases hstack.apart hr hr' with rfl | hbefore | hafter
  · rcases hkept with hne | hlt
    · exact hne hname
    · omega
  · omega
  · omega

theorem Label.isUnused_eq {l : Label} {heads : Heads} (hp : l.place = .unbound heads) :
    l.isUnused = !l.isLinked := by
  obtain ⟨wide, near, short⟩ := heads
  simp only [isUnused, isLinked, head, hp, Heads.get, Heads.none]
  cases wide <;> cases near <;> cases short <;> rfl

/-- The patches are written and the label is bound. -/
theorem patch_ends {s : Linking} {heads : Heads} {ledger : Ledger} {name : String}
    {edits : List (Nat × List Byte)} {work : Emit Unit} {notice : Notice}
    (hown : s.label.owner = none ∨ s.label.owner = some s.buffer.id)
    (hp : s.label.place = .unbound heads) (hlist : PatchList ledger name s.buffer.size edits)
    (hreaches : ∀ r ∈ ledger, r.name = name → r.shape.Reaches r.site s.buffer.size)
    (hcount : s.label.isLinked = true → 0 < s.buffer.unresolved)
    (hwork : Ends work s.buffer (fun _ c => CodeBuffer.Patches edits s.buffer c)
      (fun _ _ => False)) :
    Ends (do
        Link.onBuffer work
        Link.settle s.buffer.size
        Link.notify notice)
      ⟨s.buffer, s.label.ownedBy s.buffer.id⟩ (fun _ t => Bound ledger name s t)
      (fun _ _ => False) := by
  simp only [ends_bind, ends_onBuffer]
  apply hwork.mono
  · intro _ c hc
    have hused : (s.label.ownedBy s.buffer.id).isUnused = s.label.isUnused := rfl
    have hpos : (s.label.ownedBy s.buffer.id).isUnused = false → 0 < c.unresolved := by
      intro hu
      rw [hused, Label.isUnused_eq hp] at hu
      rw [hc.unresolved]
      exact hcount (by simpa using hu)
    apply (Link.settle_ends s.buffer.size hpos).mono
    · intro _ t ht
      obtain ⟨hlabel, hunresolved, happ⟩ := ht
      rw [hused, hc.unresolved] at hunresolved
      rw [ends_notify]
      refine ⟨hown, ⟨heads, hp⟩, hlabel, hreaches, ⟨edits, hlist, ?_⟩, hunresolved⟩
      have hbytes : t.buffer.bytes = edited s.buffer.bytes edits := by
        rw [← hc.bytes]
        simpa using happ.bytes
      exact ⟨⟨happ.id.trans hc.id, happ.trap.trans hc.trap, rfl,
        Nat.le_trans hc.capacity happ.capacity, fun h => happ.granted (hc.granted h)⟩, hbytes⟩
    · exact fun _ _ h => h
  · exact fun _ _ h => h

/-- Binding in two passes: the patches of all pending sites are computed before any is written. -/
def binding {α : Type} (pending : CodeBuffer → Label → Nat → Except Failure (List (Nat × α)))
    (write : List (Nat × α) → Emit Unit) : Link Unit := do
  Link.requireUnbound
  Link.adopt
  let position ← Link.size
  let s ← get
  match pending s.buffer s.label position with
  | .error failure => throw failure
  | .ok patches =>
    Link.onBuffer (write patches)
    Link.settle position
    Link.notify (.patched position patches.length)

/-- An unbound label whose chains run through its branches in the ledger. -/
structure Threaded (chained : Shape → Prop) (ledger : Ledger) (name : String) (s : Linking)
    (heads : Heads) : Prop where
  place : s.label.place = .unbound heads
  heads : ∀ chain, heads.get chain = (ledger.sites name chain).head?
  chained : ∀ r ∈ ledger, r.name = name → chained r.shape
  pending : ∀ r older, r :: older <:+ ledger → r.name = name → r.Pending older s.buffer.bytes
  count : s.label.isLinked = true → 0 < s.buffer.unresolved

theorem Threaded.head {chained : Shape → Prop} {ledger : Ledger} {name : String} {s : Linking}
    {heads : Heads} (h : Threaded chained ledger name s heads) (id : Nat) (chain : Chain) :
    (s.label.ownedBy id).head chain = (ledger.sites name chain).head? := by
  rw [Label.head_ownedBy, Label.head_of_unbound h.place, h.heads]

theorem binding_bound {α : Type}
    (pending : CodeBuffer → Label → Nat → Except Failure (List (Nat × α)))
    (write : List (Nat × α) → Emit Unit) {s : Linking} {position : Nat}
    (h : s.label.position? = some position) :
    binding pending write s = .error (.error (.labelAlreadyBound position)) s := by
  have hrefused : Link.requireUnbound s = .error (.error (.labelAlreadyBound position)) s := by
    have hget : (get : Link Linking) s = .ok s s := rfl
    simp only [Link.requireUnbound, bind, EStateM.bind, hget, h]
    rfl
  simp only [binding, bind, EStateM.bind, hrefused]

/-- What the pass over the pending branches to the named label gives: the patches of all of them if
all reach `target`, and otherwise the refusal of one that does not. -/
def Gathers {α : Type} (ledger : Ledger) (name : String) (target : Nat)
    (edits : List (Nat × α) → List (Nat × List Byte)) (result : Except Failure (List (Nat × α))) :
    Prop :=
  (∃ patches, result = .ok patches ∧ PatchList ledger name target (edits patches) ∧
      ∀ r ∈ ledger, r.name = name → r.shape.Reaches r.site target) ∨
    ∃ r ∈ ledger, r.name = name ∧ ¬r.shape.Reaches r.site target ∧
      result = .error (r.unreached target)

theorem binding_ends {α : Type} {chained : Shape → Prop} {ledger : Ledger} {name : String}
    {s : Linking} {pending : CodeBuffer → Label → Nat → Except Failure (List (Nat × α))}
    {write : List (Nat × α) → Emit Unit} (edits : List (Nat × α) → List (Nat × List Byte))
    (hstack : ledger.Stacked s.buffer.size)
    (hthread : s.label.owner = none ∨ s.label.owner = some s.buffer.id →
      ∀ heads, s.label.place = .unbound heads → Threaded chained ledger name s heads)
    (hpending : ∀ heads, Threaded chained ledger name s heads →
      Gathers ledger name s.buffer.size edits
        (pending s.buffer (s.label.ownedBy s.buffer.id) s.buffer.size))
    (hwrite : ∀ patches, (∀ e ∈ edits patches, e.1 + e.2.length ≤ s.buffer.size) →
      Ends (write patches) s.buffer (fun _ c => CodeBuffer.Patches (edits patches) s.buffer c)
        (fun _ _ => False)) :
    Ends (binding pending write) s (fun _ t => Bound ledger name s t)
      (fun e t => Refused s t ∧ Unbindable ledger name s e) := by
  simp only [binding, Link.requireUnbound, ends_bind, ends_get]
  cases hpos : s.label.position? with
  | some position => exact ⟨Link.refused_refl s, .bound (Label.position?_eq_some.mp hpos)⟩
  | none =>
    obtain ⟨heads, hp⟩ := Label.place_of_position?_eq_none hpos
    simp only [ends_pure]
    apply (Link.adopt_ends s).mono
    · intro _ t ht
      obtain ⟨rfl, hown⟩ := ht
      have hthreaded := hthread hown heads hp
      simp only [ends_size]
      rcases hpending heads hthreaded with ⟨patches, hpatches, hlist, hreaches⟩ |
        ⟨r, hr, hname, hfar, hpatches⟩
      · simp only [hpatches]
        apply (patch_ends hown hp hlist hreaches hthreaded.count
          (hwrite patches fun e he => hlist.inside hstack he)).mono
        · exact fun _ _ h => h
        · exact fun _ _ h => h.elim
      · simp only [hpatches]
        exact ⟨Link.refused_of_adoptable hown (.refl _), .outOfReach hr hname hfar⟩
    · intro _ t ht
      obtain ⟨rfl, rfl, id, howner, hne⟩ := ht
      exact ⟨Link.refused_refl _, .foreign howner hne⟩

end MachineCode
