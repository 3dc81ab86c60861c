import MachineCode.Proofs.Finalize

/-!
# Chains read back from the code

The pending branches of a label are linked in the code only. Here the links are followed from the
head of a chain, and what is visited is compared with the branches that a run emitted: those to the
label, on that chain, the newest first.
-/

namespace MachineCode

/-! ## Walks -/

/-- From a site along the links, each of which is the way to the next site. Zero ends the walk. -/
inductive Walk (link : Nat → Option Int) : Option Nat → List Nat → Prop
  | nowhere : Walk link none []
  | last {site : Nat} (stored : link site = some 0) : Walk link (some site) [site]
  | onward {site next : Nat} {distance : Int} {visited : List Nat}
    (stored : link site = some distance) (moves : distance ≠ 0)
    (leads : (site : Int) + distance = next) (rest : Walk link (some next) visited) :
    Walk link (some site) (site :: visited)

private theorem Walk.unique {link : Nat → Option Int} {head : Option Nat}
    {visited visited' : List Nat} (h : Walk link head visited) (h' : Walk link head visited') :
    visited = visited' := by
  induction h generalizing visited' with
  | nowhere =>
    cases h'
    rfl
  | last stored =>
    cases h' with
    | last _ => rfl
    | onward stored' moves _ _ =>
      rw [stored] at stored'
      cases stored'
      exact absurd rfl moves
  | onward stored moves leads _ ih =>
    cases h' with
    | last stored' =>
      rw [stored] at stored'
      cases stored'
      exact absurd rfl moves
    | onward stored' _ leads' rest' =>
      rw [stored] at stored'
      cases stored'
      obtain rfl := Int.ofNat.inj (leads.symm.trans leads')
      rw [ih rest']

namespace Ledger

variable {ledger : Ledger} {top : Nat}

private theorem Stacked.pairwise (h : ledger.Stacked top) :
    ledger.Pairwise fun newer older => older.stop ≤ newer.start := by
  induction ledger generalizing top with
  | nil => exact .nil
  | cons r older ih => exact .cons (fun _ hr => h.2.stop_le hr) (ih h.2)

/-- Links that lead from each branch to the one before it on its chain are walked along the sites
of the ledger. -/
private theorem walk_sites (hstack : ledger.Stacked top) {name : String} {chain : Chain}
    {link : Nat → Option Int}
    (h : ∀ r older, r :: older <:+ ledger → OnChain name chain r →
      link r.site = some (r.backLink older)) :
    Walk link (ledger.sites name chain).head? (ledger.sites name chain) := by
  induction ledger generalizing top with
  | nil => exact .nowhere
  | cons r older ih =>
    have hrest := ih hstack.2 fun r' older' hs => h r' older' (hs.trans (List.suffix_cons r older))
    by_cases hon : OnChain name chain r
    · have hlink := h r older (List.suffix_refl _) hon
      rw [sites_cons_of_onChain hon, List.head?_cons]
      obtain ⟨rfl, rfl⟩ := hon
      simp only [Issue.backLink] at hlink
      cases hsites : sites older r.name r.shape.chain with
      | nil =>
        rw [hsites] at hlink
        exact .last hlink
      | cons next sites' =>
        have hnext : next < r.start := by
          apply hstack.2.site_lt
          rw [hsites]
          exact List.mem_cons_self ..
        have hsite := r.start_le_site
        rw [hsites, List.head?_cons] at hlink hrest
        have hback : backLink r.site (some next) = next - r.site := rfl
        exact .onward hlink (by omega) (by omega) hrest
    · rw [sites_cons_of_not_onChain hon]
      exact hrest

end Ledger

/-! ## Branches of a run -/

structure Emission (β : Type) where
  name : String
  branch : β
  /-- Where the instruction starts. -/
  start : Nat

/-- The branch as the ledger has it, if `shape` is the shape for a target that is not known. -/
def Emission.issue {β : Type} (shape : β → Shape) (e : Emission β) : Issue :=
  ⟨e.name, e.start, shape e.branch⟩

/-- What an assembler for the target puts into the ledger is what `branch?` reads off the request,
in the given shape if the label is not bound. -/
structure Issues {β : Type} (target : Target) (branch? : Request → Option (String × β))
    (shape : β → Shape) : Prop where
  nothing : ∀ labels a request, a.target = target →
    (a.serve labels request).2.2.isReply = true → branch? request = none →
    request.issue? labels a = none
  branch : ∀ labels a request name branch, a.target = target →
    (a.serve labels request).2.2.isReply = true → branch? request = some (name, branch) →
    ∃ r, request.issue? labels a = some r ∧ r.name = name ∧
      ((labels.get name).position? = none → r = ⟨name, a.buffer.size, shape branch⟩)

namespace Session

variable {β : Type} (branch? : Request → Option (String × β))

def emitted (s : Session) (i : Nat) : Event → List (Emission β)
  | .request j request =>
    if j = i then
      match s.assembler? i, (s.step i request).2, branch? request with
      | some a, .reply _, some (name, branch) => [⟨name, branch, a.buffer.size⟩]
      | _, _, _ => []
    else []
  | _ => []

def emissions (s : Session) (i : Nat) : List Event → List (Emission β)
  | [] => []
  | e :: rest => (s.after e).emissions i rest ++ s.emitted branch? i e

/-- The branches of a run whose labels are not bound at its end. -/
def pending (i : Nat) (events : List Event) : List (Emission β) :=
  (empty.emissions branch? i events).filter fun e =>
    ((empty.run events).labels.get e.name).position?.isNone

private theorem emissions_append (s : Session) (i : Nat) (before rest : List Event) :
    s.emissions branch? i (before ++ rest) =
      (s.run before).emissions branch? i rest ++ s.emissions branch? i before := by
  induction before generalizing s with
  | nil => rw [emissions, List.append_nil]; rfl
  | cons e before ih =>
    rw [List.cons_append, emissions, emissions, ih, run_cons, List.append_assoc]

end Session

theorem Serves.target_eq {request : Request} {a b : Assembler} {labels labels' : Labels}
    {ledger ledger' : Ledger} (h : Serves request a labels ledger (some b) labels' ledger') :
    b.target = a.target := by
  cases h <;> rfl

namespace Session

variable {s : Session} {ledgers : Nat → Ledger} {i : Nat}

private theorem size_le_after (s : Session) (e : Event) :
    s.assemblers.size ≤ (s.after e).assemblers.size := by
  cases e with
  | add memory spec options =>
    cases ht : s.add memory spec options with
    | ok t =>
      obtain ⟨a, -, rfl⟩ := add_eq_ok ht
      simp only [after, ht, Array.size_push]
      omega
    | error e => simp only [after, ht, Nat.le_refl]
  | request j request => simp only [after, size_step, Nat.le_refl]
  | mention name => exact Nat.le_refl _
  | forget j => exact Nat.le_of_eq (s.size_modifyBuffer j _).symm
  | allow j memory => exact Nat.le_of_eq (s.size_modifyBuffer j _).symm

private theorem Consistent.target_after (h : Consistent s ledgers) (hi : i < s.assemblers.size)
    {e : Event} {b : Assembler} (hb : (s.after e).assembler? i = some b) :
    ∃ a, s.assembler? i = some a ∧ b.target = a.target := by
  cases e with
  | add memory spec options =>
    cases ht : s.add memory spec options with
    | ok t =>
      obtain ⟨a, -, rfl⟩ := add_eq_ok ht
      simp only [Session.after, ht] at hb
      rcases assembler?_push hb with hold | ⟨rfl, -⟩
      · exact ⟨b, hold, rfl⟩
      · exact absurd hi (Nat.lt_irrefl _)
    | error e =>
      simp only [Session.after, ht] at hb
      exact ⟨b, hb, rfl⟩
  | request j request =>
    cases hj : s.assembler? j with
    | none =>
      simp only [Session.after, Session.step, hj] at hb
      exact ⟨b, hb, rfl⟩
    | some a =>
      rw [Session.after, assembler?_step hj] at hb
      by_cases hij : i = j
      · subst hij
        rw [if_pos rfl] at hb
        obtain ⟨-, hagrees⟩ := h.agrees i a hj
        have hserves := Assembler.serve_serves hagrees h.fresh request
        rw [hb] at hserves
        exact ⟨a, hj, hserves.target_eq⟩
      · rw [if_neg hij] at hb
        exact ⟨b, hb, rfl⟩
  | mention name => exact ⟨b, hb, rfl⟩
  | forget j =>
    obtain ⟨a, ha, htarget, -⟩ := assembler?_modifyBuffer CodeBuffer.appends_forget hb
    exact ⟨a, ha, htarget.symm⟩
  | allow j memory =>
    obtain ⟨a, ha, htarget, -⟩ := assembler?_modifyBuffer (CodeBuffer.appends_allow memory) hb
    exact ⟨a, ha, htarget.symm⟩

private theorem Consistent.target_run (h : Consistent s ledgers) (hi : i < s.assemblers.size)
    {events : List Event} {b : Assembler} (hb : (s.run events).assembler? i = some b) :
    ∃ a, s.assembler? i = some a ∧ b.target = a.target := by
  induction events generalizing s ledgers with
  | nil => exact ⟨b, hb, rfl⟩
  | cons e rest ih =>
    have hi' := Nat.lt_of_lt_of_le hi (s.size_le_after e)
    obtain ⟨c, hc, htarget⟩ := ih (h.after e) hi' hb
    obtain ⟨a, ha, htarget'⟩ := h.target_after hi hc
    exact ⟨a, ha, htarget.trans htarget'⟩

theorem Consistent.target_eq (h : Consistent s ledgers) (events : List Event) {a b : Assembler}
    (ha : s.assembler? i = some a) (hb : (s.run events).assembler? i = some b) :
    a.target = b.target := by
  obtain ⟨a', ha', htarget⟩ := h.target_run (lt_size_of_assembler? ha) hb
  obtain rfl : a = a' := by simpa [ha] using ha'
  exact htarget.symm

section

variable {β : Type} {branch? : Request → Option (String × β)} {shape : β → Shape}

private theorem Consistent.filter_issued (h : Consistent s ledgers) {e : Event} {rest : List Event}
    {b : Assembler} (hb : ((s.after e).run rest).assembler? i = some b)
    (hissues : Issues b.target branch? shape) :
    (s.issued i e).filter
        (fun r => (((s.after e).run rest).labels.get r.name).position?.isNone) =
      ((s.emitted branch? i e).filter fun m =>
        (((s.after e).run rest).labels.get m.name).position?.isNone).map
          (Emission.issue shape) := by
  cases e with
  | request j request =>
    by_cases hj : j = i
    · subst hj
      cases ha : s.assembler? j with
      | none => simp [issued, emitted, ha]
      | some a =>
        have hout : (s.step j request).2 = (a.serve s.labels request).2.2 := by rw [step_eq ha]
        cases hreply : (s.step j request).2 with
        | failed failure => simp [issued, emitted, ha, hreply]
        | reply reply =>
          have hserved : (a.serve s.labels request).2.2.isReply = true := by
            rw [← hout, hreply]
            rfl
          have htarget := h.target_eq (.request j request :: rest) ha hb
          cases hrequest : branch? request with
          | none =>
            have hnone := hissues.nothing s.labels a request htarget hserved hrequest
            simp [issued, emitted, ha, hreply, hnone, hrequest]
          | some p =>
            obtain ⟨name, branch⟩ := p
            obtain ⟨r, hr, rfl, hshape⟩ :=
              hissues.branch s.labels a request name branch htarget hserved hrequest
            simp only [issued, emitted, if_true, ha, hreply, hr, hrequest, Option.toList_some,
              List.filter_cons, List.filter_nil]
            split
            · next hnone =>
              have hunbound : (s.labels.get r.name).position? = none := by
                cases hp : (s.labels.get r.name).position? with
                | none => rfl
                | some p =>
                  have hsame := h.get_run (Label.position?_eq_some.mp hp)
                    (.request j request :: rest)
                  rw [run_cons] at hsame
                  rw [hsame, hp] at hnone
                  cases hnone
              exact congrArg (fun r => [r]) (hshape hunbound)
            · rfl
    · simp [issued, emitted, hj]
  | _ => rfl

theorem Consistent.filter_ledger (h : Consistent s ledgers) {events : List Event} {b : Assembler}
    (hb : (s.run events).assembler? i = some b) (hissues : Issues b.target branch? shape) :
    (s.ledger i events).filter
        (fun r => ((s.run events).labels.get r.name).position?.isNone) =
      ((s.emissions branch? i events).filter fun m =>
        ((s.run events).labels.get m.name).position?.isNone).map (Emission.issue shape) := by
  induction events generalizing s ledgers with
  | nil => rfl
  | cons e rest ih =>
    have hrest := ih (h.after e) hb
    have hfirst := h.filter_issued hb hissues
    simp only [ledger, emissions, run_cons, List.filter_append, List.map_append, hrest, hfirst]

end

/-! ## Binding -/

private theorem Consistent.labels_bind (h : Consistent s ledgers) {a : Assembler}
    (ha : s.assembler? i = some a) {name : String}
    (hreply : (s.step i (.bind name)).2.isReply = true) :
    ∃ p, (s.step i (.bind name)).1.labels = s.labels.set name ⟨.bound p, some i⟩ := by
  obtain ⟨hid, hagrees⟩ := h.agrees i a ha
  rw [step_eq ha] at hreply ⊢
  by_cases htarget : a.target = .bare
  · obtain ⟨target, buffer⟩ := a
    subst htarget
    cases hreply
  · rcases Assembler.serve_bind hagrees h.fresh htarget name with
      ⟨t, ht, hserved⟩ | ⟨_, t, -, -, hserved⟩
    · refine ⟨a.buffer.size, ?_⟩
      rw [hserved, ← hid, ← ht.label]
    · rw [hserved] at hreply
      cases hreply

private theorem exists_assembler?_bind {a : Assembler} (ha : s.assembler? i = some a)
    (name : String) :
    ∃ b, (s.step i (.bind name)).1.assembler? i = some b ∧ b.target = a.target := by
  rw [assembler?_step ha, if_pos rfl]
  obtain ⟨target, buffer⟩ := a
  cases target with
  | bare => exact ⟨_, rfl, rfl⟩
  | x86 =>
    simp only [Assembler.serve, onLabel]
    split <;> exact ⟨_, rfl, rfl⟩
  | a64 far =>
    simp only [Assembler.serve, onLabel]
    split <;> exact ⟨_, rfl, rfl⟩

/-- The branches to the other labels are still pending. -/
theorem pending_bind {β : Type} {branch? : Request → Option (String × β)} {events : List Event}
    {a : Assembler} (ha : (empty.run events).assembler? i = some a) {name : String}
    (hbind : branch? (.bind name) = none)
    (hreply : ((empty.run events).step i (.bind name)).2.isReply = true) :
    pending branch? i (events ++ [.request i (.bind name)]) =
      (pending branch? i events).filter fun e => decide (e.name ≠ name) := by
  obtain ⟨p, hlabels⟩ := (consistent_run events).labels_bind ha hreply
  have hnone : (empty.run events).emitted branch? i (.request i (.bind name)) = [] := by
    simp only [emitted, if_true, hbind]
    split <;> simp_all
  have hrun : (empty.run (events ++ [.request i (.bind name)])).labels =
      (empty.run events).labels.set name ⟨.bound p, some i⟩ := by
    rw [run_append, ← hlabels]
    rfl
  rw [pending, pending, List.filter_filter, emissions_append, emissions, emissions, hnone, hrun,
    List.append_nil, List.nil_append]
  apply List.filter_congr
  intro e _
  rw [Labels.get_set]
  by_cases hname : e.name = name
  · simp [hname, Label.position?]
  · simp [hname]

/-- What holds of the pending branches after every run holds of those that a binding leaves. -/
theorem holds_after_bind {β : Type} {branch? : Request → Option (String × β)} {target : Target}
    {P : Labels → CodeBuffer → List (Emission β) → Prop}
    (h : ∀ events a, (empty.run events).assembler? i = some a → a.target = target →
      P (empty.run events).labels a.buffer (pending branch? i events))
    {events : List Event} {a : Assembler} (ha : (empty.run events).assembler? i = some a)
    (htarget : a.target = target) {name : String} (hbind : branch? (.bind name) = none)
    (hreply : (answer events i (.bind name)).isReply = true) :
    ∃ b, ((empty.run events).step i (.bind name)).1.assembler? i = some b ∧
      P ((empty.run events).step i (.bind name)).1.labels b.buffer
        ((pending branch? i events).filter fun e => decide (e.name ≠ name)) := by
  obtain ⟨b, hb, hkept⟩ := exists_assembler?_bind ha name
  have hrun : empty.run (events ++ [.request i (.bind name)]) =
      ((empty.run events).step i (.bind name)).1 := run_append ..
  rw [← hrun] at hb
  have hafter := h _ b hb (hkept.trans htarget)
  rw [pending_bind ha hbind hreply, hrun] at hafter
  rw [hrun] at hb
  exact ⟨b, hb, hafter⟩

end Session

/-! ## What chains hold -/

/-- Where the branches of a target have their sites. -/
structure Layout (β : Type) where
  chain : β → Chain
  /-- The number of bytes before the site. -/
  before : β → Nat
  /-- The number of bytes from the site on. -/
  length : β → Nat

section

variable {β : Type} (layout : Layout β)

def Emission.site (e : Emission β) : Nat :=
  e.start + layout.before e.branch

def Emission.stop (e : Emission β) : Nat :=
  e.site layout + layout.length e.branch

/-- The sites of the branches to a label on one of its chains, the newest first. -/
def Emission.sites (pending : List (Emission β)) (name : String) (chain : Chain) : List Nat :=
  (pending.filter fun e => decide (e.name = name ∧ layout.chain e.branch = chain)).map
    (Emission.site layout)

/-- The chains of the unbound labels of a buffer run through the pending branches and nothing else,
from the newest to the oldest, and these branches do not overlap. -/
structure ChainsHold (link : Chain → Nat → Option Int) (labels : Labels) (b : CodeBuffer)
    (pending : List (Emission β)) : Prop where
  visits : ∀ name, (labels.get name).owner = some b.id → (labels.get name).position? = none →
    ∀ chain visited, Walk (link chain) ((labels.get name).head chain) visited ↔
      visited = Emission.sites layout pending name chain
  decreasing : ∀ name chain, (Emission.sites layout pending name chain).Pairwise (· > ·)
  inside : ∀ e ∈ pending, e.stop layout ≤ b.size
  apart : pending.Pairwise fun newer older => older.stop layout ≤ newer.site layout

/-- The layout says where branches of the given shapes have their sites. -/
def Layout.Describes (shape : β → Shape) : Prop :=
  ∀ branch, (shape branch).chain = layout.chain branch ∧
    (shape branch).opcode.length = layout.before branch ∧
    (shape branch).siteLength = layout.length branch

variable {layout} {shape : β → Shape} {link : Chain → Nat → Option Int} {labels : Labels}
  {a : Assembler} {ledger : Ledger} {pending : List (Emission β)}

theorem mem_ledger_of_pending
    (hpending : ledger.filter (fun r => (labels.get r.name).position?.isNone) =
      pending.map (Emission.issue shape)) {e : Emission β} (he : e ∈ pending) :
    e.issue shape ∈ ledger ∧ (labels.get e.name).position? = none := by
  have hmem : e.issue shape ∈ ledger.filter fun r => (labels.get r.name).position?.isNone := by
    rw [hpending]
    exact List.mem_map_of_mem he
  obtain ⟨hledger, hnone⟩ := List.mem_filter.mp hmem
  exact ⟨hledger, Option.isNone_iff_eq_none.mp hnone⟩

private theorem sites_eq_sites (hlayout : layout.Describes shape)
    (hpending : ledger.filter (fun r => (labels.get r.name).position?.isNone) =
      pending.map (Emission.issue shape))
    {name : String} (hname : (labels.get name).position? = none) (chain : Chain) :
    ledger.sites name chain = Emission.sites layout pending name chain := by
  have hfilter : ledger.filter (Ledger.OnChain name chain) =
      (ledger.filter fun r => (labels.get r.name).position?.isNone).filter
        (Ledger.OnChain name chain) := by
    rw [List.filter_filter]
    apply List.filter_congr
    intro r _
    by_cases hon : Ledger.OnChain name chain r
    · obtain ⟨rfl, rfl⟩ := hon
      simp [hname]
    · simp [hon]
  rw [Ledger.sites, hfilter, hpending, List.filter_map, List.map_map, Emission.sites]
  congr 1
  · funext e
    simp only [Function.comp_apply, Emission.issue, Issue.site, Emission.site,
      (hlayout e.branch).2.1]
  · congr 1
    funext e
    simp only [Function.comp_apply, Emission.issue, Ledger.OnChain, (hlayout e.branch).1]

theorem Agrees.chainsHold (h : Agrees labels a ledger) (hlayout : layout.Describes shape)
    (hpending : ledger.filter (fun r => (labels.get r.name).position?.isNone) =
      pending.map (Emission.issue shape))
    (hlink : ∀ r older, r :: older <:+ ledger → (labels.get r.name).position? = none →
      link r.shape.chain r.site = some (r.backLink older)) :
    ChainsHold layout link labels a.buffer pending := by
  have hstop : ∀ e : Emission β, (e.issue shape).stop = e.stop layout := by
    intro e
    obtain ⟨-, hbefore, hlength⟩ := hlayout e.branch
    simp only [Issue.stop_eq, Issue.site, Emission.issue, Emission.stop, Emission.site, hbefore,
      hlength]
  have hapart : pending.Pairwise fun newer older => older.stop layout ≤ newer.site layout := by
    have hstacked := h.stacked.pairwise.filter
      (fun r => (labels.get r.name).position?.isNone)
    rw [hpending, List.pairwise_map] at hstacked
    refine hstacked.imp fun {newer older} hle => ?_
    rw [hstop] at hle
    exact Nat.le_trans hle (Nat.le_add_right _ _)
  constructor
  case visits =>
    intro name howner hname chain visited
    obtain ⟨heads, hp⟩ := Label.place_of_position?_eq_none hname
    have hwalk : Walk (link chain) (ledger.sites name chain).head? (ledger.sites name chain) := by
      refine Ledger.walk_sites h.stacked fun r older hs hon => ?_
      obtain ⟨rfl, rfl⟩ := hon
      exact hlink r older hs hname
    rw [Label.head_of_unbound hp, h.heads name heads howner hp chain,
      ← sites_eq_sites hlayout hpending hname]
    exact ⟨fun hvisited => hvisited.unique hwalk, fun heq => heq ▸ hwalk⟩
  case decreasing =>
    intro name chain
    rw [Emission.sites, List.pairwise_map]
    refine (hapart.filter _).imp fun {newer older} hle => ?_
    have hlength := (hlayout older.branch).2.2
    have hpos := (shape older.branch).siteLength_pos
    simp only [Emission.stop] at hle
    omega
  case inside =>
    intro e he
    rw [← hstop]
    exact h.stacked.stop_le (mem_ledger_of_pending hpending he).1
  case apart => exact hapart

end

end MachineCode
