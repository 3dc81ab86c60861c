import MachineCode.Proofs.Run

/-!
# Binding in two walks

The pending sites of a label are nowhere listed. To bind it, an assembler walks along its chains
twice: first to see that every site reaches, then to patch one site after the other. On the second
walk it reads the code again, which is patched in part by then. Binding as a whole list of patches
is the same as these two walks: a patch changes nothing that is still to be read, so the second walk
visits the sites of the first one, finds the same patches and has nothing to object to.
-/

namespace MachineCode

open CodeBuffer

/-! ## Walks -/

/-- A walk along a chain: the code by now, the site ahead and the number of sites behind. -/
structure Walker where
  buffer : CodeBuffer
  ahead : Option Nat
  behind : Nat

def Walker.Goes (w : Walker) : Prop :=
  w.ahead.isSome = true

/-- Visits the site ahead, which says where the next one is. -/
def Walker.advance (visit : Nat → Emit (Option Nat)) : EStateM Failure Walker Unit := fun w =>
  match w.ahead with
  | none => .ok () w
  | some site =>
    match visit site w.buffer with
    | .ok next b => .ok () ⟨b, next, w.behind + 1⟩
    | .error e b => .error e ⟨b, some site, w.behind⟩

/-- A chain to walk along, and what to do at each of its sites. -/
structure Leg where
  head : Option Nat
  visit : Nat → Emit (Option Nat)

def Leg.Loops (leg : Leg) (b : CodeBuffer) (n : Nat) (result : EStateM.Result Failure Walker Unit) :
    Prop :=
  MachineCode.Loops Walker.Goes (Walker.advance leg.visit) ⟨b, leg.head, n⟩ result

/-- A walk along some chains, one after the other. It counts the sites. -/
inductive Walks : List Leg → CodeBuffer → Nat → EStateM.Result Failure CodeBuffer Nat → Prop
  | done {b : CodeBuffer} {n : Nat} : Walks [] b n (.ok n b)
  | next {leg : Leg} {legs : List Leg} {b : CodeBuffer} {n : Nat} {w : Walker}
    {result : EStateM.Result Failure CodeBuffer Nat} (loop : leg.Loops b n (.ok () w))
    (rest : Walks legs w.buffer w.behind result) : Walks (leg :: legs) b n result
  | failed {leg : Leg} {legs : List Leg} {b : CodeBuffer} {n : Nat} {e : Failure} {w : Walker}
    (loop : leg.Loops b n (.error e w)) : Walks (leg :: legs) b n (.error e w.buffer)

/-- Binding of a label in two walks, each along the chains that it is given. -/
def BindsInWalks (look patch : Label → Nat → List Leg) (s : Linking)
    (result : EStateM.Result Failure Linking Unit) : Prop :=
  Ends (do Link.requireUnbound; Link.adopt : Link Unit) s
    (fun _ t => ∃ looked, Walks (look t.label t.buffer.size) t.buffer 0 looked ∧
      match looked with
      | .error e b => result = .error e ⟨b, t.label⟩
      | .ok _ b => ∃ patched, Walks (patch t.label t.buffer.size) b 0 patched ∧
        match patched with
        | .error e c => result = .error e ⟨c, t.label⟩
        | .ok n c => result = (do
            Link.settle t.buffer.size
            Link.notify (.patched t.buffer.size n) : Link Unit) ⟨c, t.label⟩)
    (fun e t => result = .error e t)

private theorem Walks.unique {legs : List Leg} {b : CodeBuffer} {n : Nat}
    {result result' : EStateM.Result Failure CodeBuffer Nat} (h : Walks legs b n result)
    (h' : Walks legs b n result') : result = result' := by
  induction h with
  | done =>
    cases h'
    rfl
  | next loop _ ih =>
    cases h' with
    | next loop' rest' =>
      cases loop.unique loop'
      exact ih rest'
    | failed loop' => cases loop.unique loop'
  | failed loop =>
    cases h' with
    | next loop' _ => cases loop.unique loop'
    | failed loop' =>
      cases loop.unique loop'
      rfl

private theorem BindsInWalks.unique {look patch : Label → Nat → List Leg} {s : Linking}
    {result result' : EStateM.Result Failure Linking Unit} (h : BindsInWalks look patch s result)
    (h' : BindsInWalks look patch s result') : result = result' := by
  rw [BindsInWalks, Ends] at h h'
  split at h
  next t hstart =>
    rw [hstart] at h'
    obtain ⟨looked, hlook, h⟩ := h
    obtain ⟨looked', hlook', h'⟩ := h'
    cases hlook.unique hlook'
    cases looked with
    | error e b => exact h.trans h'.symm
    | ok m b =>
      obtain ⟨patched, hpatch, h⟩ := h
      obtain ⟨patched', hpatch', h'⟩ := h'
      cases hpatch.unique hpatch'
      cases patched with
      | error e c => exact h.trans h'.symm
      | ok n c => exact h.trans h'.symm
  next e t hstart =>
    rw [hstart] at h'
    exact h.trans h'.symm

section

variable {α : Type}

/-- What to do at a site: read what becomes of it and where the next one is, and write that. -/
def visiting (resolve : CodeBuffer → Nat → Except Failure (α × Option Nat))
    (write : Nat → α → Emit Unit) (site : Nat) : Emit (Option Nat) := fun b =>
  match resolve b site with
  | .error e => .error e b
  | .ok answer =>
    match write site answer.1 b with
    | .error e c => .error e c
    | .ok _ c => .ok answer.2 c

def Leg.looking (head : Option Nat)
    (resolve : CodeBuffer → Nat → Except Failure (α × Option Nat)) : Leg :=
  ⟨head, visiting resolve fun _ _ => pure ()⟩

/-! ## The first walk -/

/-- A walk that only looks ends as the list of its answers does. -/
def Leg.Follows (leg : Leg) (b : CodeBuffer) (n : Nat) : Except Failure (List (Nat × α)) → Prop
  | .ok patches => leg.Loops b n (.ok () ⟨b, none, n + patches.length⟩)
  | .error e => e ≠ .violation .endlessChain → ∃ w, w.buffer = b ∧ leg.Loops b n (.error e w)

private theorem Leg.follows_looking (resolve : CodeBuffer → Nat → Except Failure (α × Option Nat))
    (b : CodeBuffer) (steps : Nat) (head : Option Nat) (n : Nat) :
    (looking head resolve).Follows b n (followChain (resolve b) steps head) := by
  induction steps generalizing head n with
  | zero =>
    cases head with
    | none => exact .done (by simp [Walker.Goes, looking])
    | some site => exact fun h => absurd rfl h
  | succ steps ih =>
    cases head with
    | none => exact .done (by simp [Walker.Goes, looking])
    | some site =>
      rw [followChain]
      cases hresolve : resolve b site with
      | error e =>
        refine fun _ => ⟨⟨b, some site, n⟩, rfl, .failed rfl ?_⟩
        simp only [Walker.advance, looking, visiting, hresolve]
      | ok answer =>
        obtain ⟨patch, next⟩ := answer
        have hadvance : Walker.advance (looking (some site) resolve).visit ⟨b, some site, n⟩ =
            .ok () ⟨b, next, n + 1⟩ := by
          simp only [Walker.advance, looking, visiting, hresolve]
          rfl
        have hrest := ih next (n + 1)
        simp only [ok_bind]
        cases hfollow : followChain (resolve b) steps next with
        | error e =>
          rw [hfollow] at hrest
          intro hne
          obtain ⟨w, hw, hloops⟩ := hrest hne
          exact ⟨w, hw, .again rfl hadvance hloops⟩
        | ok patches =>
          rw [hfollow] at hrest
          have hcount : n + ((site, patch) :: patches).length = n + 1 + patches.length := by
            rw [List.length_cons]
            omega
          change Leg.Loops _ _ _ (.ok () ⟨b, none, n + ((site, patch) :: patches).length⟩)
          rw [hcount]
          exact .again rfl hadvance hrest

private theorem Leg.follows_chain (resolve : CodeBuffer → Nat → Except Failure (α × Option Nat))
    (b : CodeBuffer) (label : Label) (chain : Chain) (n : Nat) :
    (looking (label.head chain) resolve).Follows b n (label.resolveChain chain (resolve b)) := by
  rw [Label.resolveChain]
  cases label.head chain with
  | none => exact follows_looking resolve b 0 none n
  | some site => exact follows_looking resolve b (site + 1) (some site) n

end

/-! ## The second walk -/

/-- The branch is still as it was when it was emitted, in code that is as long as before. -/
structure Ready (ledger : Ledger) (top : Nat) (r : Issue) (c : CodeBuffer) : Prop where
  granted : c.Granted
  size : c.size = top
  pending : ∀ older, r :: older <:+ ledger → r.Pending older c.bytes

/-- A patch of one branch leaves the others as they are. -/
private theorem Ready.patched {ledger : Ledger} {top : Nat} {r r' : Issue} {c d : CodeBuffer}
    (h : Ready ledger top r' c) (hstack : ledger.Stacked top) (hr : r ∈ ledger) (hr' : r' ∈ ledger)
    (hne : r' ≠ r) {bytes : List Byte} (hlength : bytes.length = r.shape.siteLength)
    (hpatch : Patches [(r.site, bytes)] c d) : Ready ledger top r' d where
  granted := hpatch.granted h.granted
  size := hpatch.size.trans h.size
  pending older hs := by
    obtain ⟨hfits, hholds⟩ := h.pending older hs
    refine ⟨hfits, hholds.congr fun j hfrom hto => ?_⟩
    rw [hpatch.bytes]
    apply getElem?_edited_of_not_covers
    intro e he hcovers
    obtain rfl := List.mem_singleton.mp he
    rw [List.length_append, Shape.length_link, ← Shape.length] at hto
    simp only [Covers, hlength, ← Issue.stop_eq] at hcovers
    have hstart := r.start_le_site
    have hstop : r'.stop = r'.start + r'.shape.length := rfl
    rcases hstack.apart hr' hr with rfl | hbefore | hafter
    · exact hne rfl
    · omega
    · omega

section

variable {α : Type} {ledger : Ledger} {name : String} {top : Nat} {chain : Chain}
  {visit : Nat → Emit (Option Nat)} {write : List (Nat × α) → Emit Unit} {answer : Issue → α}

/-- A list of patches is written patch by patch. -/
structure Writes (write : List (Nat × α) → Emit Unit) : Prop where
  nil : write [] = pure ()
  cons : ∀ patch rest, write (patch :: rest) = (do write [patch]; write rest)

private theorem Writes.append (h : Writes write) (patches rest : List (Nat × α)) :
    write (patches ++ rest) = (do write patches; write rest) := by
  induction patches with
  | nil => rw [List.nil_append, h.nil, pure_bind]
  | cons patch patches ih => rw [List.cons_append, h.cons, h.cons patch patches, ih, bind_assoc]

private theorem emit_bind_of_ok {first second : Emit Unit} {c d : CodeBuffer}
    (h : first c = .ok () d) : (do first; second : Emit Unit) c = second d := by
  change EStateM.bind first (fun _ => second) c = _
  rw [EStateM.bind, h]

/-- What becomes of the branches to a label, chain by chain. -/
def gathered (ledger : Ledger) (name : String) (answer : Issue → α) (chains : List Chain) :
    List (Nat × α) :=
  chains.flatMap fun chain =>
    (ledger.filter (Ledger.OnChain name chain)).map fun r => (r.site, answer r)

private theorem gathered_cons (ledger : Ledger) (name : String) (answer : Issue → α)
    (chain : Chain) (rest : List Chain) :
    gathered ledger name answer (chain :: rest) =
      ((ledger.filter (Ledger.OnChain name chain)).map fun r => (r.site, answer r)) ++
        gathered ledger name answer rest :=
  List.flatMap_cons

/-- At each branch of the chain, the walk writes its patch and goes on to the branch before. -/
def Visits (ledger : Ledger) (name : String) (top : Nat) (chain : Chain)
    (visit : Nat → Emit (Option Nat)) (write : List (Nat × α) → Emit Unit) (answer : Issue → α) :
    Prop :=
  ∀ r older c, r :: older <:+ ledger → Ledger.OnChain name chain r → Ready ledger top r c →
    ∃ d, visit r.site c = .ok (Ledger.sites older name chain).head? d ∧
      write [(r.site, answer r)] c = .ok () d ∧
      ∃ bytes : List Byte, bytes.length = r.shape.siteLength ∧ Patches [(r.site, bytes)] c d

/-- The walk along a chain ends with the patches of all of its branches in the code. -/
private theorem Visits.loops (hvisits : Visits ledger name top chain visit write answer)
    (hwrites : Writes write) (hstack : ledger.Stacked top) {rest : Ledger} (hrest : rest <:+ ledger)
    {c : CodeBuffer}
    (hready : ∀ r ∈ rest, Ledger.OnChain name chain r → Ready ledger top r c) (n : Nat) :
    ∃ d, (Leg.mk (rest.sites name chain).head? visit).Loops c n
        (.ok () ⟨d, none, n + (rest.filter (Ledger.OnChain name chain)).length⟩) ∧
      write ((rest.filter (Ledger.OnChain name chain)).map fun r => (r.site, answer r)) c =
        .ok () d ∧
      ∀ r ∈ ledger, ¬Ledger.OnChain name chain r → Ready ledger top r c → Ready ledger top r d := by
  induction rest generalizing c n with
  | nil =>
    refine ⟨c, .done (by simp [Walker.Goes, Ledger.sites]), ?_, fun _ _ _ h => h⟩
    rw [List.filter_nil, List.map_nil, hwrites.nil]
    rfl
  | cons r older ih =>
    have holder := (List.suffix_cons r older).trans hrest
    by_cases hon : Ledger.OnChain name chain r
    · have hr := hrest.mem (List.mem_cons_self ..)
      obtain ⟨b, hvisit, hwrite, bytes, hlength, hpatch⟩ :=
        hvisits r older c hrest hon (hready r (List.mem_cons_self ..) hon)
      have hstart := hstack.suffix hrest
      have hothers : ∀ r' ∈ older, Ledger.OnChain name chain r' → Ready ledger top r' b := by
        intro r' hr' hon'
        have hne : r' ≠ r := by
          rintro rfl
          have hstop := hstart.stop_le hr'
          have hle := r'.start_le_site
          have hlt := r'.site_lt_stop
          omega
        exact (hready r' (List.mem_cons_of_mem _ hr') hon').patched hstack hr (holder.mem hr') hne
          hlength hpatch
      obtain ⟨d, hloops, hwritten, hkept⟩ := ih holder hothers (n + 1)
      have hfilter : (r :: older).filter (Ledger.OnChain name chain) =
          r :: older.filter (Ledger.OnChain name chain) := by
        simp only [List.filter_cons, decide_eq_true hon, if_true]
      rw [hfilter, Ledger.sites_cons_of_onChain hon, List.head?_cons, List.length_cons,
        List.map_cons, hwrites.cons]
      have hcount : n + ((older.filter (Ledger.OnChain name chain)).length + 1) =
          n + 1 + (older.filter (Ledger.OnChain name chain)).length := by omega
      refine ⟨d, ?_, (emit_bind_of_ok hwrite).trans hwritten, fun r' hr' hoff hr'c => ?_⟩
      · rw [hcount]
        refine .again rfl ?_ hloops
        simp only [Walker.advance, hvisit]
      · have hne : r' ≠ r := fun h => hoff (h ▸ hon)
        exact hkept r' hr' hoff (hr'c.patched hstack hr hr' hne hlength hpatch)
    · have hfilter : (r :: older).filter (Ledger.OnChain name chain) =
          older.filter (Ledger.OnChain name chain) := by
        simp only [List.filter_cons, decide_eq_false hon, Bool.false_eq_true, if_false]
      rw [hfilter, Ledger.sites_cons_of_not_onChain hon]
      exact ih holder (fun r' hr' => hready r' (List.mem_cons_of_mem _ hr')) n

private theorem walks_chains {visits : Chain → Nat → Emit (Option Nat)} (hwrites : Writes write)
    (hstack : ledger.Stacked top) {chains : List Chain} (hnodup : chains.Nodup)
    (hvisits : ∀ chain ∈ chains, Visits ledger name top chain (visits chain) write answer)
    {c : CodeBuffer} (hready : ∀ chain ∈ chains, ∀ r ∈ ledger, Ledger.OnChain name chain r →
      Ready ledger top r c) (n : Nat) :
    ∃ d, Walks (chains.map fun chain => ⟨(ledger.sites name chain).head?, visits chain⟩) c n
        (.ok (n + (gathered ledger name answer chains).length) d) ∧
      write (gathered ledger name answer chains) c = .ok () d := by
  induction chains generalizing c n with
  | nil =>
    refine ⟨c, .done, ?_⟩
    rw [gathered, List.flatMap_nil, hwrites.nil]
    rfl
  | cons chain rest ih =>
    obtain ⟨hnew, hnodup⟩ := List.nodup_cons.mp hnodup
    obtain ⟨b, hloops, hwritten, hkept⟩ := (hvisits chain (.head _)).loops hwrites hstack
      (List.suffix_refl _) (hready chain (.head _)) n
    obtain ⟨d, hwalks, hrest⟩ := ih hnodup (fun other hother => hvisits other (.tail _ hother))
      (fun other hother r hr hon =>
        hkept r hr (fun hon' => hnew (hon'.2.symm.trans hon.2 ▸ hother))
          (hready other (.tail _ hother) r hr hon))
      (n + (ledger.filter (Ledger.OnChain name chain)).length)
    rw [gathered_cons]
    refine ⟨d, .next hloops ?_, ?_⟩
    · rw [List.length_append, List.length_map, ← Nat.add_assoc]
      exact hwalks
    · rw [hwrites.append]
      exact (emit_bind_of_ok hwritten).trans hrest

/-- The walk along the chains of a label writes the patches of all of its branches. -/
private theorem Threaded.walks {chained : Shape → Prop} {s : Linking} {heads : Heads}
    {visits : Chain → Nat → Emit (Option Nat)} {chains : List Chain}
    (h : Threaded chained ledger name s heads) (granted : s.buffer.Granted)
    (hstack : ledger.Stacked s.buffer.size) (hwrites : Writes write) (hnodup : chains.Nodup)
    (hvisits : ∀ chain ∈ chains,
      Visits ledger name s.buffer.size chain (visits chain) write answer) :
    ∃ c, write (gathered ledger name answer chains) s.buffer = .ok () c ∧
      Walks (chains.map fun chain => ⟨(s.label.ownedBy s.buffer.id).head chain, visits chain⟩)
        s.buffer 0 (.ok (gathered ledger name answer chains).length c) := by
  have hready : ∀ chain ∈ chains, ∀ r ∈ ledger, Ledger.OnChain name chain r →
      Ready ledger s.buffer.size r s.buffer :=
    fun _ _ r _ hon => ⟨granted, rfl, fun older hs => h.pending r older hs hon.1⟩
  obtain ⟨c, hwalks, hwritten⟩ := walks_chains hwrites hstack hnodup hvisits hready 0
  refine ⟨c, hwritten, ?_⟩
  simp only [h.head]
  rwa [Nat.zero_add] at hwalks

end

/-! ## Both walks -/

private theorem Leg.Follows.walks {α : Type} {leg : Leg} {legs : List Leg} {b : CodeBuffer}
    {n : Nat} {patches : List (Nat × α)} {result : EStateM.Result Failure CodeBuffer Nat}
    (h : leg.Follows b n (.ok patches)) (hrest : Walks legs b (n + patches.length) result) :
    Walks (leg :: legs) b n result :=
  .next h hrest

private theorem Leg.Follows.walks_error {α : Type} {leg : Leg} {b : CodeBuffer} {n : Nat}
    {e : Failure} (h : leg.Follows b n (.error e : Except Failure (List (Nat × α))))
    (hne : e ≠ .violation .endlessChain) (legs : List Leg) :
    Walks (leg :: legs) b n (.error e b) := by
  obtain ⟨w, rfl, hloop⟩ := h hne
  exact .failed hloop

/-- Two walks do what the list of patches says: the first one fails if there is no list, and the
second one writes the patches. -/
def WalksTwice {α : Type} (write : List (Nat × α) → Emit Unit) (look patch : List Leg)
    (b : CodeBuffer) : Except Failure (List (Nat × α)) → Prop
  | .error e => Walks look b 0 (.error e b)
  | .ok patches => ∃ n c, Walks look b 0 (.ok n b) ∧ write patches b = .ok () c ∧
      Walks patch b 0 (.ok patches.length c)

private theorem start_ends (s : Linking) :
    Ends (do Link.requireUnbound; Link.adopt : Link Unit) s
      (fun _ t => t = ⟨s.buffer, s.label.ownedBy s.buffer.id⟩ ∧
        (s.label.owner = none ∨ s.label.owner = some s.buffer.id) ∧
        ∃ heads, s.label.place = .unbound heads)
      (fun _ _ => True) := by
  simp only [Link.requireUnbound, ends_bind, ends_get]
  cases hpos : s.label.position? with
  | some position => trivial
  | none =>
    rw [ends_pure]
    apply (Link.adopt_ends s).mono
    · rintro - t ⟨rfl, hown⟩
      exact ⟨rfl, hown, Label.place_of_position?_eq_none hpos⟩
    · exact fun _ _ _ => trivial

private def concluding {α : Type}
    (pending : CodeBuffer → Label → Nat → Except Failure (List (Nat × α)))
    (write : List (Nat × α) → Emit Unit) : Link Unit := do
  let position ← Link.size
  let s ← get
  match pending s.buffer s.label position with
  | .error failure => throw failure
  | .ok patches =>
    Link.onBuffer (write patches)
    Link.settle position
    Link.notify (.patched position patches.length)

private theorem concluding_eq {α : Type}
    (pending : CodeBuffer → Label → Nat → Except Failure (List (Nat × α)))
    (write : List (Nat × α) → Emit Unit) (t : Linking) :
    concluding pending write t =
      match pending t.buffer t.label t.buffer.size with
      | .error e => .error e t
      | .ok patches =>
        match write patches t.buffer with
        | .error e c => .error e ⟨c, t.label⟩
        | .ok _ c => (do
            Link.settle t.buffer.size
            Link.notify (.patched t.buffer.size patches.length) : Link Unit) ⟨c, t.label⟩ := by
  have hrun : concluding pending write t =
      (match pending t.buffer t.label t.buffer.size with
        | .error failure => throw failure
        | .ok patches => do
          Link.onBuffer (write patches)
          Link.settle t.buffer.size
          Link.notify (.patched t.buffer.size patches.length) : Link Unit) t := rfl
  rw [hrun]
  cases pending t.buffer t.label t.buffer.size with
  | error e => rfl
  | ok patches =>
    change EStateM.bind (Link.onBuffer (write patches)) _ t = _
    simp only [EStateM.bind, Link.onBuffer]
    cases write patches t.buffer <;> rfl

private theorem binding_inWalks {α : Type} {s : Linking}
    {pending : CodeBuffer → Label → Nat → Except Failure (List (Nat × α))}
    {write : List (Nat × α) → Emit Unit} {look patch : Label → Nat → List Leg}
    (hwalks : s.label.owner = none ∨ s.label.owner = some s.buffer.id →
      (∃ heads, s.label.place = .unbound heads) →
      WalksTwice write (look (s.label.ownedBy s.buffer.id) s.buffer.size)
        (patch (s.label.ownedBy s.buffer.id) s.buffer.size) s.buffer
        (pending s.buffer (s.label.ownedBy s.buffer.id) s.buffer.size)) :
    BindsInWalks look patch s (binding pending write s) := by
  have hsplit : binding pending write =
      ((do Link.requireUnbound; Link.adopt : Link Unit) >>= fun _ => concluding pending write) := by
    simp only [binding, bind_assoc]
    rfl
  have hrun : binding pending write s =
      EStateM.bind (do Link.requireUnbound; Link.adopt : Link Unit)
        (fun _ => concluding pending write) s :=
    congrFun hsplit s
  have hstart := start_ends s
  rw [BindsInWalks, hrun]
  rw [Ends] at hstart ⊢
  cases hfirst : (do Link.requireUnbound; Link.adopt : Link Unit) s with
  | error e t => simp only [EStateM.bind, hfirst]
  | ok _ t =>
    rw [hfirst] at hstart
    obtain ⟨rfl, hown, hplace⟩ := hstart
    have htwice := hwalks hown hplace
    simp only [EStateM.bind, hfirst, concluding_eq]
    cases hpending : pending s.buffer (s.label.ownedBy s.buffer.id) s.buffer.size with
    | error e =>
      rw [hpending] at htwice
      exact ⟨_, htwice, rfl⟩
    | ok patches =>
      rw [hpending] at htwice
      obtain ⟨n, c, hlook, hwrite, hpatch⟩ := htwice
      simp only [hwrite]
      exact ⟨_, hlook, _, hpatch, rfl⟩

/-! ## A64 -/

namespace A64

/-- Writes what becomes of a site; a pair whose second word is a `nop` is noted as shrunk. -/
def writeSite (site : Nat) : Patch → Emit Unit
  | .single word => storeWord site word
  | .pair first second _ => do
    storeWord site first
    storeWord (site + 4) second
    modify (notify (.farSite site (decide (second = wordNop))))

def lookLegs (far : Bool) (label : Label) (position : Nat) : List Leg :=
  [.wide, .near, .short].map fun chain =>
    .looking (label.head chain) fun b => resolve far b position

def patchLegs (far : Bool) (label : Label) (position : Nat) : List Leg :=
  [.wide, .near, .short].map fun chain =>
    ⟨label.head chain, visiting (fun b => resolve far b position) writeSite⟩

section

variable {s : Linking} {heads : Heads} {ledger : Ledger} {name : String} {far : Bool}

private theorem writes_applyPatches : Writes applyPatches where
  nil := rfl
  cons := by
    rintro ⟨site, word | ⟨first, second, shrunk⟩⟩ rest <;>
      simp only [applyPatches, bind_assoc, pure_bind]

private theorem writeSite_patchOf {r : Issue} (h : Chained far r.shape) (position : Nat) :
    writeSite r.site (patchOf position r) = applyPatches [(r.site, patchOf position r)] := by
  have hbranch : ∀ d : Int, DispField.imm26.insert d wordB ≠ wordNop := by
    intro d heq
    have hkind : BranchKind.ofWord? (DispField.imm26.insert d wordB) = some .unconditional :=
      BranchKind.ofWord?_insert (k := .unconditional) rfl d
    rw [heq] at hkind
    cases hkind
  rw [patchOf]
  generalize r.shape = shape at h
  cases shape with
  | short _ => exact h.elim
  | long _ => exact h.elim
  | single word => simp only [writeSite, applyPatches, bind_pure_unit]
  | pair word =>
    dsimp only
    split
    · simp only [writeSite, applyPatches, bind_pure_unit, decide_true]
    · simp only [writeSite, applyPatches, bind_pure_unit, hbranch, decide_false]

private theorem visits_patches {top position : Nat} (hstack : ledger.Stacked top)
    (hchained : ∀ r ∈ ledger, r.name = name → Chained far r.shape)
    (hreaches : ∀ r ∈ ledger, r.name = name → r.shape.Reaches r.site position) (chain : Chain) :
    Visits ledger name top chain (visiting (fun b => resolve far b position) writeSite)
      applyPatches (patchOf position) := by
  rintro r older c hs ⟨rfl, rfl⟩ hready
  have hr := hs.mem (List.mem_cons_self ..)
  have hresolve : resolve far c position r.site =
      .ok (patchOf position r, (Ledger.sites older r.name r.shape.chain).head?) := by
    rcases resolve_yields hready.granted (hchained r hr rfl) (hstack.suffix hs)
      (hready.pending older hs) with ⟨-, h⟩ | ⟨hbad, -⟩
    · exact h
    · exact absurd (hreaches r hr rfl) hbad
  have hlength : (patchOf position r).bytes.length = r.shape.siteLength := by
    rw [bytes_patchOf (hchained r hr rfl), Shape.length_patch]
  have hinside : ∀ e ∈ edits [(r.site, patchOf position r)], e.1 + e.2.length ≤ c.size := by
    intro e he
    obtain rfl := List.mem_singleton.mp he
    rw [hlength, ← r.stop_eq, hready.size]
    exact hstack.stop_le hr
  have hends := applyPatches_ends hready.granted hinside
  rw [Ends] at hends
  cases hwrite : applyPatches [(r.site, patchOf position r)] c with
  | error e d =>
    rw [hwrite] at hends
    exact hends.elim
  | ok _ d =>
    rw [hwrite] at hends
    refine ⟨d, ?_, rfl, (patchOf position r).bytes, hlength, hends⟩
    simp only [visiting, hresolve, writeSite_patchOf (hchained r hr rfl), hwrite]

private theorem walks_lookLegs (b : CodeBuffer) (label : Label) (position : Nat) :
    match pendingPatches far b label position with
    | .ok _ => ∃ n, Walks (lookLegs far label position) b 0 (.ok n b)
    | .error e => e ≠ .violation .endlessChain →
      Walks (lookLegs far label position) b 0 (.error e b) := by
  have hfollows := Leg.follows_chain (fun b => resolve far b position) b label
  have hwide := hfollows .wide 0
  simp only [pendingPatches]
  cases h₁ : label.resolveChain .wide (resolve far b position) with
  | error e =>
    rw [h₁] at hwide
    exact fun hne => hwide.walks_error hne _
  | ok wide =>
    rw [h₁] at hwide
    have hnear := hfollows .near (0 + wide.length)
    cases h₂ : label.resolveChain .near (resolve far b position) with
    | error e =>
      rw [h₂] at hnear
      exact fun hne => hwide.walks (hnear.walks_error hne _)
    | ok near =>
      rw [h₂] at hnear
      have hshort := hfollows .short (0 + wide.length + near.length)
      cases h₃ : label.resolveChain .short (resolve far b position) with
      | error e =>
        rw [h₃] at hshort
        exact fun hne => hwide.walks (hnear.walks (hshort.walks_error hne _))
      | ok short =>
        rw [h₃] at hshort
        exact ⟨_, hwide.walks (hnear.walks (hshort.walks .done))⟩

private theorem walksTwice (granted : s.buffer.Granted) (hstack : ledger.Stacked s.buffer.size)
    (hthread : Threaded (Chained far) ledger name s heads) :
    WalksTwice applyPatches (lookLegs far (s.label.ownedBy s.buffer.id) s.buffer.size)
      (patchLegs far (s.label.ownedBy s.buffer.id) s.buffer.size) s.buffer
      (pendingPatches far s.buffer (s.label.ownedBy s.buffer.id) s.buffer.size) := by
  have hlook := @walks_lookLegs far s.buffer (s.label.ownedBy s.buffer.id) s.buffer.size
  rcases pendingPatches_eq granted hstack hthread s.buffer.size with
    ⟨hreaches, hpending⟩ | ⟨r, -, -, -, hpending⟩
  · have hpatches : chainPatches ledger name s.buffer.size .wide ++
        chainPatches ledger name s.buffer.size .near ++
          chainPatches ledger name s.buffer.size .short =
        gathered ledger name (patchOf s.buffer.size) [.wide, .near, .short] := by
      simp only [gathered, chainPatches, List.flatMap_cons, List.flatMap_nil, List.append_nil,
        List.append_assoc]
    rw [hpending, hpatches] at hlook ⊢
    obtain ⟨n, hlook⟩ := hlook
    obtain ⟨c, hwritten, hwalks⟩ := hthread.walks granted hstack writes_applyPatches
      (show [Chain.wide, .near, .short].Nodup by decide)
      fun chain _ => visits_patches hstack hthread.chained hreaches chain
    exact ⟨n, c, hlook, hwritten, hwalks⟩
  · rw [hpending] at hlook ⊢
    exact hlook (by rw [Issue.unreached]; exact Failure.noConfusion)

theorem bindsInWalks_iff (granted : s.buffer.Granted) (hstack : ledger.Stacked s.buffer.size)
    (hthread : s.label.owner = none ∨ s.label.owner = some s.buffer.id →
      ∀ heads, s.label.place = .unbound heads → Threaded (Chained far) ledger name s heads)
    (result : EStateM.Result Failure Linking Unit) :
    BindsInWalks (lookLegs far) (patchLegs far) s result ↔ result = bind far s := by
  have hbind : BindsInWalks (lookLegs far) (patchLegs far) s (bind far s) := by
    rw [bind_eq_binding]
    exact binding_inWalks fun hown ⟨heads, hp⟩ => walksTwice granted hstack (hthread hown heads hp)
  exact ⟨fun h => h.unique hbind, fun h => h ▸ hbind⟩

end

end A64

/-! ## x86-64 -/

namespace X86

/-- The displacement and the next site of a four-byte site, which is known to reach. -/
def rereadWide (position : Nat) (b : CodeBuffer) (site : Nat) :
    Except Failure (BitVec 32 × Option Nat) := do
  let link ← ofAsserted (b.loadWord site)
  return (BitVec.ofInt 32 (position - (site + 4)), ← ofAsserted (linkedSite site link.toInt))

/-- The displacement and the next site of a one-byte site, which is known to reach. -/
def rereadNear (position : Nat) (b : CodeBuffer) (site : Nat) :
    Except Failure (BitVec 8 × Option Nat) := do
  let link ← ofAsserted (b.loadByte site)
  return (BitVec.ofInt 8 (position - (site + 1)), ← ofAsserted (linkedSite site link.toInt))

def lookLegs (label : Label) (position : Nat) : List Leg :=
  [.looking (label.head .near) fun b => resolveNear b position,
    .looking (label.head .wide) fun b => resolveWide b position]

def patchChain (position : Nat) : Chain → Nat → Emit (Option Nat)
  | .near => visiting (rereadNear position) storeByte
  | _ => visiting (rereadWide position) storeWord

def patchLegs (label : Label) (position : Nat) : List Leg :=
  [.wide, .near].map fun chain => ⟨label.head chain, patchChain position chain⟩

section

variable {s : Linking} {heads : Heads} {ledger : Ledger} {name : String}

private theorem writes_applyPatches : Writes applyPatches where
  nil := rfl
  cons := by
    rintro ⟨site, bytes⟩ rest
    simp only [applyPatches, bind_assoc, pure_bind]

private theorem visit_patches {α : Type} {top position : Nat} (hstack : ledger.Stacked top)
    {r : Issue} (hr : r ∈ ledger) {c : CodeBuffer} (hready : Ready ledger top r c)
    {resolve : CodeBuffer → Nat → Except Failure (α × Option Nat)} {write : Nat → α → Emit Unit}
    {answer : α} {next : Option Nat} (hresolve : resolve c r.site = .ok (answer, next))
    (hwrite : write r.site answer = store r.site (r.shape.patch r.site position)) :
    ∃ d, visiting resolve write r.site c = .ok next d ∧
      applyPatches [(r.site, r.shape.patch r.site position)] c = .ok () d ∧
      ∃ bytes : List Byte, bytes.length = r.shape.siteLength ∧ Patches [(r.site, bytes)] c d := by
  have hlength := r.shape.length_patch r.site position
  have hinside : r.site + (r.shape.patch r.site position).length ≤ c.size := by
    rw [hlength, ← r.stop_eq, hready.size]
    exact hstack.stop_le hr
  have hends := store_ends hready.granted hinside
  rw [Ends] at hends
  cases hstore : store r.site (r.shape.patch r.site position) c with
  | error e d =>
    rw [hstore] at hends
    exact hends.elim
  | ok _ d =>
    rw [hstore] at hends
    refine ⟨d, ?_, ?_, _, hlength, hends⟩
    · simp only [visiting, hresolve, hwrite, hstore]
    · simp only [applyPatches, bind_pure_unit, hstore]

private theorem visits_patches {top position : Nat} (hstack : ledger.Stacked top)
    (hchained : ∀ r ∈ ledger, r.name = name → Chained r.shape)
    (hreaches : ∀ r ∈ ledger, r.name = name → r.shape.Reaches r.site position) :
    ∀ chain ∈ [Chain.wide, .near], Visits ledger name top chain (patchChain position chain)
      applyPatches (fun r => r.shape.patch r.site position) := by
  rintro chain hchain r older c hs ⟨rfl, hc⟩ hready
  have hr := hs.mem (List.mem_cons_self ..)
  have hpending := hready.pending older hs
  have hstart := hstack.suffix hs
  have hreach := hreaches r hr rfl
  simp only [List.mem_cons, List.not_mem_nil, or_false] at hchain
  rcases hchain with rfl | rfl
  · obtain ⟨opcode, hshape⟩ := eq_long_of_wide (hchained r hr rfl) hc
    have hresolve : rereadWide position c r.site =
        .ok (BitVec.ofInt 32 (r.shape.distance r.site position),
          (Ledger.sites older r.name .wide).head?) := by
      have hyields : r.Yields position _ (resolveWide c position r.site) :=
        resolveWide_yields hready.granted hshape hstart hpending
      have hfits : DispField.rel32.Fits ((position : Int) - (r.site + 4)) := by
        rw [hshape] at hreach
        exact hreach
      rcases hyields with ⟨-, h⟩ | ⟨hbad, -⟩
      · rw [resolveWide, if_pos hfits, hc] at h
        exact h
      · exact absurd hreach hbad
    exact visit_patches hstack hr hready hresolve (by rw [hshape]; rfl)
  · obtain ⟨opcode, hshape⟩ := eq_short_of_near (hchained r hr rfl) hc
    have hresolve : rereadNear position c r.site =
        .ok (BitVec.ofInt 8 (r.shape.distance r.site position),
          (Ledger.sites older r.name .near).head?) := by
      have hyields : r.Yields position _ (resolveNear c position r.site) :=
        resolveNear_yields hready.granted hshape hstart hpending
      have hfits : DispField.rel8.Fits ((position : Int) - (r.site + 1)) := by
        rw [hshape] at hreach
        exact hreach
      rcases hyields with ⟨-, h⟩ | ⟨hbad, -⟩
      · rw [resolveNear, if_pos hfits, hc] at h
        exact h
      · exact absurd hreach hbad
    exact visit_patches hstack hr hready hresolve (by rw [hshape]; rfl)

private theorem walks_lookLegs (b : CodeBuffer) (label : Label) (position : Nat) :
    match pendingPatches b label position with
    | .ok _ => ∃ n, Walks (lookLegs label position) b 0 (.ok n b)
    | .error e => e ≠ .violation .endlessChain →
      Walks (lookLegs label position) b 0 (.error e b) := by
  have hnear := Leg.follows_chain (fun b => resolveNear b position) b label .near 0
  simp only [pendingPatches]
  cases h₁ : label.resolveChain .near (resolveNear b position) with
  | error e =>
    rw [h₁] at hnear
    exact fun hne => hnear.walks_error hne _
  | ok near =>
    rw [h₁] at hnear
    have hwide :=
      Leg.follows_chain (fun b => resolveWide b position) b label .wide (0 + near.length)
    cases h₂ : label.resolveChain .wide (resolveWide b position) with
    | error e =>
      rw [h₂] at hwide
      exact fun hne => hnear.walks (hwide.walks_error hne _)
    | ok wide =>
      rw [h₂] at hwide
      exact ⟨_, hnear.walks (hwide.walks .done)⟩

private theorem walksTwice (granted : s.buffer.Granted) (hstack : ledger.Stacked s.buffer.size)
    (hthread : Threaded Chained ledger name s heads) :
    WalksTwice applyPatches (lookLegs (s.label.ownedBy s.buffer.id) s.buffer.size)
      (patchLegs (s.label.ownedBy s.buffer.id) s.buffer.size) s.buffer
      (pendingPatches s.buffer (s.label.ownedBy s.buffer.id) s.buffer.size) := by
  have hlook := walks_lookLegs s.buffer (s.label.ownedBy s.buffer.id) s.buffer.size
  rcases pendingPatches_eq granted hstack hthread s.buffer.size with
    ⟨hreaches, hpending⟩ | ⟨r, -, -, -, hpending⟩
  · have hpatches : chainPatches ledger name s.buffer.size .wide ++
          chainPatches ledger name s.buffer.size .near =
        gathered ledger name (fun r => r.shape.patch r.site s.buffer.size) [.wide, .near] := by
      simp only [gathered, chainPatches, List.flatMap_cons, List.flatMap_nil, List.append_nil]
    rw [hpending, hpatches] at hlook ⊢
    obtain ⟨n, hlook⟩ := hlook
    obtain ⟨c, hwritten, hwalks⟩ := hthread.walks granted hstack writes_applyPatches (by decide)
      (visits_patches hstack hthread.chained hreaches)
    exact ⟨n, c, hlook, hwritten, hwalks⟩
  · rw [hpending] at hlook ⊢
    exact hlook (by rw [Issue.unreached]; exact Failure.noConfusion)

theorem bindsInWalks_iff (granted : s.buffer.Granted) (hstack : ledger.Stacked s.buffer.size)
    (hthread : s.label.owner = none ∨ s.label.owner = some s.buffer.id →
      ∀ heads, s.label.place = .unbound heads → Threaded Chained ledger name s heads)
    (result : EStateM.Result Failure Linking Unit) :
    BindsInWalks lookLegs patchLegs s result ↔ result = bind s := by
  have hbind : BindsInWalks lookLegs patchLegs s (bind s) := by
    rw [bind_eq_binding]
    exact binding_inWalks fun hown ⟨heads, hp⟩ => walksTwice granted hstack (hthread hown heads hp)
  exact ⟨fun h => h.unique hbind, fun h => h ▸ hbind⟩

end

end X86

/-! ## Sessions -/

/-- Binding by the walks of a target that has labels. -/
def Target.BindsInWalks : Target → Linking → EStateM.Result Failure Linking Unit → Prop
  | .x86 => MachineCode.BindsInWalks X86.lookLegs X86.patchLegs
  | .a64 far => MachineCode.BindsInWalks (A64.lookLegs far) (A64.patchLegs far)
  | .bare => fun _ _ => False

/-- In every state that a session can reach, the two walks end, and their result is what a request
to bind a label gives. -/
theorem Session.serve_bind_inWalks (events : List Event) {i : Nat} {a : Assembler}
    (ha : (empty.run events).assembler? i = some a) (htarget : a.target ≠ .bare) (name : String) :
    ∃ result,
      (∀ other, a.target.BindsInWalks ⟨a.buffer, (empty.run events).labels.get name⟩ other ↔
        other = result) ∧
      a.serve (empty.run events).labels (.bind name) =
        onLabel a.target a.buffer (empty.run events).labels name (fun _ => result) := by
  have hconsistent := consistent_run events
  obtain ⟨-, hagrees⟩ := hconsistent.agrees i a ha
  have hthread := hagrees.threaded htarget (hconsistent.fresh name)
  obtain ⟨target, buffer⟩ := a
  cases target with
  | x86 => exact ⟨_, X86.bindsInWalks_iff hagrees.granted hagrees.stacked hthread, rfl⟩
  | a64 far => exact ⟨_, A64.bindsInWalks_iff hagrees.granted hagrees.stacked hthread, rfl⟩
  | bare => exact absurd rfl htarget

end MachineCode
