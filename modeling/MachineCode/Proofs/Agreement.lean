import MachineCode.Proofs.A64Linking
import MachineCode.Proofs.X86Linking
import MachineCode.Session.Basic

/-!
# Agreement of code, labels and ledger

What ties the code of an assembler and the labels that it owns to its ledger, and why each kind of
work on a label keeps that. A label without an owner has no branches, so it may be adopted first.
-/

namespace MachineCode

/-! ## Labels by name -/

namespace Labels

theorem get_cons (key name : String) (l : Label) (rest : Labels) :
    Labels.get ((key, l) :: rest) name = if name = key then l else rest.get name := by
  simp only [get, find?, List.lookup_cons]
  by_cases h : name = key
  · rw [if_pos h, beq_iff_eq.mpr h]
    rfl
  · rw [if_neg h, beq_eq_false_iff_ne.mpr h]

theorem get_set (labels : Labels) (name other : String) (l : Label) :
    (labels.set name l).get other = if other = name then l else labels.get other := by
  induction labels with
  | nil => rw [set, get_cons]
  | cons entry rest ih =>
    obtain ⟨key, old⟩ := entry
    by_cases hkey : key = name
    · subst hkey
      rw [set, if_pos rfl, get_cons, get_cons]
      split <;> rfl
    · rw [set, if_neg hkey, get_cons, get_cons, ih]
      by_cases h : other = key
      · rw [if_pos h, if_pos h, if_neg (h ▸ hkey)]
      · rw [if_neg h, if_neg h]

theorem get_set_self (labels : Labels) (name : String) (l : Label) :
    (labels.set name l).get name = l := by
  rw [get_set, if_pos rfl]

theorem get_set_of_ne {name other : String} (h : other ≠ name) (labels : Labels) (l : Label) :
    (labels.set name l).get other = labels.get other := by
  rw [get_set, if_neg h]

theorem get_of_mem {labels : Labels} (h : (labels.map Prod.fst).Nodup) {entry : String × Label}
    (hmem : entry ∈ labels) : labels.get entry.1 = entry.2 := by
  induction labels with
  | nil => cases hmem
  | cons first rest ih =>
    obtain ⟨key, l⟩ := first
    rw [List.map_cons, List.nodup_cons] at h
    rw [get_cons]
    rcases List.mem_cons.mp hmem with rfl | hrest
    · rw [if_pos rfl]
    · have hne : entry.1 ≠ key := by
        intro heq
        have hkey : entry.1 ∈ rest.map Prod.fst := List.mem_map_of_mem hrest
        rw [heq] at hkey
        exact h.1 hkey
      rw [if_neg hne]
      exact ih h.2 hrest

private theorem set_set (labels : Labels) (name : String) (l l' : Label) :
    (labels.set name l).set name l' = labels.set name l' := by
  induction labels with
  | nil => simp [set]
  | cons entry rest ih =>
    obtain ⟨key, old⟩ := entry
    by_cases hkey : key = name
    · simp [set, hkey]
    · simp [set, hkey, ih]

end Labels

/-- The label belongs to the buffer and has pending branches. -/
def Label.pendsIn (id : Nat) (l : Label) : Bool :=
  decide (l.owner = some id) && l.isLinked

def Labels.pendingIn (labels : Labels) (id : Nat) : Nat :=
  labels.countP fun entry => entry.2.pendsIn id

theorem Labels.pendingIn_set (labels : Labels) (name : String) (l : Label) (id : Nat) :
    (labels.set name l).pendingIn id + ((labels.get name).pendsIn id).toNat =
      labels.pendingIn id + (l.pendsIn id).toNat := by
  induction labels with
  | nil =>
    have hfresh : (Labels.get [] name).pendsIn id = false := rfl
    rw [hfresh]
    cases h : l.pendsIn id <;> simp [Labels.set, Labels.pendingIn, h]
  | cons entry rest ih =>
    obtain ⟨key, old⟩ := entry
    by_cases hkey : key = name
    · subst hkey
      rw [Labels.get_cons, if_pos rfl]
      cases h : l.pendsIn id <;> cases h' : old.pendsIn id <;>
        simp [Labels.set, Labels.pendingIn, h, h']
    · rw [Labels.get_cons, if_neg (Ne.symm hkey)]
      simp only [Labels.pendingIn] at ih
      simp only [Labels.set, if_neg hkey, Labels.pendingIn, List.countP_cons]
      omega

namespace Labels

theorem get_set_get (labels : Labels) (name other : String) :
    (labels.set name (labels.get name)).get other = labels.get other := by
  rw [get_set]
  split
  · next h => rw [h]
  · rfl

theorem pendingIn_set_get (labels : Labels) (name : String) (id : Nat) :
    (labels.set name (labels.get name)).pendingIn id = labels.pendingIn id :=
  Nat.add_right_cancel (labels.pendingIn_set name (labels.get name) id)

end Labels

private theorem Label.pendsIn_eq {id : Nat} {l : Label} (h : l.owner = some id) :
    l.pendsIn id = l.isLinked := by
  rw [pendsIn, decide_eq_true h, Bool.true_and]

private theorem Label.isLinked_of_bound {l : Label} {p : Nat} (h : l.place = .bound p) :
    l.isLinked = false := by
  simp [isLinked, head, h]

/-! ## Agreement -/

def Target.Chained : Target → Shape → Prop
  | .x86 => X86.Chained
  | .a64 far => A64.Chained far
  | .bare => fun _ => False

/-- The code of an assembler and the labels of its buffer are as the ledger says. -/
structure Agrees (labels : Labels) (a : Assembler) (ledger : Ledger) : Prop where
  granted : a.buffer.Granted
  stacked : ledger.Stacked a.buffer.size
  owned : ∀ r ∈ ledger, (labels.get r.name).owner = some a.buffer.id
  heads : ∀ name heads, (labels.get name).owner = some a.buffer.id →
    (labels.get name).place = .unbound heads →
    ∀ chain, heads.get chain = (ledger.sites name chain).head?
  resolved : ∀ r ∈ ledger, ∀ p, (labels.get r.name).place = .bound p →
    r.Resolved p a.buffer.bytes
  pending : ∀ r older, r :: older <:+ ledger → ∀ heads,
    (labels.get r.name).place = .unbound heads →
    a.target.Chained r.shape ∧ r.Pending older a.buffer.bytes
  within : ∀ name p, (labels.get name).owner = some a.buffer.id →
    (labels.get name).place = .bound p → p ≤ a.buffer.size
  count : a.buffer.unresolved = labels.pendingIn a.buffer.id
  /-- Without an assembler in front of it, a buffer has no labels. -/
  inert : a.target = .bare → ∀ name, (labels.get name).owner ≠ some a.buffer.id

private theorem Issue.Pending.append {r : Issue} {older : Ledger} {code : Array Byte}
    (h : r.Pending older code) (tail : Array Byte) : r.Pending older (code ++ tail) :=
  ⟨h.1, h.2.append tail⟩

private theorem Issue.Resolved.append {r : Issue} {target : Nat} {code : Array Byte}
    (h : r.Resolved target code) (tail : Array Byte) : r.Resolved target (code ++ tail) :=
  ⟨h.1, h.2.append tail⟩

namespace Agrees

variable {labels : Labels} {a : Assembler} {ledger : Ledger}

theorem create (hgranted : a.buffer.Granted)
    (hnone : ∀ name, (labels.get name).owner ≠ some a.buffer.id)
    (hcount : a.buffer.unresolved = labels.pendingIn a.buffer.id) : Agrees labels a [] where
  granted := hgranted
  stacked := trivial
  owned _ hr := nomatch hr
  heads name _ hown := absurd hown (hnone name)
  resolved _ hr := nomatch hr
  pending _ _ hs := nomatch hs.mem (List.mem_cons_self ..)
  within name _ hown := absurd hown (hnone name)
  count := hcount
  inert _ := hnone

theorem congr (h : Agrees labels a ledger) {labels' : Labels}
    (hsame : ∀ name, (labels.get name).owner = some a.buffer.id ∨
      (labels'.get name).owner = some a.buffer.id → labels'.get name = labels.get name)
    (hcount : labels'.pendingIn a.buffer.id = labels.pendingIn a.buffer.id) :
    Agrees labels' a ledger where
  granted := h.granted
  stacked := h.stacked
  owned r hr := by
    rw [hsame _ (.inl (h.owned r hr))]
    exact h.owned r hr
  heads name heads hown hp := by
    have hl := hsame name (.inr hown)
    rw [hl] at hown hp
    exact h.heads name heads hown hp
  resolved r hr p hp := by
    rw [hsame _ (.inl (h.owned r hr))] at hp
    exact h.resolved r hr p hp
  pending r older hs heads hp := by
    rw [hsame _ (.inl (h.owned r (hs.mem (List.mem_cons_self ..))))] at hp
    exact h.pending r older hs heads hp
  within name p hown hp := by
    have hl := hsame name (.inr hown)
    rw [hl] at hown hp
    exact h.within name p hown hp
  count := by rw [hcount, h.count]
  inert hbare name hown := by
    rw [hsame name (.inr hown)] at hown
    exact h.inert hbare name hown

theorem grows (h : Agrees labels a ledger) {b : CodeBuffer} (hb : CodeBuffer.Grows a.buffer b) :
    Agrees labels ⟨a.target, b⟩ ledger := by
  obtain ⟨tail, happ⟩ := hb
  have hsize : a.buffer.size ≤ b.size := by
    rw [happ.size]
    exact Nat.le_add_right _ _
  constructor
  case granted => exact happ.granted h.granted
  case stacked => exact h.stacked.mono hsize
  case owned =>
    intro r hr
    rw [happ.id]
    exact h.owned r hr
  case heads =>
    intro name heads hown hp
    rw [happ.id] at hown
    exact h.heads name heads hown hp
  case resolved =>
    intro r hr p hp
    rw [happ.bytes]
    exact (h.resolved r hr p hp).append tail
  case pending =>
    intro r older hs heads hp
    obtain ⟨hchained, hpending⟩ := h.pending r older hs heads hp
    rw [happ.bytes]
    exact ⟨hchained, hpending.append tail⟩
  case within =>
    intro name p hown hp
    rw [happ.id] at hown
    exact Nat.le_trans (h.within name p hown hp) hsize
  case count => rw [happ.unresolved, happ.id, h.count]
  case inert =>
    rw [happ.id]
    exact h.inert

theorem retains (h : Agrees labels a ledger) (hbare : a.target = .bare) {b : CodeBuffer}
    (hb : CodeBuffer.Retains a.buffer b) : Agrees labels ⟨a.target, b⟩ ledger := by
  have hnone : ∀ name, (labels.get name).owner ≠ some b.id := by
    rw [hb.id]
    exact h.inert hbare
  have hempty : ledger = [] := by
    cases ledger with
    | nil => rfl
    | cons r older => exact absurd (h.owned r (List.mem_cons_self ..)) (h.inert hbare r.name)
  rw [hempty]
  exact create (hb.granted h.granted) hnone (by rw [hb.unresolved, hb.id, h.count])

theorem adopt (h : Agrees labels a ledger) (htarget : a.target ≠ .bare) {name : String}
    (hfresh : (labels.get name).owner = none → (labels.get name).place = .unbound Heads.none)
    (hown : (labels.get name).owner = none ∨ (labels.get name).owner = some a.buffer.id) :
    Agrees (labels.set name ((labels.get name).ownedBy a.buffer.id)) a ledger := by
  rcases hown with hnone | hsome
  · have hplace := hfresh hnone
    have hne : ∀ r ∈ ledger, r.name ≠ name := by
      intro r hr heq
      have howner := h.owned r hr
      rw [heq, hnone] at howner
      cases howner
    have hsites : ∀ chain, ledger.sites name chain = [] := by
      intro chain
      rw [Ledger.sites, List.map_eq_nil_iff, List.filter_eq_nil_iff]
      intro r hr
      simp only [Ledger.OnChain, hne r hr, false_and, decide_false, Bool.false_eq_true,
        not_false_eq_true]
    have hself : ((labels.get name).ownedBy a.buffer.id).place = .unbound Heads.none := hplace
    have hlinked : (labels.get name).isLinked = false := by
      simp [Label.isLinked, Label.head, hplace, Heads.get, Heads.none]
    constructor
    case granted => exact h.granted
    case stacked => exact h.stacked
    case owned =>
      intro r hr
      rw [Labels.get_set_of_ne (hne r hr)]
      exact h.owned r hr
    case heads =>
      intro n heads hown hp chain
      by_cases hn : n = name
      · subst hn
        rw [Labels.get_set_self, hself] at hp
        cases hp
        rw [hsites]
        cases chain <;> rfl
      · rw [Labels.get_set_of_ne hn] at hown hp
        exact h.heads n heads hown hp chain
    case resolved =>
      intro r hr p hp
      rw [Labels.get_set_of_ne (hne r hr)] at hp
      exact h.resolved r hr p hp
    case pending =>
      intro r older hs heads hp
      rw [Labels.get_set_of_ne (hne r (hs.mem (List.mem_cons_self ..)))] at hp
      exact h.pending r older hs heads hp
    case within =>
      intro n p hown hp
      by_cases hn : n = name
      · subst hn
        rw [Labels.get_set_self, hself] at hp
        cases hp
      · rw [Labels.get_set_of_ne hn] at hown hp
        exact h.within n p hown hp
    case count =>
      have hset := labels.pendingIn_set name ((labels.get name).ownedBy a.buffer.id) a.buffer.id
      have hbefore : (labels.get name).pendsIn a.buffer.id = false := by
        simp [Label.pendsIn, hlinked]
      have hafter : ((labels.get name).ownedBy a.buffer.id).pendsIn a.buffer.id = false := by
        rw [Label.pendsIn_eq rfl]
        exact hlinked
      rw [hbefore, hafter] at hset
      rw [h.count]
      exact (Nat.add_right_cancel hset).symm
    case inert => exact fun hbare => absurd hbare htarget
  · have hsame : (labels.get name).ownedBy a.buffer.id = labels.get name := by
      simp only [Label.ownedBy, ← hsome]
    rw [hsame]
    exact h.congr (fun n _ => labels.get_set_get name n) (labels.pendingIn_set_get name _)

/-- A branch to a bound label. -/
theorem place_bound (h : Agrees labels a ledger) {name : String} {shape : Shape} {p : Nat}
    {b : CodeBuffer} (hown : (labels.get name).owner = some a.buffer.id)
    (hp : (labels.get name).place = .bound p)
    (hreach : shape.Reaches (a.buffer.size + shape.opcode.length) p)
    (happ : CodeBuffer.Appends
      (shape.opcode ++ shape.patch (a.buffer.size + shape.opcode.length) p).toArray a.buffer b) :
    Agrees labels ⟨a.target, b⟩ (⟨name, a.buffer.size, shape⟩ :: ledger) := by
  have hkept := h.grows ⟨_, happ⟩
  have hsize := happ.size
  simp only [List.size_toArray, List.length_append, Shape.length_patch] at hsize
  constructor
  case granted => exact hkept.granted
  case stacked => exact ⟨Nat.le_of_eq hsize.symm, h.stacked⟩
  case owned =>
    intro r hr
    rcases List.mem_cons.mp hr with rfl | hr
    · exact happ.id ▸ hown
    · exact hkept.owned r hr
  case heads =>
    intro n heads hn hp' chain
    have hne : name ≠ n := by
      rintro rfl
      rw [hp] at hp'
      cases hp'
    rw [Ledger.sites_cons_of_not_onChain (fun hon => hne hon.1)]
    exact hkept.heads n heads hn hp' chain
  case resolved =>
    intro r hr p' hp'
    rcases List.mem_cons.mp hr with rfl | hr
    · rw [hp] at hp'
      cases hp'
      exact ⟨hreach, happ.holds⟩
    · exact hkept.resolved r hr p' hp'
  case pending =>
    intro r older hs heads hp'
    rcases List.suffix_cons_iff.mp hs with heq | hs
    · cases heq
      rw [hp] at hp'
      cases hp'
    · exact hkept.pending r older hs heads hp'
  case within => exact hkept.within
  case count => exact hkept.count
  case inert => exact hkept.inert

/-- A branch to an unbound label, which becomes the head of its chain. -/
theorem place_unbound (h : Agrees labels a ledger) (htarget : a.target ≠ .bare) {name : String}
    {shape : Shape} {heads : Heads} {b : CodeBuffer} {l : Label}
    (hown : (labels.get name).owner = some a.buffer.id)
    (hp : (labels.get name).place = .unbound heads) (hchained : a.target.Chained shape)
    (hfits : shape.linkField.Fits
      (backLink (a.buffer.size + shape.opcode.length) (heads.get shape.chain)))
    (happ : CodeBuffer.Appends
      (shape.opcode ++ shape.link
        (backLink (a.buffer.size + shape.opcode.length) (heads.get shape.chain))).toArray
      a.buffer (b.counting a.buffer.unresolved))
    (hcount : b.unresolved = a.buffer.unresolved + if (labels.get name).isUnused then 1 else 0)
    (hl : l = ⟨.unbound (heads.set shape.chain (a.buffer.size + shape.opcode.length)),
      some a.buffer.id⟩) :
    Agrees (labels.set name l) ⟨a.target, b⟩ (⟨name, a.buffer.size, shape⟩ :: ledger) := by
  have hkept := h.grows ⟨_, happ⟩
  have hid : b.id = a.buffer.id := happ.id
  have hsize : b.size = _ := happ.size
  simp only [List.size_toArray, List.length_append, Shape.length_link] at hsize
  have hplace : l.place = _ := congrArg Label.place hl
  have howner : l.owner = _ := congrArg Label.owner hl
  have hbound : ∀ n p, ((labels.set name l).get n).place = .bound p →
      n ≠ name ∧ (labels.get n).place = .bound p := by
    intro n p hn
    by_cases hname : n = name
    · subst hname
      rw [Labels.get_set_self, hplace] at hn
      cases hn
    · rw [Labels.get_set_of_ne hname] at hn
      exact ⟨hname, hn⟩
  have hunbound : ∀ n heads', ((labels.set name l).get n).place = .unbound heads' →
      ∃ heads₀, (labels.get n).place = .unbound heads₀ := by
    intro n heads' hn
    by_cases hname : n = name
    · subst hname
      exact ⟨heads, hp⟩
    · rw [Labels.get_set_of_ne hname] at hn
      exact ⟨heads', hn⟩
  constructor
  case granted => exact hkept.granted
  case stacked => exact ⟨Nat.le_of_eq hsize.symm, h.stacked⟩
  case owned =>
    intro r hr
    by_cases hname : r.name = name
    · rw [hname, Labels.get_set_self, howner, hid]
    · rw [Labels.get_set_of_ne hname]
      rcases List.mem_cons.mp hr with rfl | hr
      · exact absurd rfl hname
      · exact hkept.owned r hr
  case heads =>
    intro n heads' hn hp' chain
    by_cases hname : n = name
    · subst hname
      rw [Labels.get_set_self, hplace] at hp'
      cases hp'
      by_cases hc : shape.chain = chain
      · rw [Ledger.sites_cons_of_onChain ⟨rfl, hc⟩, hc]
        cases chain <;> rfl
      · rw [Ledger.sites_cons_of_not_onChain (fun hon => hc hon.2), ← h.heads n heads hown hp]
        cases hs : shape.chain <;> cases chain <;> simp_all [Heads.get, Heads.set]
    · rw [Labels.get_set_of_ne hname] at hn hp'
      rw [Ledger.sites_cons_of_not_onChain (fun hon => hname hon.1.symm)]
      exact hkept.heads n heads' hn hp' chain
  case resolved =>
    intro r hr p hp'
    obtain ⟨hname, hp₀⟩ := hbound r.name p hp'
    rcases List.mem_cons.mp hr with rfl | hr
    · exact absurd rfl hname
    · exact hkept.resolved r hr p hp₀
  case pending =>
    intro r older hs heads' hp'
    rcases List.suffix_cons_iff.mp hs with heq | hs
    · cases heq
      refine ⟨hchained, ?_⟩
      rw [h.heads name heads hown hp] at hfits happ
      exact ⟨hfits, happ.holds⟩
    · obtain ⟨heads₀, hp₀⟩ := hunbound r.name heads' hp'
      exact hkept.pending r older hs heads₀ hp₀
  case within =>
    intro n p hn hp'
    obtain ⟨hname, hp₀⟩ := hbound n p hp'
    rw [Labels.get_set_of_ne hname] at hn
    exact hkept.within n p hn hp₀
  case count =>
    have hset := labels.pendingIn_set name l a.buffer.id
    have hlinked : l.isLinked = true := by
      rw [hl]
      cases shape.chain <;> simp [Label.isLinked, Label.head, Heads.get, Heads.set]
    rw [Label.pendsIn_eq hown, Label.pendsIn_eq howner, hlinked] at hset
    rw [hid, hcount, h.count, Label.isUnused_eq hp]
    cases hb : (labels.get name).isLinked <;> simp [hb] at hset ⊢ <;> omega
  case inert => exact fun hbare => absurd hbare htarget

/-- The label is bound to the end of the code and its branches are patched. -/
theorem settle (h : Agrees labels a ledger) (htarget : a.target ≠ .bare) {name : String}
    {heads : Heads} {edits : List (Nat × List Byte)} {b : CodeBuffer}
    (hown : (labels.get name).owner = some a.buffer.id)
    (hp : (labels.get name).place = .unbound heads)
    (hreaches : ∀ r ∈ ledger, r.name = name → r.shape.Reaches r.site a.buffer.size)
    (hlist : PatchList ledger name a.buffer.size edits)
    (hpatches : CodeBuffer.Patches edits a.buffer (b.counting a.buffer.unresolved))
    (hcount : b.unresolved = a.buffer.unresolved - if (labels.get name).isUnused then 0 else 1) :
    Agrees (labels.set name ⟨.bound a.buffer.size, some a.buffer.id⟩) ⟨a.target, b⟩ ledger := by
  have hid : b.id = a.buffer.id := hpatches.id
  have hsize : b.size = a.buffer.size := hpatches.size
  have hbytes : b.bytes = edited a.buffer.bytes edits := hpatches.bytes
  have hinside : ∀ e ∈ edits, e.1 + e.2.length ≤ a.buffer.bytes.size := by
    intro e he
    rw [CodeBuffer.size_bytes]
    exact hlist.inside h.stacked he
  have hother : ∀ r ∈ ledger, r.name ≠ name → ∀ bytes, bytes.length = r.shape.length →
      Holds a.buffer.bytes r.start bytes → Holds b.bytes r.start bytes := by
    intro r hr hne bytes hlen hholds
    rw [hbytes]
    apply hholds.congr
    intro j hfrom hto
    rw [hlen] at hto
    exact hlist.getElem?_kept h.stacked hr hfrom hto (.inl hne) _
  constructor
  case granted => exact hpatches.granted h.granted
  case stacked => exact hsize ▸ h.stacked
  case owned =>
    intro r hr
    by_cases hname : r.name = name
    · rw [hname, Labels.get_set_self, hid]
    · rw [Labels.get_set_of_ne hname, hid]
      exact h.owned r hr
  case heads =>
    intro n heads' hn hp' chain
    by_cases hname : n = name
    · subst hname
      rw [Labels.get_set_self] at hp'
      cases hp'
    · rw [Labels.get_set_of_ne hname] at hn hp'
      rw [hid] at hn
      exact h.heads n heads' hn hp' chain
  case resolved =>
    intro r hr p hp'
    by_cases hname : r.name = name
    · rw [hname, Labels.get_set_self] at hp'
      cases hp'
      refine ⟨hreaches r hr hname, holds_append.mpr ⟨?_, ?_⟩⟩
      · obtain ⟨older, hs⟩ := Ledger.exists_suffix_of_mem hr
        have hpending := (h.pending r older hs heads (hname ▸ hp)).2.2
        rw [hbytes]
        apply (holds_append.mp hpending).1.congr
        intro j hfrom hto
        have hlt := r.site_lt_stop
        simp only [Issue.site] at hlt
        exact hlist.getElem?_kept h.stacked hr hfrom (by omega) (.inr hto) _
      · rw [hbytes]
        exact holds_edited (hlist.agree h.stacked) hinside (hlist.complete r hr hname)
    · rw [Labels.get_set_of_ne hname] at hp'
      obtain ⟨hreach, hholds⟩ := h.resolved r hr p hp'
      exact ⟨hreach, hother r hr hname _ (by simp [Shape.length]) hholds⟩
  case pending =>
    intro r older hs heads' hp'
    have hr := hs.mem (List.mem_cons_self ..)
    by_cases hname : r.name = name
    · rw [hname, Labels.get_set_self] at hp'
      cases hp'
    · rw [Labels.get_set_of_ne hname] at hp'
      obtain ⟨hchained, hfits, hholds⟩ := h.pending r older hs heads' hp'
      exact ⟨hchained, hfits, hother r hr hname _ (by simp [Shape.length]) hholds⟩
  case within =>
    intro n p hn hp'
    by_cases hname : n = name
    · subst hname
      rw [Labels.get_set_self] at hp'
      cases hp'
      exact Nat.le_of_eq hsize.symm
    · rw [Labels.get_set_of_ne hname] at hn hp'
      rw [hid] at hn
      rw [hsize]
      exact h.within n p hn hp'
  case count =>
    have hset := labels.pendingIn_set name ⟨.bound a.buffer.size, some a.buffer.id⟩ a.buffer.id
    have hsettled : Label.pendsIn a.buffer.id ⟨.bound a.buffer.size, some a.buffer.id⟩ = false := by
      rw [Label.pendsIn_eq rfl, Label.isLinked_of_bound rfl]
    rw [Label.pendsIn_eq hown, hsettled] at hset
    rw [hid, hcount, h.count, Label.isUnused_eq hp]
    cases hb : (labels.get name).isLinked <;> simp [hb] at hset ⊢ <;> omega
  case inert => exact fun hbare => absurd hbare htarget

/-- A label that the buffer may bind has its chains in the code. -/
theorem threaded (h : Agrees labels a ledger) (htarget : a.target ≠ .bare) {name : String}
    (hfresh : (labels.get name).owner = none → (labels.get name).place = .unbound Heads.none)
    (hown : (labels.get name).owner = none ∨ (labels.get name).owner = some a.buffer.id)
    (heads : Heads) (hp : (labels.get name).place = .unbound heads) :
    Threaded a.target.Chained ledger name ⟨a.buffer, labels.get name⟩ heads := by
  have hadopted := h.adopt htarget hfresh hown
  have hself := labels.get_set_self name ((labels.get name).ownedBy a.buffer.id)
  constructor
  case place => exact hp
  case heads => exact hadopted.heads name heads (by rw [hself]; rfl) (by rw [hself]; exact hp)
  case chained =>
    intro r hr hname
    obtain ⟨older, hs⟩ := Ledger.exists_suffix_of_mem hr
    exact (h.pending r older hs heads (hname ▸ hp)).1
  case pending =>
    intro r older hs hname
    exact (h.pending r older hs heads (hname ▸ hp)).2
  case count =>
    intro hlinked
    have hlinked : ((labels.get name).ownedBy a.buffer.id).isLinked = true := hlinked
    have hset := (labels.set name ((labels.get name).ownedBy a.buffer.id)).pendingIn_set name
      Label.fresh a.buffer.id
    rw [hself, Label.pendsIn_eq rfl, hlinked, ← hadopted.count] at hset
    change 0 < a.buffer.unresolved
    have hnone : Label.fresh.pendsIn a.buffer.id = false := rfl
    rw [hnone] at hset
    simp only [Bool.toNat_true, Bool.toNat_false] at hset
    omega

/-! ## Work on a label -/

section

variable {name : String} {t : Linking}

theorem refused (h : Agrees labels a ledger) (htarget : a.target ≠ .bare)
    (hfresh : (labels.get name).owner = none → (labels.get name).place = .unbound Heads.none)
    (ht : Refused ⟨a.buffer, labels.get name⟩ t) :
    Agrees (labels.set name t.label) ⟨a.target, t.buffer⟩ ledger := by
  have hlabel : Agrees (labels.set name t.label) a ledger := by
    rcases ht.label with hsame | ⟨hnone, hadopted⟩
    · rw [hsame]
      exact h.congr (fun n _ => labels.get_set_get name n) (labels.pendingIn_set_get name _)
    · rw [hadopted]
      exact h.adopt htarget hfresh (.inl hnone)
  exact hlabel.grows ⟨_, ht.buffer⟩

theorem placed (h : Agrees labels a ledger) (htarget : a.target ≠ .bare)
    (hfresh : (labels.get name).owner = none → (labels.get name).place = .unbound Heads.none)
    {shape : Shape} (hchained : (labels.get name).position? = none → a.target.Chained shape)
    (ht : Placed shape ⟨a.buffer, labels.get name⟩ t) :
    Agrees (labels.set name t.label) ⟨a.target, t.buffer⟩
      (⟨name, a.buffer.size, shape⟩ :: ledger) := by
  have hadopted := h.adopt htarget hfresh ht.adoptable
  have hself := labels.get_set_self name ((labels.get name).ownedBy a.buffer.id)
  rw [← labels.set_set name ((labels.get name).ownedBy a.buffer.id)]
  cases hp : (labels.get name).place with
  | bound p =>
    obtain ⟨hplace, hreach, happ⟩ := ht.bound p hp
    have hsame : t.label = (labels.get name).ownedBy a.buffer.id := by
      rw [Label.ownedBy, hp, ← hplace, ← ht.owner]
    have hbranch := hadopted.place_bound (by rw [hself]; rfl) (by rw [hself]; exact hp) hreach happ
    rw [hsame, labels.set_set]
    exact hbranch
  | unbound heads =>
    obtain ⟨hplace, -, hfits, happ, hcount⟩ := ht.unbound heads hp
    have hnone : (labels.get name).position? = none := by
      simp only [Label.position?, hp]
    refine hadopted.place_unbound htarget (by rw [hself]; rfl) (by rw [hself]; exact hp)
      (hchained hnone) hfits happ (by rw [hself]; exact hcount) ?_
    rw [← hplace, ← ht.owner]

theorem bound (h : Agrees labels a ledger) (htarget : a.target ≠ .bare)
    (hfresh : (labels.get name).owner = none → (labels.get name).place = .unbound Heads.none)
    (ht : Bound ledger name ⟨a.buffer, labels.get name⟩ t) :
    Agrees (labels.set name t.label) ⟨a.target, t.buffer⟩ ledger := by
  have hadopted := h.adopt htarget hfresh ht.adoptable
  have hself := labels.get_set_self name ((labels.get name).ownedBy a.buffer.id)
  obtain ⟨heads, hp⟩ := ht.unbound
  obtain ⟨edits, hlist, hpatches⟩ := ht.patched
  rw [← labels.set_set name ((labels.get name).ownedBy a.buffer.id), ht.label]
  exact hadopted.settle htarget (by rw [hself]; rfl) (by rw [hself]; exact hp) ht.reaches hlist
    hpatches (by rw [hself]; exact ht.unresolved)

end

end Agrees

end MachineCode
