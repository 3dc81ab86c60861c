import MachineCode.A64.Branch
import MachineCode.Proofs.BranchWord
import MachineCode.Proofs.Buffer

/-!
# The ledger of a buffer

The ledger of a buffer holds every branch that was emitted to a label, the newest first. The code
and the labels are read against it: a branch whose label is bound holds its displacement, and one
whose label is not bound holds the link to the branch before it on the same chain.
-/

namespace MachineCode

def A64.fieldOf (word : Word) : DispField :=
  ((A64.BranchKind.ofWord? word).map A64.BranchKind.field).getD .imm19

/-- The guard of an A64 branch word: the opposite test, over the next word. -/
def A64.guardOf (word : Word) : Word :=
  (A64.fieldOf word).insert 8 (A64.invertBranch word)

inductive Shape where
  /-- An x86-64 opcode and a displacement of one byte. -/
  | short (opcode : List Byte)
  /-- An x86-64 opcode and a displacement of four bytes. -/
  | long (opcode : List Byte)
  /-- An A64 word. -/
  | single (word : Word)
  /-- The guard of an A64 word and a `b`. -/
  | pair (word : Word)
  deriving DecidableEq

namespace Shape

def opcode : Shape → List Byte
  | .short opcode | .long opcode => opcode
  | .single _ | .pair _ => []

def siteLength : Shape → Nat
  | .short _ => 1
  | .long _ | .single _ => 4
  | .pair _ => 8

def length (shape : Shape) : Nat :=
  shape.opcode.length + shape.siteLength

def chain : Shape → Chain
  | .short _ => .near
  | .long _ | .pair _ => .wide
  | .single word => A64.chainOf (A64.fieldOf word)

/-- The field that holds the link of a pending branch. -/
def linkField : Shape → DispField
  | .short _ => .rel8
  | .long _ => .rel32
  | .single word => A64.fieldOf word
  | .pair _ => .imm26

/-- The bytes from the site on while the branch is pending. -/
def link (shape : Shape) (distance : Int) : List Byte :=
  match shape with
  | .short _ => [BitVec.ofInt 8 distance]
  | .long _ => littleEndian 4 (BitVec.ofInt 32 distance)
  | .single word => littleEndian 4 ((A64.fieldOf word).insert distance word)
  | .pair word =>
    littleEndian 4 (A64.guardOf word) ++ littleEndian 4 (DispField.imm26.insert distance A64.wordB)

/-- The way from the site to the target, as its field counts it. -/
def distance (shape : Shape) (site target : Nat) : Int :=
  match shape with
  | .short _ => target - (site + 1)
  | .long _ => target - (site + 4)
  | .single _ | .pair _ => target - site

/-- The bytes from the site on once the target is known. -/
def patch (shape : Shape) (site target : Nat) : List Byte :=
  match shape with
  | .short _ => [BitVec.ofInt 8 (shape.distance site target)]
  | .long _ => littleEndian 4 (BitVec.ofInt 32 (shape.distance site target))
  | .single word => littleEndian 4 ((A64.fieldOf word).insert (shape.distance site target) word)
  | .pair word =>
    if (A64.fieldOf word).Fits (shape.distance site target) then
      littleEndian 4 ((A64.fieldOf word).insert (shape.distance site target) word) ++
        littleEndian 4 A64.wordNop
    else
      littleEndian 4 (A64.guardOf word) ++
        littleEndian 4 (DispField.imm26.insert (shape.distance site target - 4) A64.wordB)

/-- Some field of the branch can hold the way to the target. -/
def Reaches (shape : Shape) (site target : Nat) : Prop :=
  match shape with
  | .short _ => DispField.rel8.Fits (shape.distance site target)
  | .long _ => DispField.rel32.Fits (shape.distance site target)
  | .single word => (A64.fieldOf word).Fits (shape.distance site target)
  | .pair word => (A64.fieldOf word).Fits (shape.distance site target) ∨
      DispField.imm26.Fits (shape.distance site target - 4)

instance (shape : Shape) (site target : Nat) : Decidable (shape.Reaches site target) :=
  match shape with
  | .short _ | .long _ | .single _ => inferInstanceAs (Decidable (DispField.Fits _ _))
  | .pair _ => inferInstanceAs (Decidable (_ ∨ _))

@[simp] theorem length_link (shape : Shape) (distance : Int) :
    (shape.link distance).length = shape.siteLength := by
  cases shape <;> simp [link, siteLength]

@[simp] theorem length_patch (shape : Shape) (site target : Nat) :
    (shape.patch site target).length = shape.siteLength := by
  cases shape with
  | pair word =>
    simp only [patch, siteLength]
    split <;> simp
  | _ => simp [patch, siteLength]

theorem siteLength_pos (shape : Shape) : 0 < shape.siteLength := by
  cases shape <;> simp [siteLength]

end Shape

structure Issue where
  name : String
  /-- Where the instruction starts. -/
  start : Nat
  shape : Shape
  deriving DecidableEq

namespace Issue

/-- The offset that a chain knows the branch by. -/
def site (r : Issue) : Nat :=
  r.start + r.shape.opcode.length

def stop (r : Issue) : Nat :=
  r.start + r.shape.length

theorem start_le_site (r : Issue) : r.start ≤ r.site :=
  Nat.le_add_right _ _

theorem stop_eq (r : Issue) : r.stop = r.site + r.shape.siteLength := by
  simp only [stop, site, Shape.length]
  omega

theorem site_lt_stop (r : Issue) : r.site < r.stop := by
  have := r.shape.siteLength_pos
  rw [stop_eq]
  omega

end Issue

/-- The branches emitted to labels, the newest first. -/
abbrev Ledger := List Issue

namespace Ledger

/-- The branch is to the named label and on the given chain. -/
def OnChain (name : String) (chain : Chain) (r : Issue) : Prop :=
  r.name = name ∧ r.shape.chain = chain

instance (name : String) (chain : Chain) : DecidablePred (OnChain name chain) :=
  fun _ => inferInstanceAs (Decidable (_ ∧ _))

def sites (ledger : Ledger) (name : String) (chain : Chain) : List Nat :=
  (ledger.filter (OnChain name chain)).map Issue.site

/-- Each branch ends before the newer ones start, and the newest ends at `top` or before. -/
def Stacked : Ledger → Nat → Prop
  | [], _ => True
  | r :: older, top => r.stop ≤ top ∧ Stacked older r.start

theorem Stacked.mono {ledger : Ledger} {top top' : Nat} (h : Stacked ledger top)
    (hle : top ≤ top') : Stacked ledger top' := by
  cases ledger with
  | nil => trivial
  | cons r older => exact ⟨Nat.le_trans h.1 hle, h.2⟩

theorem Stacked.stop_le {ledger : Ledger} {top : Nat} (h : Stacked ledger top) {r : Issue}
    (hr : r ∈ ledger) : r.stop ≤ top := by
  induction ledger generalizing top with
  | nil => simp at hr
  | cons first older ih =>
    rcases List.mem_cons.mp hr with rfl | hmem
    · exact h.1
    · have hfirst := first.start_le_site
      have := first.site_lt_stop
      have := ih h.2 hmem
      have := h.1
      omega

theorem Stacked.suffix {ledger : Ledger} {top : Nat} (h : Stacked ledger top) {r : Issue}
    {older : Ledger} (hr : r :: older <:+ ledger) : Stacked older r.start := by
  induction ledger generalizing top with
  | nil => simp at hr
  | cons first rest ih =>
    rcases List.suffix_cons_iff.mp hr with heq | hrest
    · cases heq
      exact h.2
    · exact ih h.2 hrest

theorem Stacked.apart {ledger : Ledger} {top : Nat} (h : Stacked ledger top) {r r' : Issue}
    (hr : r ∈ ledger) (hr' : r' ∈ ledger) : r = r' ∨ r.stop ≤ r'.start ∨ r'.stop ≤ r.start := by
  induction ledger generalizing top with
  | nil => simp at hr
  | cons first older ih =>
    rcases List.mem_cons.mp hr with rfl | hmem <;> rcases List.mem_cons.mp hr' with rfl | hmem'
    · exact .inl rfl
    · exact .inr (.inr (h.2.stop_le hmem'))
    · exact .inr (.inl (h.2.stop_le hmem))
    · exact ih h.2 hmem hmem'

theorem exists_suffix_of_mem {ledger : Ledger} {r : Issue} (hr : r ∈ ledger) :
    ∃ older, r :: older <:+ ledger := by
  obtain ⟨newer, older, hsplit⟩ := List.append_of_mem hr
  exact ⟨older, newer, hsplit.symm⟩

theorem sites_cons_of_onChain {name : String} {chain : Chain} {r : Issue} (h : OnChain name chain r)
    (older : Ledger) : sites (r :: older) name chain = r.site :: sites older name chain := by
  simp only [sites, List.filter_cons, decide_eq_true h, if_true, List.map_cons]

theorem sites_cons_of_not_onChain {name : String} {chain : Chain} {r : Issue}
    (h : ¬OnChain name chain r) (older : Ledger) :
    sites (r :: older) name chain = sites older name chain := by
  simp only [sites, List.filter_cons, decide_eq_false h, Bool.false_eq_true, if_false]

theorem Stacked.site_lt {ledger : Ledger} {top : Nat} (h : Stacked ledger top) {name : String}
    {chain : Chain} {site : Nat} (hs : site ∈ ledger.sites name chain) : site < top := by
  obtain ⟨r, hr, rfl⟩ := List.mem_map.mp hs
  exact Nat.lt_of_lt_of_le r.site_lt_stop (h.stop_le (List.mem_filter.mp hr).1)

end Ledger

/-- The way from a site back to the site before it on the chain, or zero. -/
def backLink (site : Nat) : Option Nat → Int
  | none => 0
  | some head => head - site

/-- The link of a branch that is pending: back to the newest of the older branches on its chain. -/
def Issue.backLink (r : Issue) (older : Ledger) : Int :=
  MachineCode.backLink r.site (Ledger.sites older r.name r.shape.chain).head?

/-- The branch holds its link. -/
def Issue.Pending (r : Issue) (older : Ledger) (code : Array Byte) : Prop :=
  r.shape.linkField.Fits (r.backLink older) ∧
    Holds code r.start (r.shape.opcode ++ r.shape.link (r.backLink older))

theorem Issue.Pending.holds_link {r : Issue} {older : Ledger} {code : Array Byte}
    (h : r.Pending older code) : Holds code r.site (r.shape.link (r.backLink older)) :=
  (holds_append.mp h.2).2

/-- The branch holds the way to its target. -/
def Issue.Resolved (r : Issue) (target : Nat) (code : Array Byte) : Prop :=
  r.shape.Reaches r.site target ∧
    Holds code r.start (r.shape.opcode ++ r.shape.patch r.site target)

theorem linkBack_eq_ok {site : Nat} {head : Option Nat} {link : Int}
    (h : linkBack site head = .ok link) :
    link = backLink site head ∧ ∀ s, head = some s → s < site := by
  cases head with
  | none => exact ⟨(Except.ok.inj h).symm, fun s hs => by cases hs⟩
  | some head =>
    simp only [linkBack] at h
    split at h
    · next hlt =>
      refine ⟨(Except.ok.inj h).symm, fun s hs => ?_⟩
      cases hs
      exact hlt
    · cases h

theorem linkBack_eq_error {site : Nat} {head : Option Nat} {v : Violation}
    (h : linkBack site head = .error v) :
    ∃ s, head = some s ∧ site ≤ s ∧ v = .siteBeforeHead := by
  cases head with
  | none => cases h
  | some head =>
    simp only [linkBack] at h
    split at h
    · cases h
    · next hle =>
      cases h
      exact ⟨head, rfl, Nat.le_of_not_lt hle, rfl⟩

private theorem linkedSite_backLink {site : Nat} {head : Option Nat}
    (h : ∀ s, head = some s → s < site) :
    linkedSite site (backLink site head) = .ok head := by
  cases head with
  | none => rfl
  | some s =>
    have hs := h s rfl
    have hlink : backLink site (some s) = s - site := rfl
    have hback : (site : Int) + backLink site (some s) = s := by omega
    unfold linkedSite
    rw [if_neg (by omega), if_neg (by omega), if_neg (by omega), hback, Int.toNat_natCast]

theorem Issue.linkedSite_backLink {r : Issue} {older : Ledger} (h : older.Stacked r.start) :
    linkedSite r.site (r.backLink older) =
      .ok (Ledger.sites older r.name r.shape.chain).head? := by
  apply MachineCode.linkedSite_backLink
  intro s hs
  have := h.site_lt (List.mem_of_head? hs)
  have := r.start_le_site
  omega

end MachineCode
