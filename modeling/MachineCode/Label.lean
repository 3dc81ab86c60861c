import MachineCode.Buffer.Access

/-!
# Labels

A label names a position of the code that may not be known yet. A branch to an unbound label leaves
a site whose displacement field holds, for the time being, the way back to the label's previous
site: the chain of pending sites lives in the code itself. A link is the distance from a site to
the one before it, so it is negative; zero ends the chain.

A label has one chain for each reach, so that a link spans only sites whose fields reach equally
far.
-/

namespace MachineCode

/-- The chains of a label, by the reach of their fields. -/
inductive Chain where
  | wide
  | near
  | short
  deriving DecidableEq, Repr

structure Heads where
  wide : Option Nat
  near : Option Nat
  short : Option Nat
  deriving DecidableEq, Repr

namespace Heads

def none : Heads := ⟨.none, .none, .none⟩

def get (heads : Heads) : Chain → Option Nat
  | .wide => heads.wide
  | .near => heads.near
  | .short => heads.short

def set (heads : Heads) (chain : Chain) (site : Nat) : Heads :=
  match chain with
  | .wide => { heads with wide := some site }
  | .near => { heads with near := some site }
  | .short => { heads with short := some site }

end Heads

inductive Place where
  | unbound (heads : Heads)
  | bound (position : Nat)
  deriving DecidableEq, Repr

/-- A position of the code, perhaps not yet known. The owner is the first buffer that used it. -/
structure Label where
  place : Place
  owner : Option Nat
  deriving DecidableEq, Repr

namespace Label

def fresh : Label := ⟨.unbound Heads.none, none⟩

def position? (label : Label) : Option Nat :=
  match label.place with
  | .bound position => some position
  | .unbound _ => none

def isBound (label : Label) : Bool :=
  label.position?.isSome

/-- The latest pending site of a chain. -/
def head (label : Label) (chain : Chain) : Option Nat :=
  match label.place with
  | .unbound heads => heads.get chain
  | .bound _ => none

/-- Whether some chain has a pending site. -/
def isLinked (label : Label) : Bool :=
  (label.head .wide).isSome || (label.head .near).isSome || (label.head .short).isSome

def hasNear (label : Label) : Bool :=
  (label.head .near).isSome

/-- Unbound and without a pending site. -/
def isUnused (label : Label) : Bool :=
  label.place = .unbound Heads.none

end Label

/-! ## Links -/

/-- The link that a new site stores: the distance back to the head of its chain, or zero. -/
def linkBack (site : Nat) : (head : Option Nat) → Except Violation Int
  | none => .ok 0
  | some head => if head < site then .ok (head - site) else .error .siteBeforeHead

/-- The site that a stored link leads to. -/
def linkedSite (site : Nat) (link : Int) : Except Violation (Option Nat) :=
  if link = 0 then
    .ok none
  else if 0 < link then
    .error .forwardLink
  else if (site : Int) + link < 0 then
    .error (.patchOutsideCode (offsetSpace - (-(site + link)).toNat))
  else
    .ok (some (site + link).toNat)

/-- What `resolve` says of each site of a chain, from the head back. Links lead to smaller offsets,
so a chain has at most one site more than there are offsets below its head. -/
def followChain {α : Type} (resolve : Nat → Except Failure (α × Option Nat)) :
    (steps : Nat) → (site : Option Nat) → Except Failure (List (Nat × α))
  | _, none => .ok []
  | 0, some _ => .error (.violation .endlessChain)
  | steps + 1, some site => do
    let (patch, next) ← resolve site
    let rest ← followChain resolve steps next
    return (site, patch) :: rest

def Label.resolveChain {α : Type} (label : Label) (chain : Chain)
    (resolve : Nat → Except Failure (α × Option Nat)) : Except Failure (List (Nat × α)) :=
  match label.head chain with
  | none => .ok []
  | some site => followChain resolve (site + 1) (some site)

/-! ## Work on a buffer and a label -/

/-- The buffer and the label that a branch or a binding works on. -/
structure Linking where
  buffer : CodeBuffer
  label : Label

/-- Work that emits or patches branches to one label. -/
abbrev Link := EStateM Failure Linking

namespace Link

def onBuffer {α : Type} (work : Emit α) : Link α := fun ⟨buffer, label⟩ =>
  match work buffer with
  | .ok a buffer => .ok a ⟨buffer, label⟩
  | .error e buffer => .error e ⟨buffer, label⟩

def size : Link Nat := do
  return (← get).buffer.size

def notify (notice : Notice) : Link Unit :=
  onBuffer (modify (CodeBuffer.notify notice))

def fail {α : Type} (error : EmitError) : Link α :=
  throw (.error error)

/-- Makes the buffer the label's owner, unless another one is. -/
def adopt : Link Unit := fun ⟨buffer, label⟩ =>
  match label.owner with
  | none => .ok () ⟨buffer, { label with owner := some buffer.id }⟩
  | some id =>
    if id = buffer.id then .ok () ⟨buffer, label⟩
    else .error (.error .foreignLabel) ⟨buffer, label⟩

def requireUnbound : Link Unit := do
  match (← get).label.position? with
  | some position => fail (.labelAlreadyBound position)
  | none => pure ()

/-- Makes `site` the head of a chain. The first site of a label makes the label pending. -/
def push (chain : Chain) (site : Nat) : Link Unit := do
  let label := (← get).label
  match label.place with
  | .bound _ => throw (.violation .boundLabelLinked)
  | .unbound heads =>
    if label.isUnused then
      onBuffer CodeBuffer.addPending
    modify fun s => { s with label := { s.label with place := .unbound (heads.set chain site) } }

/-- Binds the label, whose sites are patched by now. -/
def settle (position : Nat) : Link Unit := do
  if !(← get).label.isUnused then
    onBuffer CodeBuffer.removePending
  notify (.labelBound position)
  modify fun s => { s with label := { s.label with place := .bound position } }

end Link

end MachineCode
