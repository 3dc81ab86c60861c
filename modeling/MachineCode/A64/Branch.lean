import MachineCode.A64.Operation
import MachineCode.Label

/-!
# A64 branches to labels

A conditional branch reaches less far than an unconditional one. With far branches on, a
conditional branch whose target is unknown or out of its reach takes two words: a guard with the
opposite test that skips the second word, and a `b`. The link of such a pair is kept in the `b`, so
pairs and unconditional branches share the wide chain. When the label is bound, a pair whose guard
reaches the target itself becomes the branch that was asked for and a `nop`.
-/

namespace MachineCode.A64

inductive Branch where
  /-- `b`, or `bl` if `link`. -/
  | jump (link : Bool)
  | onCondition (condition : Condition)
  /-- `cbz`, or `cbnz` if `nonzero`. -/
  | compare (nonzero : Bool) (rt : Register) (size : AccessSize)
  /-- `tbz`, or `tbnz` if `set`. -/
  | test (set : Bool) (rt : Register) (bit : Nat)
  deriving DecidableEq, Repr

/-- The word of `cbz` or `cbnz`, less the displacement. -/
def compareWord (nonzero : Bool) (rt : Register) (size : AccessSize) : Encoder := fun offset => do
  return wordCbz ||| size.widthBit ||| flag 24 nonzero ||| (← registerField 0 .zero rt offset)

def testWord (set : Bool) (rt : Register) (bit : Nat) : Encoder := fun offset => do
  let number ← unsignedField 6 bit
  return wordTbz ||| field 31 (number.extractLsb' 5 1) ||| flag 24 set |||
    field 19 (number.extractLsb' 0 5) ||| (← registerField 0 .zero rt offset)

/-- The chain of sites whose links are kept in a field. -/
def chainOf : DispField → Chain
  | .imm14 => .short
  | .imm19 => .near
  | _ => .wide

open Link

def emitJump (opcode : Word) : Link Unit := do
  adopt
  let site ← size
  let f := DispField.imm26
  match (← get).label.position? with
  | some target =>
    let displacement : Int := target - site
    if f.Fits displacement then
      onBuffer (emitWord (← asserted (f.embed displacement opcode)))
    else
      fail (.branchOutOfRange displacement f.max site)
  | none =>
    let link ← asserted (linkBack site ((← get).label.head .wide))
    if f.Fits link then
      onBuffer (emitWord (← asserted (f.embed link opcode)))
      Link.push .wide site
      notify (.linked .unconditional site)
    else
      fail (.branchOutOfRange link f.max site)

/-- The guard of a pair: the opposite test, over the next word. -/
def guardWord (f : DispField) (word : Word) : Except Violation Word :=
  f.embed 8 (invertBranch word)

/-- A branch with a test; `word` is the whole instruction less the displacement. -/
def emitConditional (far : Bool) (word : Word) : Link Unit := do
  adopt
  let f := ((BranchKind.ofWord? word).map BranchKind.field).getD .imm19
  let wide := DispField.imm26
  let site ← size
  match (← get).label.position? with
  | some target =>
    let displacement : Int := target - site
    if f.Fits displacement then
      onBuffer (emitWord (← asserted (f.embed displacement word)))
    else if !far then
      fail (.branchOutOfRange displacement f.max site)
    else if wide.Fits (displacement - 4) then
      let first ← asserted (guardWord f word)
      let second ← asserted (wide.embed (displacement - 4) wordB)
      onBuffer (emitPair first second)
      notify (.farBranch site target)
    else
      fail (.branchOutOfRange displacement wide.max site)
  | none =>
    let chain := if far then .wide else chainOf f
    let link ← asserted (linkBack site ((← get).label.head chain))
    if far then
      if wide.Fits link then
        let first ← asserted (guardWord f word)
        let second ← asserted (wide.embed link wordB)
        onBuffer (emitPair first second)
      else
        fail (.branchOutOfRange link wide.max site)
    else
      if f.Fits link then
        onBuffer (emitWord (← asserted (f.embed link word)))
      else
        fail (.branchOutOfRange link f.max site)
    Link.push chain site
    notify (.linked .conditional site)

/-- Emits a branch. Operands are checked before the label. -/
def Branch.run (far : Bool) : Branch → Link Unit
  | .jump link => emitJump (if link then wordBl else wordB)
  | .onCondition .al => emitJump wordB
  | .onCondition .nv => do
    checked (refuse .neverBranch (← size))
  | .onCondition condition => emitConditional far (wordBCond ||| field 0 condition.code)
  | .compare nonzero rt size => do
    let word ← checked (compareWord nonzero rt size (← Link.size))
    emitConditional far word
  | .test set rt bit => do
    let word ← checked (testWord set rt bit (← size))
    emitConditional far word

/-! ## Binding -/

inductive Patch where
  | single (word : Word)
  /-- Two words; `shrunk` if the first one reaches the target. -/
  | pair (first second : Word) (shrunk : Bool)
  deriving DecidableEq, Repr

/-- What binding at `position` makes of the site at `site`, and the next site of the chain. -/
def resolve (far : Bool) (b : CodeBuffer) (position site : Nat) :
    Except Failure (Patch × Option Nat) := do
  let word ← ofAsserted (b.loadWord site)
  let displacement : Int := position - site
  let wide := DispField.imm26
  match BranchKind.ofWord? word with
  | none => throw (.error (.invalidOperands .brokenChain (some site)))
  | some kind =>
    let f := kind.field
    if kind ≠ .unconditional ∧ far then
      let second ← ofAsserted (b.loadWord (site + 4))
      let next ← ofAsserted (linkedSite site (wide.decode second))
      if f.Fits displacement then
        let first ← ofAsserted (f.embed displacement (invertBranch word))
        return (.pair first wordNop true, next)
      else if wide.Fits (displacement - 4) then
        let second ← ofAsserted (wide.embed (displacement - 4) second)
        return (.pair word second false, next)
      else
        throw (.error (.branchOutOfRange displacement wide.max site))
    else
      let next ← ofAsserted (linkedSite site (f.decode word))
      if f.Fits displacement then
        return (.single (← ofAsserted (f.embed displacement word)), next)
      else
        throw (.error (.branchOutOfRange displacement f.max site))

def pendingPatches (far : Bool) (b : CodeBuffer) (label : Label) (position : Nat) :
    Except Failure (List (Nat × Patch)) := do
  let wide ← label.resolveChain .wide (resolve far b position)
  let near ← label.resolveChain .near (resolve far b position)
  let short ← label.resolveChain .short (resolve far b position)
  return wide ++ near ++ short

def applyPatches : List (Nat × Patch) → Emit Unit
  | [] => pure ()
  | (site, .single word) :: rest => do
    CodeBuffer.storeWord site word
    applyPatches rest
  | (site, .pair first second shrunk) :: rest => do
    CodeBuffer.storeWord site first
    CodeBuffer.storeWord (site + 4) second
    modify (CodeBuffer.notify (.farSite site shrunk))
    applyPatches rest

/-- Binds the label to the end of the code. Every pending site is checked before any is patched. -/
def bind (far : Bool) : Link Unit := do
  requireUnbound
  adopt
  let position ← size
  let s ← get
  match pendingPatches far s.buffer s.label position with
  | .error failure => throw failure
  | .ok patches =>
    onBuffer (applyPatches patches)
    settle position
    notify (.patched position patches.length)

end MachineCode.A64
