import MachineCode.X86.Operation
import MachineCode.Displacement
import MachineCode.Label

/-!
# x86-64 branches to labels

A site is the displacement at the end of the instruction. Sites of one byte and of four are on
separate chains, because each site keeps its link at its own width.
-/

namespace MachineCode.X86

/-- The form of a jump to an unbound label. Jumps to bound labels take the shortest form that
reaches. -/
inductive Distance where
  | far
  | near
  deriving DecidableEq, Repr

def Distance.standard : Distance := .far

inductive Branch where
  | jump (j : Jump) (distance : Distance)
  | call
  deriving DecidableEq, Repr

open Link

/-- A jump to a label. Room is made before the reach is checked. -/
def emitJump (jump : Jump) (distance : Distance) : Link Unit := do
  adopt
  let start ← size
  onBuffer CodeBuffer.makeRoom
  match (← get).label.position? with
  | some target =>
    let short : Int := target - (start + jump.shortOpcode.length + 1)
    let long : Int := target - (start + jump.longOpcode.length + 4)
    if DispField.rel8.Fits short then
      onBuffer (CodeBuffer.putInstruction (Instr.jumpShort jump (BitVec.ofInt 8 short)).encode)
    else if DispField.rel32.Fits long then
      onBuffer (CodeBuffer.putInstruction (Instr.jumpLong jump (BitVec.ofInt 32 long)).encode)
    else
      fail (.branchOutOfRange long DispField.rel32.max start)
  | none =>
    match distance with
    | .near =>
      let site := start + jump.shortOpcode.length
      let link ← asserted (linkBack site ((← get).label.head .near))
      if DispField.rel8.Fits link then
        onBuffer (CodeBuffer.putInstruction (Instr.jumpShort jump (BitVec.ofInt 8 link)).encode)
        push .near site
        notify (.linked .rel8 site)
      else
        fail (.branchOutOfRange link DispField.rel8.max start)
    | .far =>
      let site := start + jump.longOpcode.length
      let link ← asserted (linkBack site ((← get).label.head .wide))
      if DispField.rel32.Fits link then
        onBuffer (CodeBuffer.putInstruction (Instr.jumpLong jump (BitVec.ofInt 32 link)).encode)
        push .wide site
        notify (.linked .rel32 site)
      else
        fail (.branchOutOfRange link DispField.rel32.max start)

/-- A call of a label. The reach is checked before room is made. -/
def emitCall : Link Unit := do
  adopt
  let start ← size
  let site := start + 1
  let label := (← get).label
  let displacement : Int ← match label.position? with
    | some target => pure (target - (site + 4))
    | none => asserted (linkBack site (label.head .wide))
  if DispField.rel32.Fits displacement then
    onBuffer (CodeBuffer.emitInstruction (Instr.call (BitVec.ofInt 32 displacement)).encode)
    if !label.isBound then
      push .wide site
      notify (.linked .call site)
  else
    fail (.branchOutOfRange displacement DispField.rel32.max start)

def Branch.run : Branch → Link Unit
  | .jump j distance => emitJump j distance
  | .call => emitCall

/-! ## Binding -/

/-- The displacement that binding at `position` gives the one-byte site at `site`, and the next
site of the chain. -/
def resolveNear (b : CodeBuffer) (position site : Nat) :
    Except Failure (BitVec 8 × Option Nat) := do
  let displacement : Int := position - (site + 1)
  if DispField.rel8.Fits displacement then
    let link ← ofAsserted (b.loadByte site)
    return (BitVec.ofInt 8 displacement, ← ofAsserted (linkedSite site link.toInt))
  else
    throw (.error (.branchOutOfRange displacement DispField.rel8.max site))

/-- The displacement that binding at `position` gives the four-byte site at `site`, and the next
site of the chain. -/
def resolveWide (b : CodeBuffer) (position site : Nat) :
    Except Failure (BitVec 32 × Option Nat) := do
  let displacement : Int := position - (site + 4)
  if DispField.rel32.Fits displacement then
    let link ← ofAsserted (b.loadWord site)
    return (BitVec.ofInt 32 displacement, ← ofAsserted (linkedSite site link.toInt))
  else
    throw (.error (.branchOutOfRange displacement DispField.rel32.max site))

/-- The patches of all pending sites of a label; the one-byte sites are checked first. -/
def pendingPatches (b : CodeBuffer) (label : Label) (position : Nat) :
    Except Failure (List (Nat × List Byte)) := do
  let near ← label.resolveChain .near (resolveNear b position)
  let wide ← label.resolveChain .wide (resolveWide b position)
  return wide.map (fun (site, d) => (site, littleEndian 4 d)) ++
    near.map (fun (site, d) => (site, [d]))

def applyPatches : List (Nat × List Byte) → Emit Unit
  | [] => pure ()
  | (site, bytes) :: rest => do
    CodeBuffer.store site bytes
    applyPatches rest

/-- Binds the label to the end of the code. Every pending site is checked before any is patched. -/
def bind : Link Unit := do
  requireUnbound
  adopt
  let position ← size
  let s ← get
  match pendingPatches s.buffer s.label position with
  | .error failure => throw failure
  | .ok patches =>
    onBuffer (applyPatches patches)
    settle position
    notify (.patched position patches.length)

end MachineCode.X86
