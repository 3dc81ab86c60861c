import MachineCode.Buffer.Basic

/-!
# Writing and reading code

Appends go to the cursor; loads and stores stay below it. Both are asserted and not checked: an
assembler never gets them wrong.
-/

namespace MachineCode.CodeBuffer

def overwrite (contents : Array Byte) (offset : Nat) : List Byte → Array Byte
  | [] => contents
  | byte :: rest => overwrite (contents.setIfInBounds offset byte) (offset + 1) rest

@[simp] theorem overwrite_size (contents : Array Byte) (offset : Nat) (bytes : List Byte) :
    (overwrite contents offset bytes).size = contents.size := by
  induction bytes generalizing contents offset with
  | nil => rfl
  | cons byte rest ih => simp [overwrite, ih]

/-- Appends bytes without a capacity check. -/
def put (bytes : List Byte) : Emit Unit := fun b =>
  if room : b.cursor + bytes.length ≤ b.contents.size then
    .ok () { b with
      contents := overwrite b.contents b.cursor bytes
      cursor := b.cursor + bytes.length
      cursor_le := by simpa using room
      gaps_le := by simpa using b.gaps_le }
  else
    .error (.violation .writePastMemory) b

/-- Appends the lowest `count` bytes of a value without a capacity check. -/
def putValue {w : Nat} (count : Nat) (value : BitVec w) : Emit Unit :=
  put (littleEndian count value)

/-- Asserts that no more than the gap was written since the cursor was at `start`. -/
def checkGap (start : Nat) : Emit Unit := do
  let written := (← get).cursor - start
  if instructionGap < written then
    throw (.violation (.gapOverrun written))

/-- Runs `body` after one capacity check and asserts that it kept to the gap, also when it failed,
unless the failure is a violation itself. -/
def guarded (body : Emit Unit) : Emit Unit := do
  makeRoom
  let start := (← get).cursor
  try
    body
  catch
    | .violation v => throw (.violation v)
    | failure =>
      checkGap start
      throw failure
  checkGap start

/-- Appends one instruction after a capacity check that was already made. -/
def putInstruction (bytes : List Byte) : Emit Unit := do
  let start := (← get).cursor
  put bytes
  checkGap start

def emitInstruction (bytes : List Byte) : Emit Unit := do
  makeRoom
  putInstruction bytes

/-- Appends any number of bytes, with growth as needed. -/
def append (bytes : List Byte) : Emit Unit := do
  reserve bytes.length
  put bytes

/-! ## Patches -/

/-- Asserts that `count` bytes from `offset` on are emitted code. -/
def checkEmitted (b : CodeBuffer) (offset count : Nat) : Except Violation Unit :=
  if offsetSpace ≤ offset + count then
    .error .addOverflow
  else if b.cursor < offset + count then
    .error (.patchOutsideCode offset)
  else
    .ok ()

/-- The value of `count` emitted bytes from `offset` on, least significant byte first. -/
def load (b : CodeBuffer) (w offset count : Nat) : Except Violation (BitVec w) := do
  b.checkEmitted offset count
  return ofLittleEndian w (b.contents.extract offset (offset + count)).toList

def loadByte (b : CodeBuffer) (offset : Nat) : Except Violation Byte :=
  b.load 8 offset 1

def loadWord (b : CodeBuffer) (offset : Nat) : Except Violation Word :=
  b.load 32 offset 4

def store (offset : Nat) (bytes : List Byte) : Emit Unit := fun b =>
  match b.checkEmitted offset bytes.length with
  | .ok () => .ok () { b with
      contents := overwrite b.contents offset bytes
      cursor_le := by simpa using b.cursor_le
      gaps_le := by simpa using b.gaps_le }
  | .error v => .error (.violation v) b

def storeByte (offset : Nat) (value : Byte) : Emit Unit :=
  store offset [value]

def storeWord (offset : Nat) (value : Word) : Emit Unit :=
  store offset (littleEndian 4 value)

/-! ## Pending labels -/

def addPending : Emit Unit :=
  modify fun b => { b with unresolved := b.unresolved + 1 }

def removePending : Emit Unit := do
  if (← get).unresolved = 0 then
    throw (.violation .nothingPending)
  modify fun b => { b with unresolved := b.unresolved - 1 }

/-! ## Hand-over -/

/-- Code is handed over only when no label is pending. -/
def checkResolved (b : CodeBuffer) : Except EmitError Unit :=
  if b.unresolved = 0 then .ok () else .error (.unresolvedLabels b.unresolved)

/-- A buffer and the memory that its code is copied to. -/
structure Copy where
  buffer : CodeBuffer
  destination : Array Byte

/-- Copies the code over the start of the destination; gives the number of bytes copied. -/
def copyOut : EStateM Failure Copy Nat := do
  let ⟨b, destination⟩ ← get
  checked b.checkResolved
  if destination.size < b.cursor then
    throw (.error (.destinationTooSmall b.cursor destination.size))
  set (Copy.mk b (b.bytes ++ destination.extract b.cursor destination.size))
  modify fun s => { s with buffer := s.buffer.notify (.finalized b.id b.cursor) }
  return b.cursor

/-- A copy to `destination`, which is given back if the copy is made. -/
def copyOver (destination : Array Byte) : Emit (Nat × Array Byte) := fun b =>
  match copyOut ⟨b, destination⟩ with
  | .ok written s => .ok (written, s.destination) s.buffer
  | .error e s => .error e s.buffer

def handOver (b : CodeBuffer) : Except EmitError (Array Byte) := do
  b.checkResolved
  return b.bytes

end MachineCode.CodeBuffer
