import MachineCode.Options
import MachineCode.Notice
import MachineCode.Violation

/-!
# The code buffer

Code is appended at a cursor and patched below it. Positions are offsets from the start, so they
stay valid when the storage moves to a larger block. The last `instructionGap` bytes of the storage
are kept free: an instruction that starts below them is written after a single capacity check.
-/

namespace MachineCode

/-- The bytes that one instruction may write after a capacity check. -/
def instructionGap : Nat := 32

def maxGrowth : Nat := 1024 * 1024

/-- The number of offsets. -/
def offsetSpace : Nat := 0x10000000000000000

/-- No allocator hands out a block of more bytes. -/
def blockLimit : Nat := 0x7FFFFFFFFFFFFFFF

/-- The largest block of the usual allocator: code beyond it is out of reach of every field. -/
def usualMemory : Nat := 0x100000000

/-- Four bytes to be repeated over memory that holds no code. -/
abbrev TrapPattern := Vector Byte 4

structure CodeBuffer where
  /-- Tells this buffer from the other buffers of a session. -/
  id : Nat
  contents : Array Byte
  /-- The number of bytes emitted. -/
  cursor : Nat
  trap : Option TrapPattern
  /-- The number of labels with pending branches in this buffer. -/
  unresolved : Nat
  /-- The largest block that the allocator grants at present. -/
  memory : Nat
  /-- What happened since the notices were last taken. -/
  notices : Array Notice
  cursor_le : cursor ≤ contents.size
  gaps_le : 2 * instructionGap ≤ contents.size

/-- Work that appends to a buffer. What was appended before a failure stays. -/
abbrev Emit := EStateM Failure CodeBuffer

/-- Goes on with the value of a checked computation, or fails with its error. -/
def checked {σ α : Type} (result : Except EmitError α) : EStateM Failure σ α := fun s =>
  match result with
  | .ok a => .ok a s
  | .error e => .error (.error e) s

/-- Goes on with the value of an asserted computation, or fails with its violation. -/
def asserted {σ α : Type} (result : Except Violation α) : EStateM Failure σ α := fun s =>
  match result with
  | .ok a => .ok a s
  | .error v => .error (.violation v) s

namespace CodeBuffer

/-- The byte at offset `i` of memory that holds no code. -/
def fillByte (trap : Option TrapPattern) (i : Nat) : Byte :=
  match trap with
  | none => 0#8
  | some pattern => pattern[i % 4]

/-- The `count` bytes from offset `start` of memory that holds no code. -/
def fill (trap : Option TrapPattern) (start count : Nat) : Array Byte :=
  match trap with
  | none => Array.replicate count 0#8
  | some pattern => Array.ofFn fun i : Fin count => pattern[(start + i) % 4]

@[simp] theorem fill_size (trap : Option TrapPattern) (start count : Nat) :
    (fill trap start count).size = count := by
  cases trap <;> simp [fill]

@[simp] theorem fill_getElem (trap : Option TrapPattern) (start count i : Nat)
    (h : i < (fill trap start count).size) :
    (fill trap start count)[i] = fillByte trap (start + i) := by
  cases trap <;> simp [fill, fillByte]

/-- Whether an allocator with blocks up to `memory` grants `requested` bytes. -/
def grants (memory requested : Nat) : Bool :=
  requested ≤ memory && requested ≤ blockLimit

/-- An empty buffer. A capacity too small for two gaps is raised to two gaps. -/
def create (id memory : Nat) (options : Options) (pattern : TrapPattern) :
    Except EmitError CodeBuffer :=
  let capacity := max options.initialCapacity (2 * instructionGap)
  let trap := if options.trapFill then some pattern else none
  if grants memory capacity then
    .ok {
      id, memory, trap
      contents := fill trap 0 capacity
      cursor := 0
      unresolved := 0
      notices := #[]
      cursor_le := Nat.zero_le _
      gaps_le := by simp only [fill_size, capacity]; omega }
  else
    .error (.outOfMemory capacity)

def size (b : CodeBuffer) : Nat :=
  b.cursor

def isEmpty (b : CodeBuffer) : Bool :=
  b.cursor == 0

def capacity (b : CodeBuffer) : Nat :=
  b.contents.size

/-- The least cursor at which an instruction may not start without growth. -/
def limit (b : CodeBuffer) : Nat :=
  b.capacity - instructionGap

def bytes (b : CodeBuffer) : Array Byte :=
  b.contents.extract 0 b.cursor

def unused (b : CodeBuffer) : Array Byte :=
  b.contents.extract b.cursor b.contents.size

def notify (notice : Notice) (b : CodeBuffer) : CodeBuffer :=
  { b with notices := b.notices.push notice }

def forget (b : CodeBuffer) : CodeBuffer :=
  { b with notices := #[] }

/-- From now on the allocator grants blocks up to `memory`. -/
def allow (memory : Nat) (b : CodeBuffer) : CodeBuffer :=
  { b with memory }

/-! ## Growth -/

/-- The capacity after one growth step: double, but at most `maxGrowth` more, and never more than
the greatest offset. -/
def grownCapacity (capacity : Nat) : Nat :=
  min (min (2 * capacity) (offsetSpace - 1)) (min (capacity + maxGrowth) (offsetSpace - 1))

/-- Moves the code to a block of `capacity` bytes. -/
def moveTo (b : CodeBuffer) (capacity : Nat) (larger : b.capacity ≤ capacity) : CodeBuffer :=
  { b with
    contents := b.contents.extract 0 b.cursor ++ fill b.trap b.cursor (capacity - b.cursor)
    cursor_le := by
      have := b.cursor_le
      simp only [Array.size_append, Array.size_extract, fill_size]
      omega
    gaps_le := by
      have := b.cursor_le
      have := b.gaps_le
      simp only [CodeBuffer.capacity] at larger
      simp only [Array.size_append, Array.size_extract, fill_size]
      omega }

def grow : Emit Unit := fun b =>
  let old := b.capacity
  let requested := grownCapacity old
  if larger : old < requested then
    if grants b.memory requested then
      .ok () ((b.moveTo requested (Nat.le_of_lt larger)).notify (.grown b.id old requested))
    else
      .error (.error (.outOfMemory requested)) b
  else
    .error (.error (.capacityOverflow old)) b

def makeRoom : Emit Unit := do
  if (← get).limit ≤ (← get).cursor then
    grow

/-- Takes growth steps, at most `steps` of them, until `needed` bytes lie below the gap. -/
def growTo (needed : Nat) : (steps : Nat) → Emit Unit
  | 0 => pure ()
  | steps + 1 => do
    if (← get).limit < needed then
      grow
      growTo needed steps

/-- Makes room for `count` more bytes before the gap. Each growth step adds at least one byte, so
`needed` steps are always enough. -/
def reserve (count : Nat) : Emit Unit := do
  let needed := (← get).cursor + count
  if needed < offsetSpace then
    growTo needed needed
  else
    throw (.error (.capacityOverflow (← get).capacity))

end CodeBuffer

end MachineCode
