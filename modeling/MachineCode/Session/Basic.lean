import MachineCode.A64.Branch
import MachineCode.Buffer.Write
import MachineCode.X86.Branch

/-!
# Sessions

A session has several assemblers and one pool of labels that all of them share. A step asks one of
the assemblers for something; an assembler whose code was handed over is gone and refuses further
steps.
-/

namespace MachineCode

inductive Target where
  | x86
  | a64 (farBranches : Bool)
  /-- Nothing: a buffer without an assembler in front of it. -/
  | bare
  deriving DecidableEq, Repr

structure Assembler where
  target : Target
  buffer : CodeBuffer

inductive TargetSpec where
  | x86
  | a64
  | bare (pattern : TrapPattern)

/-- The labels of a session by name. -/
abbrev Labels := List (String × Label)

namespace Labels

def find? (labels : Labels) (name : String) : Option Label :=
  labels.lookup name

/-- The label of a name; a name not mentioned before has a fresh one. -/
def get (labels : Labels) (name : String) : Label :=
  (labels.find? name).getD Label.fresh

def set (labels : Labels) (name : String) (label : Label) : Labels :=
  match labels with
  | [] => [(name, label)]
  | (other, old) :: rest =>
    if other = name then (name, label) :: rest else (other, old) :: set rest name label

def mention (labels : Labels) (name : String) : Labels :=
  labels.set name (labels.get name)

end Labels

inductive Request where
  | size
  | isEmpty
  | capacity
  | unresolved
  | bytes
  | unused
  | farBranches
  | loadByte (offset : Nat)
  | loadWord (offset : Nat)
  /-- The word as a signed number. -/
  | loadSigned (offset : Nat)
  /-- A copy of the code over the start of a destination. -/
  | copyOver (destination : Array Byte)
  /-- The code, in exchange for the assembler. -/
  | handOver
  | bare (write : CodeBuffer.Write)
  | x86 (operation : X86.Operation)
  | x86Branch (name : String) (branch : X86.Branch)
  | a64 (operation : A64.Operation)
  | a64Branch (name : String) (branch : A64.Branch)
  | bind (name : String)

inductive Reply where
  | done
  | number (value : Int)
  | truth (value : Bool)
  | code (bytes : Array Byte)
  | copied (written : Nat) (destination : Array Byte)

inductive Outcome where
  | reply (reply : Reply)
  | failed (failure : Failure)

structure Session where
  assemblers : Array (Option Assembler)
  labels : Labels

namespace Assembler

def create (id memory : Nat) (spec : TargetSpec) (options : Options) : Except EmitError Assembler :=
  match spec with
  | .x86 => do
    return ⟨.x86, ← CodeBuffer.create id memory options X86.trapPattern⟩
  | .a64 => do
    return ⟨.a64 options.farBranches, ← CodeBuffer.create id memory options A64.trapPattern⟩
  | .bare pattern => do
    return ⟨.bare, ← CodeBuffer.create id memory options pattern⟩

end Assembler

abbrev Served := Option Assembler × Labels × Outcome

def onBuffer (target : Target) (buffer : CodeBuffer) (labels : Labels) (work : Emit Reply) :
    Served :=
  match work buffer with
  | .ok reply buffer => (some ⟨target, buffer⟩, labels, .reply reply)
  | .error failure buffer => (some ⟨target, buffer⟩, labels, .failed failure)

def onLabel (target : Target) (buffer : CodeBuffer) (labels : Labels) (name : String)
    (work : Link Unit) : Served :=
  match work ⟨buffer, labels.get name⟩ with
  | .ok _ ⟨buffer, label⟩ => (some ⟨target, buffer⟩, labels.set name label, .reply .done)
  | .error failure ⟨buffer, label⟩ =>
    (some ⟨target, buffer⟩, labels.set name label, .failed failure)

def ask (target : Target) (buffer : CodeBuffer) (labels : Labels) (reply : CodeBuffer → Reply) :
    Served :=
  (some ⟨target, buffer⟩, labels, .reply (reply buffer))

/-- A question to the buffer that may break an assertion. -/
def askAsserted (target : Target) (buffer : CodeBuffer) (labels : Labels)
    (value : CodeBuffer → Except Violation Int) : Served :=
  match value buffer with
  | .ok n => (some ⟨target, buffer⟩, labels, .reply (.number n))
  | .error violation => (some ⟨target, buffer⟩, labels, .failed (.violation violation))

/-- Serves a request, unless it is meant for another target. -/
def Assembler.serve (assembler : Assembler) (labels : Labels) (request : Request) : Served :=
  let ⟨target, buffer⟩ := assembler
  match request, target with
  | .size, _ => ask target buffer labels fun b => .number b.size
  | .isEmpty, _ => ask target buffer labels fun b => .truth b.isEmpty
  | .capacity, _ => ask target buffer labels fun b => .number b.capacity
  | .unresolved, _ => ask target buffer labels fun b => .number b.unresolved
  | .bytes, _ => ask target buffer labels fun b => .code b.bytes
  | .unused, _ => ask target buffer labels fun b => .code b.unused
  | .farBranches, .a64 far => ask target buffer labels fun _ => .truth far
  | .loadByte offset, _ => askAsserted target buffer labels fun b =>
    (b.loadByte offset).map fun value => value.toNat
  | .loadWord offset, _ => askAsserted target buffer labels fun b =>
    (b.loadWord offset).map fun value => value.toNat
  | .loadSigned offset, _ => askAsserted target buffer labels fun b =>
    (b.loadWord offset).map fun value => value.toInt
  | .copyOver destination, _ =>
    onBuffer target buffer labels
      ((fun (written, result) => .copied written result) <$> CodeBuffer.copyOver destination)
  | .handOver, _ =>
    match buffer.handOver with
    | .ok code => (none, labels, .reply (.code code))
    | .error e => (none, labels, .failed (.error e))
  | .bare write, .bare => onBuffer target buffer labels ((fun _ => .done) <$> write.run)
  | .x86 operation, .x86 => onBuffer target buffer labels ((fun _ => .done) <$> operation.run)
  | .a64 operation, .a64 _ => onBuffer target buffer labels ((fun _ => .done) <$> operation.run)
  | .x86Branch name branch, .x86 => onLabel target buffer labels name branch.run
  | .a64Branch name branch, .a64 far => onLabel target buffer labels name (branch.run far)
  | .bind name, .x86 => onLabel target buffer labels name X86.bind
  | .bind name, .a64 far => onLabel target buffer labels name (A64.bind far)
  | _, _ => (some ⟨target, buffer⟩, labels, .failed .refused)

namespace Session

def empty : Session :=
  ⟨#[], []⟩

/-- Adds an assembler. Its number is the identity of its buffer, so identities do not repeat. -/
def add (s : Session) (memory : Nat) (spec : TargetSpec) (options : Options) :
    Except EmitError Session := do
  let assembler ← Assembler.create s.assemblers.size memory spec options
  return { s with assemblers := s.assemblers.push (some assembler) }

/-- The assembler with a number, if it is still there. -/
def assembler? (s : Session) (i : Nat) : Option Assembler :=
  (s.assemblers[i]?).join

def step (s : Session) (i : Nat) (request : Request) : Session × Outcome :=
  match s.assembler? i with
  | none => (s, .failed .refused)
  | some assembler =>
    let (assemblers, labels) := (s.assemblers.setIfInBounds i none, s.labels)
    let (assembler, labels, outcome) := assembler.serve labels request
    (⟨assemblers.setIfInBounds i assembler, labels⟩, outcome)

/-- The same step over and over, at most `times` times, up to the first that does not get a reply.
-/
def repeatStep (s : Session) (i : Nat) (request : Request) (last : Outcome) :
    (times : Nat) → Session × Outcome
  | 0 => (s, last)
  | times + 1 =>
    match s.step i request with
    | (s, .reply reply) => s.repeatStep i request (.reply reply) times
    | stopped => stopped

def steps (s : Session) (i : Nat) (request : Request) (times : Nat) : Session × Outcome :=
  s.repeatStep i request (.reply .done) times

def mention (s : Session) (name : String) : Session :=
  { s with labels := s.labels.mention name }

/-- Looks up a label, which counts as a mention. No assembler takes part in it. -/
def label (s : Session) (name : String) : Session × Label :=
  (s.mention name, s.labels.get name)

def modifyBuffer (s : Session) (i : Nat) (f : CodeBuffer → CodeBuffer) : Session :=
  let modified (a : Assembler) : Assembler := { a with buffer := f a.buffer }
  { s with assemblers := s.assemblers.modify i (Option.map modified) }

/-- Empties the notices of an assembler. -/
def forget (s : Session) (i : Nat) : Session :=
  s.modifyBuffer i CodeBuffer.forget

/-- From now on the allocator of an assembler grants blocks up to `memory`. -/
def allow (s : Session) (i memory : Nat) : Session :=
  s.modifyBuffer i (CodeBuffer.allow memory)

/-- Whether no two remaining buffers have the same identity. -/
def identitiesDistinct (s : Session) : Bool :=
  let ids := s.assemblers.toList.filterMap fun a => a.map (·.buffer.id)
  ids.eraseDups.length == ids.length

end Session

end MachineCode
