import MachineCode.Session.Basic

/-!
# What a step did to the code

The bytes that a step appended and the runs of bytes that it replaced, and short texts for both.
-/

namespace MachineCode

/-! ## Changed bytes -/

/-- The maximal runs of offsets below `bound` whose bytes differ, with their new bytes, in ascending
order. Offsets are visited from the top, so that a run is extended at its front. -/
def changedRuns (before after : Array Byte) : (bound : Nat) → List (Nat × List Byte) →
    List (Nat × List Byte)
  | 0, runs => runs
  | i + 1, runs =>
    if before[i]? = after[i]? then
      changedRuns before after i runs
    else
      let byte := (after[i]?).getD 0
      match runs with
      | (start, bytes) :: rest =>
        if start = i + 1 then changedRuns before after i ((i, byte :: bytes) :: rest)
        else changedRuns before after i ((i, [byte]) :: runs)
      | [] => changedRuns before after i [(i, [byte])]

structure Change where
  before : CodeBuffer
  after : CodeBuffer

namespace Change

def appended (c : Change) : Array Byte :=
  c.after.contents.extract c.before.size c.after.size

def replaced (c : Change) : List (Nat × List Byte) :=
  changedRuns c.before.contents c.after.contents c.before.size []

end Change

/-! ## Texts -/

def hexDigit (n : Nat) : Char :=
  Nat.digitChar n

def hexBytes (bytes : List Byte) : String :=
  String.ofList (bytes.flatMap fun b => [hexDigit (b.toNat / 16), hexDigit (b.toNat % 16)])

/-- One step of the digest: exclusive or with the byte, then a product with a prime. -/
def digestStep (state : UInt64) (byte : Byte) : UInt64 :=
  (state ^^^ UInt64.ofNat byte.toNat) * 0x100000001b3

/-- A digest of 64 bits, taken byte by byte. -/
def digest (bytes : Array Byte) : UInt64 :=
  bytes.foldl digestStep 0xcbf29ce484222325

def hex64 (n : Nat) : String :=
  let digits := Nat.toDigits 16 n
  String.ofList (List.replicate (16 - digits.length) '0' ++ digits)

/-- Bytes in full if there are at most `limit`, else their number and digest. -/
def abbreviated (bytes : Array Byte) (limit : Nat) : String :=
  if bytes.size ≤ limit then hexBytes bytes.toList
  else s!"{bytes.size}:{hex64 (digest bytes).toNat}"

end MachineCode
