import MachineCode.Buffer.Access

/-!
# Writes to a bare buffer

What a caller can ask of a buffer that no assembler stands in front of. Writes under a guard are
taken one by one, so those before one that fails stay.
-/

namespace MachineCode.CodeBuffer

inductive Write where
  /-- The lowest `count` bytes of a value, without a capacity check. -/
  | put (count : Nat) (value : BitVec 64)
  /-- Any bytes, with growth as needed. -/
  | append (bytes : List Byte)
  | storeByte (offset : Nat) (value : Byte)
  | storeWord (offset : Nat) (value : Word)
  | reserve (count : Nat)
  /-- Writes that stand for one instruction. A guard may stand among them. -/
  | guarded (writes : List Write)
  /-- Nothing that the buffer knows. -/
  | unknown

mutual

def Write.run : Write → Emit Unit
  | .put count value => putValue count value
  | .append bytes => CodeBuffer.append bytes
  | .storeByte offset value => CodeBuffer.storeByte offset value
  | .storeWord offset value => CodeBuffer.storeWord offset value
  | .reserve count => CodeBuffer.reserve count
  | .guarded writes => CodeBuffer.guarded (runWrites writes)
  | .unknown => throw .refused

def runWrites : List Write → Emit Unit
  | [] => pure ()
  | write :: rest => do
    write.run
    runWrites rest

end

end MachineCode.CodeBuffer
