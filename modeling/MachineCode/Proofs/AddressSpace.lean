import MachineCode.Proofs.Code

/-!
# Addressable memory

Bytes by their addresses, and values of several bytes with the lowest byte first. Addresses count
modulo the size of the space.
-/

namespace MachineCode

/-- The bytes that a program can address. -/
abbrev AddressSpace := BitVec 64 → Byte

namespace AddressSpace

def bytes (space : AddressSpace) (address : BitVec 64) : (count : Nat) → List Byte
  | 0 => []
  | count + 1 => space address :: bytes space (address + 1#64) count

def read (space : AddressSpace) (w : Nat) (address : BitVec 64) (count : Nat) : BitVec w :=
  ofLittleEndian w (space.bytes address count)

def write (space : AddressSpace) (address : BitVec 64) : List Byte → AddressSpace
  | [] => space
  | byte :: rest => fun a => if a = address then byte else write space (address + 1#64) rest a

@[simp] theorem length_bytes (space : AddressSpace) (address : BitVec 64) (count : Nat) :
    (space.bytes address count).length = count := by
  induction count generalizing address with
  | zero => rfl
  | succ count ih => rw [bytes, List.length_cons, ih]

theorem bytes_add (space : AddressSpace) (address : BitVec 64) (count more : Nat) :
    space.bytes address (count + more) =
      space.bytes address count ++ space.bytes (address + BitVec.ofNat 64 count) more := by
  induction count generalizing address with
  | zero => simp [bytes]
  | succ count ih =>
    have hnext : address + 1#64 + BitVec.ofNat 64 count =
        address + BitVec.ofNat 64 (count + 1) := by
      rw [BitVec.add_assoc, BitVec.add_comm 1#64, ← BitVec.ofNat_add]
    rw [Nat.add_right_comm, bytes, bytes, ih, hnext, List.cons_append]

private theorem bytes_congr {space space' : AddressSpace} {address : BitVec 64} {count : Nat}
    (h : ∀ i < count, space (address + BitVec.ofNat 64 i) = space' (address + BitVec.ofNat 64 i)) :
    space.bytes address count = space'.bytes address count := by
  induction count with
  | zero => rfl
  | succ count ih =>
    rw [bytes_add, bytes_add, ih fun i hi => h i (by omega)]
    simp only [bytes, h count (by omega)]

/-- What is written is read back, unless it runs around the whole space. -/
theorem bytes_write (space : AddressSpace) (address : BitVec 64) {code : List Byte}
    (h : code.length ≤ 1 <<< 64) : (space.write address code).bytes address code.length = code := by
  induction code generalizing address with
  | nil => rfl
  | cons byte rest ih =>
    rw [List.length_cons] at h
    have hrest : (space.write address (byte :: rest)).bytes (address + 1#64) rest.length =
        (space.write (address + 1#64) rest).bytes (address + 1#64) rest.length := by
      apply bytes_congr
      intro i hi
      have hne : address + 1#64 + BitVec.ofNat 64 i ≠ address := by
        intro heq
        have hnat := congrArg BitVec.toNat heq
        simp only [BitVec.toNat_add, BitVec.toNat_ofNat] at hnat
        omega
      exact if_neg hne
    have hfirst : space.write address (byte :: rest) address = byte := if_pos rfl
    rw [List.length_cons, bytes, hfirst, hrest, ih _ (by omega)]

theorem read_write (space : AddressSpace) (address : BitVec 64) {w count : Nat} (value : BitVec w)
    (hw : w ≤ 8 * count) (h : count ≤ 1 <<< 64) :
    (space.write address (littleEndian count value)).read w address count = value := by
  have hlength : (littleEndian count value).length ≤ 1 <<< 64 := by
    rw [littleEndian_length]
    exact h
  have hbytes := space.bytes_write address hlength
  rw [littleEndian_length] at hbytes
  rw [read, hbytes, ofLittleEndian_littleEndian count value hw]

/-- Bytes apart from what is written stay; how far they are is counted from its start. -/
theorem write_apart (space : AddressSpace) {address a : BitVec 64} {code : List Byte}
    (h : code.length ≤ (a - address).toNat) : space.write address code a = space a := by
  induction code generalizing address with
  | nil => rfl
  | cons byte rest ih =>
    rw [List.length_cons] at h
    have hne : a ≠ address := by
      intro heq
      rw [heq, BitVec.sub_self] at h
      simp at h
    have hrest : rest.length ≤ (a - (address + 1#64)).toNat := by
      rw [BitVec.toNat_sub] at h ⊢
      rw [BitVec.toNat_add]
      have ha := a.isLt
      have haddress := address.isLt
      simp only [BitVec.toNat_ofNat]
      omega
    exact (if_neg hne).trans (ih hrest)

end AddressSpace

end MachineCode
