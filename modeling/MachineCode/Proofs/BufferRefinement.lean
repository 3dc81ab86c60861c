import MachineCode.Proofs.Assertions
import MachineCode.Proofs.Atomicity

/-!
# A buffer is a list of bytes in front of a pattern

Seen from outside, a buffer is a list: values are appended to it and replaced in it, and loads read
it. Growth moves the list to a larger block, whose rest is filled anew, so that the bytes behind the
list follow the trap pattern by their offset in the block at all times. The calls may come in any
order, may fail, and may stand under guards or not.
-/

namespace MachineCode

namespace CodeBuffer

/-! ## The pattern behind the code -/

/-- The memory past the cursor holds the fill of its offsets. -/
def Patterned (b : CodeBuffer) : Prop :=
  ∀ j, b.cursor ≤ j → j < b.contents.size → b.contents[j]? = some (fillByte b.trap j)

/-- What every work on a buffer keeps, the pattern among it. -/
structure Upholds (b c : CodeBuffer) : Prop extends Retains b c where
  pattern : b.Patterned → c.Patterned

instance : Std.Refl Upholds :=
  ⟨fun b => ⟨.refl b, fun h => h⟩⟩

instance : Trans Upholds Upholds Upholds :=
  ⟨fun h h' => ⟨h.toRetains.trans h'.toRetains, fun hb => h'.pattern (h.pattern hb)⟩⟩

private theorem fill_patterned (trap : Option TrapPattern) (start count : Nat) {j : Nat}
    (h : j < count) :
    (fill trap start count)[j]? = some (fillByte trap (start + j)) := by
  rw [Array.getElem?_eq_getElem (by simpa using h), fill_getElem]

private theorem patterned_moveTo (b : CodeBuffer) (capacity : Nat)
    (larger : b.capacity ≤ capacity) :
    (b.moveTo capacity larger).Patterned := by
  intro j hcursor hsize
  have hcap := capacity_moveTo b capacity larger
  have hle := b.cursor_le
  simp only [CodeBuffer.capacity] at hcap larger
  rw [hcap] at hsize
  simp only [moveTo] at hcursor ⊢
  have hcode : (b.contents.extract 0 b.cursor).size = b.cursor := b.size_bytes
  rw [Array.getElem?_append_right (by omega), hcode, fill_patterned _ _ _ (by omega)]
  congr 2
  omega

private theorem grow_upholds : Always Upholds grow := by
  intro b
  have hretains := (grow_ends b).mono (fun _ _ h => h.1.toRetains)
    (fun _ c h => show Retains b c from h.1 ▸ .refl b)
  simp only [Ends, grow] at hretains ⊢
  by_cases larger : b.capacity < grownCapacity b.capacity
  · by_cases hgrants : grants b.memory (grownCapacity b.capacity) = true
    · simp only [dif_pos larger, if_pos hgrants] at hretains ⊢
      exact ⟨hretains, fun _ => patterned_moveTo b _ (Nat.le_of_lt larger)⟩
    · simp only [dif_pos larger, if_neg hgrants]
      exact Std.Refl.refl b
  · simp only [dif_neg larger]
    exact Std.Refl.refl b

private theorem put_upholds (bytes : List Byte) : Always Upholds (put bytes) := by
  intro b
  have hretains := Always.retains (put_grows bytes) b
  by_cases room : b.cursor + bytes.length ≤ b.contents.size
  · simp only [Ends, put, dif_pos room] at hretains ⊢
    refine ⟨hretains, fun hb j hcursor hsize => ?_⟩
    simp only [overwrite_size] at hcursor hsize
    simp only [getElem?_overwrite]
    rw [if_neg (by omega)]
    exact hb j (by omega) hsize
  · simp only [Ends, put, dif_neg room]
    exact Std.Refl.refl b

private theorem checkEmitted_ok_le {b : CodeBuffer} {offset count : Nat}
    (h : b.checkEmitted offset count = .ok ()) : offset + count ≤ b.size := by
  simp only [checkEmitted] at h
  split at h
  · cases h
  · split at h
    · cases h
    · next hle => exact Nat.le_of_not_lt hle

private theorem store_upholds (offset : Nat) (bytes : List Byte) :
    Always Upholds (store offset bytes) := by
  intro b
  have hretains := store_retains offset bytes b
  simp only [Ends, store] at hretains ⊢
  cases hcheck : b.checkEmitted offset bytes.length with
  | error v => exact Std.Refl.refl b
  | ok _ =>
    have hinside : offset + bytes.length ≤ b.cursor := checkEmitted_ok_le hcheck
    rw [hcheck] at hretains
    refine ⟨hretains, fun hb j (hcursor : b.cursor ≤ j) hsize => ?_⟩
    simp only [overwrite_size] at hsize
    simp only [getElem?_overwrite]
    rw [if_neg (by omega)]
    exact hb j hcursor hsize

private theorem makeRoom_upholds : Always Upholds makeRoom :=
  makeRoom_always grow_upholds

private theorem reserve_upholds (count : Nat) : Always Upholds (reserve count) :=
  reserve_always grow_upholds count

private theorem append_upholds (bytes : List Byte) : Always Upholds (append bytes) :=
  (reserve_upholds _).bind fun _ => put_upholds bytes

private theorem checkGap_upholds (start : Nat) : Always Upholds (checkGap start) :=
  always_get.bind fun _ => .ite (always_throw _) (always_pure _)

/-! ## Calls -/

/-- What a caller can ask of a buffer, and what its allocator can decide in between. -/
inductive Call where
  /-- The lowest `count` bytes of a value, without a capacity check. -/
  | emit (count : Nat) (value : BitVec 64)
  /-- Any bytes, with growth as needed. -/
  | append (bytes : List Byte)
  | loadByte (offset : Nat)
  | loadWord (offset : Nat)
  | loadSigned (offset : Nat)
  | storeByte (offset : Nat) (value : Byte)
  | storeWord (offset : Nat) (value : Word)
  | reserve (count : Nat)
  /-- A guard, after a capacity check. -/
  | acquire
  /-- The end of the innermost guard. -/
  | release
  /-- The allocator has another limit from now on. -/
  | allow (memory : Nat)

/-- A buffer and the sizes at which its guards were taken, the innermost first. -/
structure Held where
  buffer : CodeBuffer
  guards : List Nat

namespace Held

/-- Work on the buffer, after which it has the given guards. -/
def perform (h : Held) (guards : CodeBuffer → List Nat) (work : Emit Unit) : Held × Outcome :=
  match work h.buffer with
  | .ok _ b => (⟨b, guards b⟩, .reply .done)
  | .error failure b => (⟨b, h.guards⟩, .failed failure)

def write (h : Held) (work : Emit Unit) : Held × Outcome :=
  h.perform (fun _ => h.guards) work

def ask (h : Held) (value : Except Violation Int) : Held × Outcome :=
  match value with
  | .ok n => (h, .reply (.number n))
  | .error v => (h, .failed (.violation v))

def call (h : Held) : Call → Held × Outcome
  | .emit count value => h.write (putValue count value)
  | .append bytes => h.write (CodeBuffer.append bytes)
  | .loadByte offset => h.ask ((h.buffer.loadByte offset).map fun value => value.toNat)
  | .loadWord offset => h.ask ((h.buffer.loadWord offset).map fun value => value.toNat)
  | .loadSigned offset => h.ask ((h.buffer.loadWord offset).map fun value => value.toInt)
  | .storeByte offset value => h.write (CodeBuffer.storeByte offset value)
  | .storeWord offset value => h.write (CodeBuffer.storeWord offset value)
  | .reserve count => h.write (CodeBuffer.reserve count)
  | .acquire => h.perform (fun b => b.size :: h.guards) makeRoom
  | .release =>
    match h.guards with
    | [] => (h, .failed .refused)
    | start :: outer => write ⟨h.buffer, outer⟩ (checkGap start)
  | .allow memory => (⟨h.buffer.allow memory, h.guards⟩, .reply .done)

def after (h : Held) (calls : List Call) : Held :=
  calls.foldl (fun h call => (h.call call).1) h

def log (h : Held) : List Call → List (Call × Outcome)
  | [] => []
  | call :: rest => (call, (h.call call).2) :: (h.call call).1.log rest

end Held

/-- The list with the bytes from `offset` on replaced. -/
def splice (code : List Byte) (offset : Nat) (bytes : List Byte) : List Byte :=
  code.take offset ++ bytes ++ code.drop (offset + bytes.length)

/-- What a call that gets through makes of the list. -/
def Call.onList (code : List Byte) : Call → List Byte
  | .emit count value => code ++ littleEndian count value
  | .append bytes => code ++ bytes
  | .storeByte offset value => splice code offset [value]
  | .storeWord offset value => splice code offset (littleEndian 4 value)
  | _ => code

/-- What a call makes of the list. One that fails leaves it. -/
def Call.onOutcome (call : Call) (code : List Byte) : Outcome → List Byte
  | .reply _ => call.onList code
  | .failed _ => code

def written (code : List Byte) : List (Call × Outcome) → List Byte
  | [] => code
  | (call, outcome) :: rest => written (call.onOutcome code outcome) rest

def Call.onLoad? (code : List Byte) : Call → Option Int
  | .loadByte offset =>
    if offset + 1 ≤ code.length then
      some (ofLittleEndian 8 ((code.drop offset).take 1)).toNat
    else none
  | .loadWord offset =>
    if offset + 4 ≤ code.length then
      some (ofLittleEndian 32 ((code.drop offset).take 4)).toNat
    else none
  | .loadSigned offset =>
    if offset + 4 ≤ code.length then
      some (ofLittleEndian 32 ((code.drop offset).take 4)).toInt
    else none
  | _ => none

/-- The call goes past the end of what it is about: the memory, the code or the gap. -/
def Call.Oversteps (h : Held) : Call → Prop
  | .emit count _ => h.buffer.capacity < h.buffer.size + count
  | .loadByte offset | .storeByte offset _ => h.buffer.size < offset + 1
  | .loadWord offset | .loadSigned offset | .storeWord offset _ => h.buffer.size < offset + 4
  | .release => ∃ start ∈ h.guards.head?, instructionGap < h.buffer.size - start
  | .append _ | .reserve _ | .acquire | .allow _ => False

def Call.emitted : Call → List Byte
  | .emit count value => littleEndian count value
  | .append bytes => bytes
  | _ => []

def Call.isEmit : Call → Bool
  | .emit .. | .append _ => true
  | _ => false

def Call.patch? : Call → Option (Nat × List Byte)
  | .storeByte offset value => some (offset, [value])
  | .storeWord offset value => some (offset, littleEndian 4 value)
  | _ => none

/-- The bytes that a call writes to a list of the given length, and where. -/
def Call.placed? (length : Nat) (call : Call) : Option (Nat × List Byte) :=
  if call.isEmit then some (length, call.emitted) else call.patch?

/-- The call failed, or it stored nothing into the `count` bytes from `position` on. -/
def Spares (position count : Nat) (entry : Call × Outcome) : Prop :=
  entry.2.isReply = true → ∀ offset bytes, entry.1.patch? = some (offset, bytes) →
    offset + bytes.length ≤ position ∨ position + count ≤ offset

private theorem perform_rule {h : Held} {guards : CodeBuffer → List Nat} {work : Emit Unit}
    {P : Held × Outcome → Prop}
    (hends : Ends work h.buffer (fun _ c => P (⟨c, guards c⟩, .reply .done))
      (fun e c => P (⟨c, h.guards⟩, .failed e))) : P (h.perform guards work) := by
  simp only [Ends] at hends
  simp only [Held.perform]
  cases hrun : work h.buffer with
  | ok _ c => simpa only [hrun] using hends
  | error e c => simpa only [hrun] using hends

private theorem perform_upholds {h : Held} {guards : CodeBuffer → List Nat} {work : Emit Unit}
    (hwork : Always Upholds work) : Upholds h.buffer (h.perform guards work).1.buffer :=
  perform_rule (P := fun result => Upholds h.buffer result.1.buffer) (hwork h.buffer)

private theorem ask_buffer (h : Held) (value : Except Violation Int) : (h.ask value).1 = h := by
  cases value <;> rfl

private theorem call_upholds (h : Held) (call : Call) :
    Upholds h.buffer (h.call call).1.buffer := by
  have hasked : ∀ value, Upholds h.buffer (h.ask value).1.buffer := by
    intro value
    rw [ask_buffer]
    exact Std.Refl.refl h.buffer
  cases call with
  | emit count value => exact perform_upholds (put_upholds _)
  | append bytes => exact perform_upholds (append_upholds bytes)
  | loadByte offset => exact hasked _
  | loadWord offset => exact hasked _
  | loadSigned offset => exact hasked _
  | storeByte offset value => exact perform_upholds (store_upholds _ _)
  | storeWord offset value => exact perform_upholds (store_upholds _ _)
  | reserve count => exact perform_upholds (reserve_upholds count)
  | acquire => exact perform_upholds makeRoom_upholds
  | release =>
    obtain ⟨buffer, guards⟩ := h
    cases guards with
    | nil => exact Std.Refl.refl buffer
    | cons start outer => exact perform_upholds (h := ⟨buffer, outer⟩) (checkGap_upholds start)
  | allow memory => exact ⟨(appends_allow memory h.buffer).toRetains, fun hpattern => hpattern⟩

private theorem after_upholds (h : Held) (calls : List Call) :
    Upholds h.buffer (h.after calls).buffer := by
  induction calls generalizing h with
  | nil => exact Std.Refl.refl h.buffer
  | cons call rest ih => exact Trans.trans (call_upholds h call) (ih (h.call call).1)

/-! ## What a call does -/

private theorem getElem?_splice {code bytes : List Byte} {offset : Nat}
    (inside : offset + bytes.length ≤ code.length) (j : Nat) :
    (splice code offset bytes)[j]? =
      if offset ≤ j ∧ j < offset + bytes.length then bytes[j - offset]? else code[j]? := by
  have htake : (code.take offset).length = offset := by
    rw [List.length_take]
    omega
  rw [splice, List.append_assoc]
  by_cases hbefore : j < offset
  · rw [List.getElem?_append_left (by omega), List.getElem?_take_of_lt hbefore, if_neg (by omega)]
  · rw [List.getElem?_append_right (by omega), htake]
    by_cases hin : j < offset + bytes.length
    · rw [List.getElem?_append_left (by omega), if_pos (by omega)]
    · rw [List.getElem?_append_right (by omega), List.getElem?_drop, if_neg (by omega)]
      congr 1
      omega

private theorem overwrite_eq_splice {code : Array Byte} {bytes : List Byte} {offset : Nat}
    (inside : offset + bytes.length ≤ code.size) :
    (overwrite code offset bytes).toList = splice code.toList offset bytes := by
  have hlen : code.toList.length = code.size := Array.length_toList
  have hfront : (code.toList.take offset).length = offset := by
    rw [List.length_take]
    omega
  have hold : ((code.toList.drop offset).take bytes.length).length = bytes.length := by
    rw [List.length_take, List.length_drop]
    omega
  have hcode : code.toList = code.toList.take offset ++
      ((code.toList.drop offset).take bytes.length ++
        code.toList.drop (offset + bytes.length)) := by
    rw [← List.drop_drop, List.take_append_drop, List.take_append_drop]
  have hoverwrite := toList_overwrite hcode hold.symm
  rw [hfront] at hoverwrite
  rw [hoverwrite, splice, List.append_assoc]

/-- The list that a call leaves, and when it breaks an assertion. -/
structure Does (call : Call) (h : Held) (result : Held × Outcome) : Prop where
  bytes : result.1.buffer.bytes.toList = call.onOutcome h.buffer.bytes.toList result.2
  violates : result.2.isViolation = true ↔ call.Oversteps h

section

variable {h : Held} {call : Call} {c : CodeBuffer} {guards : List Nat}

private theorem does_append {tail : List Byte} (hcall : ∀ code, call.onList code = code ++ tail)
    (happ : Appends tail.toArray h.buffer c) (hnot : ¬call.Oversteps h) :
    Does call h (⟨c, guards⟩, .reply .done) where
  bytes := by
    rw [Call.onOutcome, hcall, happ.bytes]
    simp
  violates := by simp [Outcome.isViolation, hnot]

private theorem does_fail {e : Failure} (happ : Appends #[] h.buffer c)
    (hviolates : e.isViolation = true ↔ call.Oversteps h) :
    Does call h (⟨c, guards⟩, .failed e) where
  bytes := by
    rw [Call.onOutcome, happ.bytes, Array.append_empty]
  violates := hviolates

private theorem does_fail_memory {e : Failure} (happ : Appends #[] h.buffer c)
    (he : e.isMemory = true) (hnot : ¬call.Oversteps h) : Does call h (⟨c, guards⟩, .failed e) :=
  does_fail happ (by simp [Failure.isViolation_of_isMemory he, hnot])

end

private theorem emit_does (h : Held) (count : Nat) (value : BitVec 64) :
    Does (.emit count value) h (h.call (.emit count value)) := by
  apply perform_rule
  by_cases room : h.buffer.cursor + count ≤ h.buffer.contents.size
  · apply (put_ends _ h.buffer).mono
    · exact fun _ c happ => does_append (fun _ => rfl) happ (Nat.not_lt.mpr room)
    · rintro _ _ ⟨-, hfull⟩
      rw [littleEndian_length] at hfull
      exact absurd room (Nat.not_le.mpr hfull)
  · have hput : putValue count value h.buffer = .error (.violation .writePastMemory) h.buffer := by
      simp only [putValue, put, littleEndian_length]
      rw [dif_neg room]
    simp only [Ends, hput]
    exact does_fail (.refl _) ⟨fun _ => Nat.lt_of_not_le room, fun _ => rfl⟩

private theorem append_does (h : Held) (bytes : List Byte) :
    Does (.append bytes) h (h.call (.append bytes)) := by
  apply perform_rule
  simp only [append, ends_bind]
  apply ((reserve_ends bytes.length h.buffer).and (reserve_still _ h.buffer)).mono
  · rintro - c ⟨⟨happ, hlimit⟩, -⟩
    apply (put_ends bytes c).mono
    · intro _ d happ'
      exact does_append (fun _ => rfl) (by simpa using happ.trans happ') fun hfalse => hfalse
    · rintro _ _ ⟨-, hfull⟩
      simp only [limit] at hlimit
      omega
  · exact fun e c hc => does_fail_memory hc.2 hc.1 fun hfalse => hfalse

private theorem store_does {h : Held} (granted : h.buffer.Granted) {call : Call} {offset : Nat}
    {bytes : List Byte} (hlist : ∀ code, call.onList code = splice code offset bytes)
    (hsteps : call.Oversteps h ↔ h.buffer.size < offset + bytes.length) :
    Does call h (h.write (store offset bytes)) := by
  apply perform_rule
  by_cases inside : offset + bytes.length ≤ h.buffer.size
  · apply (store_ends granted inside).mono
    · intro _ c hc
      refine ⟨?_, by simp [Outcome.isViolation, hsteps, inside]⟩
      rw [Call.onOutcome, hlist, hc.bytes, edited, edited,
        overwrite_eq_splice (by simpa using inside)]
    · exact fun _ _ hfalse => hfalse.elim
  · have hcheck : ∃ v, h.buffer.checkEmitted offset bytes.length = .error v := by
      simp only [checkEmitted]
      split
      · exact ⟨_, rfl⟩
      · exact ⟨_, if_pos (Nat.lt_of_not_le inside)⟩
    obtain ⟨v, hv⟩ := hcheck
    simp only [Ends, store, hv]
    exact does_fail (.refl _) (by simpa [Failure.isViolation, hsteps] using inside)

private theorem ask_does {h : Held} {call : Call} (hlist : ∀ code, call.onList code = code)
    {α : Type} {value : Except Violation α} {f : α → Int}
    (hsteps : call.Oversteps h ↔ ∃ v, value = .error v) : Does call h (h.ask (value.map f)) := by
  cases value with
  | ok n =>
    refine ⟨?_, by simp [hsteps, Held.ask, Except.map, Outcome.isViolation]⟩
    simp only [Held.ask, Except.map, Call.onOutcome, hlist]
  | error v =>
    refine ⟨rfl, ?_⟩
    simp [hsteps, Held.ask, Except.map, Outcome.isViolation, Failure.isViolation]

private theorem call_does {h : Held} (granted : h.buffer.Granted) (call : Call) :
    Does call h (h.call call) := by
  have hload : ∀ w offset count, h.buffer.size < offset + count ↔
      ∃ v, h.buffer.load w offset count = .error v := fun w offset count =>
    (load_eq_error_iff granted w offset count).symm
  cases call with
  | emit count value => exact emit_does h count value
  | append bytes => exact append_does h bytes
  | loadByte offset => exact ask_does (fun _ => rfl) (hload 8 offset 1)
  | loadWord offset => exact ask_does (fun _ => rfl) (hload 32 offset 4)
  | loadSigned offset => exact ask_does (fun _ => rfl) (hload 32 offset 4)
  | storeByte offset value => exact store_does granted (fun _ => rfl) Iff.rfl
  | storeWord offset value =>
    exact store_does granted (fun _ => rfl) (by rw [littleEndian_length]; rfl)
  | reserve count =>
    refine perform_rule (((reserve_ends count h.buffer).and (reserve_still _ h.buffer)).mono ?_ ?_)
    · exact fun _ c hc => does_append (fun _ => (List.append_nil _).symm) hc.2 fun hfalse => hfalse
    · exact fun _ c hc => does_fail_memory hc.2 hc.1 fun hfalse => hfalse
  | acquire =>
    refine perform_rule ((makeRoom_ends h.buffer).mono ?_ ?_)
    · exact fun _ c hc => does_append (fun _ => (List.append_nil _).symm) hc.1 fun hfalse => hfalse
    · rintro e _ ⟨rfl, he⟩
      exact does_fail_memory (.refl _) he fun hfalse => hfalse
  | release =>
    obtain ⟨buffer, guards⟩ := h
    cases guards with
    | nil => exact ⟨rfl, by simp [Held.call, Outcome.isViolation, Failure.isViolation,
        Call.Oversteps]⟩
    | cons start outer =>
      have hsteps : Call.Oversteps ⟨buffer, start :: outer⟩ .release ↔
          instructionGap < buffer.size - start := by
        simp [Call.Oversteps]
      have hbytes : ∀ outcome, Call.onOutcome .release buffer.bytes.toList outcome =
          buffer.bytes.toList := fun outcome => by cases outcome <;> rfl
      refine perform_rule ?_
      simp only [checkGap, ends_bind, ends_get, ends_ite, ends_throw, ends_pure]
      refine ⟨fun hover => ?_, fun hwithin => ?_⟩
      · exact ⟨(hbytes _).symm, fun _ => hsteps.mpr hover, fun _ => rfl⟩
      · exact ⟨(hbytes _).symm, fun hreply => (by cases hreply),
          fun hover => absurd (hsteps.mp hover) hwithin⟩
  | allow memory =>
    exact does_append (fun _ => (List.append_nil _).symm) (appends_allow memory h.buffer)
      fun hfalse => hfalse

private theorem load_eq {b : CodeBuffer} (granted : b.Granted) (w : Nat) {offset count : Nat}
    (inside : offset + count ≤ b.size) :
    b.load w offset count = .ok (ofLittleEndian w ((b.bytes.toList.drop offset).take count)) := by
  have hcode : (b.contents.extract offset (offset + count)).toList =
      (b.bytes.toList.drop offset).take count := by
    apply List.ext_getElem?
    intro j
    rw [Array.getElem?_toList, Array.getElem?_extract, List.getElem?_take, List.getElem?_drop,
      Array.getElem?_toList, getElem?_bytes]
    have := b.size_le_capacity
    simp only [capacity] at this
    by_cases hj : j < count
    · rw [if_pos (by omega), if_pos hj, if_pos (by omega)]
    · rw [if_neg (by omega), if_neg hj]
  simp only [load, checkEmitted_eq_ok granted inside, hcode]
  rfl

private theorem call_of_onLoad? {h : Held} (granted : h.buffer.Granted) {call : Call} {n : Int}
    (hcall : call.onLoad? h.buffer.bytes.toList = some n) :
    h.call call = (h, .reply (.number n)) := by
  have hlength : h.buffer.bytes.toList.length = h.buffer.size := by simp
  have hload := fun w {offset count} => @load_eq _ granted w offset count
  cases call with
  | loadByte offset =>
    simp only [Call.onLoad?, hlength] at hcall
    split at hcall
    · next inside =>
      cases hcall
      simp only [Held.call, loadByte, hload 8 inside, Except.map, Held.ask]
    · cases hcall
  | loadWord offset =>
    simp only [Call.onLoad?, hlength] at hcall
    split at hcall
    · next inside =>
      cases hcall
      simp only [Held.call, loadWord, hload 32 inside, Except.map, Held.ask]
    · cases hcall
  | loadSigned offset =>
    simp only [Call.onLoad?, hlength] at hcall
    split at hcall
    · next inside =>
      cases hcall
      simp only [Held.call, loadWord, hload 32 inside, Except.map, Held.ask]
    · cases hcall
  | _ => cases hcall

private theorem write_guards (h : Held) (work : Emit Unit) :
    (h.write work).1.guards = h.guards := by
  simp only [Held.write, Held.perform]
  cases work h.buffer <;> rfl

private theorem emit_within {h : Held} {call : Call} (hemit : call.isEmit = true)
    (hroom : h.buffer.size + call.emitted.length ≤ h.buffer.capacity) :
    (h.call call).1.guards = h.guards ∧ ¬call.Oversteps h := by
  cases call with
  | emit count value =>
    refine ⟨write_guards h _, ?_⟩
    simpa only [Call.Oversteps, Call.emitted, littleEndian_length, Nat.not_lt] using hroom
  | append bytes => exact ⟨write_guards h _, fun hfalse => hfalse⟩
  | _ => cases hemit

private theorem Call.onList_cases (call : Call) :
    (call.isEmit = true ∧ ∀ code, call.onList code = code ++ call.emitted) ∨
    (call.isEmit = false ∧ ∃ offset bytes, call.patch? = some (offset, bytes) ∧
      (∀ code, call.onList code = splice code offset bytes) ∧
      ∀ h, call.Oversteps h ↔ h.buffer.size < offset + bytes.length) ∨
    call.isEmit = false ∧ call.patch? = none ∧ ∀ code, call.onList code = code := by
  cases call with
  | emit count value => exact .inl ⟨rfl, fun _ => rfl⟩
  | append bytes => exact .inl ⟨rfl, fun _ => rfl⟩
  | storeByte offset value => exact .inr (.inl ⟨rfl, _, _, rfl, fun _ => rfl, fun _ => Iff.rfl⟩)
  | storeWord offset value =>
    refine .inr (.inl ⟨rfl, _, _, rfl, fun _ => rfl, fun _ => ?_⟩)
    rw [littleEndian_length]
    rfl
  | _ => exact .inr (.inr ⟨rfl, rfl, fun _ => rfl⟩)

private theorem emits_within_gap {h : Held} (granted : h.buffer.Granted) {start : Nat}
    {outer : List Nat} (hguards : h.guards = start :: outer)
    (hroom : start + instructionGap ≤ h.buffer.capacity) {emits : List Call}
    (hemits : ∀ call ∈ emits, call.isEmit = true)
    (htotal : h.buffer.size + (emits.flatMap Call.emitted).length ≤ start + instructionGap) :
    ∀ entry ∈ h.log (emits ++ [.release]), entry.2.isViolation = false := by
  induction emits generalizing h with
  | nil =>
    have hwithin : ¬Call.Oversteps h .release := by
      simp only [Call.Oversteps, hguards, List.head?_cons, Option.mem_some_iff, exists_eq_left']
      simp only [List.flatMap_nil, List.length_nil] at htotal
      omega
    simpa [Held.log, ← Bool.not_eq_true, (call_does granted .release).violates] using hwithin
  | cons call rest ih =>
    rw [List.forall_mem_cons] at hemits
    rw [List.flatMap_cons, List.length_append] at htotal
    have hdoes := call_does granted call
    have hupholds := call_upholds h call
    obtain ⟨hguards', hwithin⟩ := emit_within (h := h) hemits.1 (by omega)
    have hlist : ∀ code, call.onList code = code ++ call.emitted := by
      rcases call.onList_cases with ⟨-, hlist⟩ | ⟨hnot, -⟩ | ⟨hnot, -⟩
      · exact hlist
      · cases hnot.symm.trans hemits.1
      · cases hnot.symm.trans hemits.1
    have hsize : (h.call call).1.buffer.size ≤ h.buffer.size + call.emitted.length := by
      have hlength := congrArg List.length hdoes.bytes
      cases houtcome : (h.call call).2 with
      | reply _ =>
        rw [houtcome, Call.onOutcome, hlist, List.length_append] at hlength
        simpa using Nat.le_of_eq hlength
      | failed _ =>
        rw [houtcome, Call.onOutcome] at hlength
        simp only [Array.length_toList, size_bytes] at hlength
        omega
    rw [List.cons_append, Held.log, List.forall_mem_cons]
    refine ⟨?_, ih (hupholds.granted granted) (hguards'.trans hguards)
      (Nat.le_trans hroom hupholds.capacity) hemits.2 (by omega)⟩
    simpa [← Bool.not_eq_true, hdoes.violates] using hwithin

/-! ## Runs of calls -/

private theorem after_cons (h : Held) (call : Call) (rest : List Call) :
    h.after (call :: rest) = (h.call call).1.after rest :=
  rfl

private theorem after_append (h : Held) (before rest : List Call) :
    h.after (before ++ rest) = (h.after before).after rest :=
  List.foldl_append ..

private theorem after_written {h : Held} (granted : h.buffer.Granted) (calls : List Call) :
    (h.after calls).buffer.bytes.toList = written h.buffer.bytes.toList (h.log calls) := by
  induction calls generalizing h with
  | nil => rfl
  | cons call rest ih =>
    rw [after_cons, ih ((call_upholds h call).granted granted), Held.log, written,
      (call_does granted call).bytes]

section

variable {h : Held} (granted : h.buffer.Granted) {call : Call} {position : Nat} {bytes : List Byte}

include granted

private theorem bytes_of_reply (hreply : (h.call call).2.isReply = true) :
    (h.call call).1.buffer.bytes = (call.onList h.buffer.bytes.toList).toArray ∧
      ¬call.Oversteps h := by
  have hdoes := call_does granted call
  obtain ⟨hbytes, hviolates⟩ := hdoes
  cases houtcome : (h.call call).2 with
  | failed _ =>
    rw [houtcome] at hreply
    cases hreply
  | reply _ =>
    rw [houtcome] at hbytes hviolates
    refine ⟨?_, fun hover => by cases hviolates.mpr hover⟩
    rw [← Array.toList_inj, hbytes]
    rfl

/-- Where a call that got through wrote, its bytes stand. -/
private theorem call_places (hreply : (h.call call).2.isReply = true)
    (hplaced : call.placed? h.buffer.size = some (position, bytes)) :
    Holds (h.call call).1.buffer.bytes position bytes := by
  obtain ⟨hbytes, hwithin⟩ := bytes_of_reply granted hreply
  rcases call.onList_cases with
    ⟨hemit, hlist⟩ | ⟨hnot, offset, patch, hpatch, hlist, hsteps⟩ | ⟨hnot, hnone, -⟩
  · rw [Call.placed?, if_pos hemit] at hplaced
    cases hplaced
    rw [hbytes, hlist, ← List.append_toArray, Array.toArray_toList, ← size_bytes]
    exact holds_end _ _
  · rw [Call.placed?, hnot, if_neg (by simp), hpatch] at hplaced
    cases hplaced
    rw [hsteps, Nat.not_lt] at hwithin
    intro i hi
    rw [hbytes, hlist, List.getElem?_toArray, getElem?_splice (by simpa using hwithin),
      if_pos (by omega), Nat.add_sub_cancel_left]
  · rw [Call.placed?, hnot, if_neg (by simp), hnone] at hplaced
    cases hplaced

/-- A call keeps the bytes that it does not store into. -/
private theorem call_spares (hspares : Spares position bytes.length (call, (h.call call).2))
    (hholds : Holds h.buffer.bytes position bytes) :
    Holds (h.call call).1.buffer.bytes position bytes := by
  cases houtcome : (h.call call).2 with
  | failed _ =>
    have hbytes := (call_does granted call).bytes
    rw [houtcome, Call.onOutcome, Array.toList_inj] at hbytes
    rw [hbytes]
    exact hholds
  | reply _ =>
    have hreply : (h.call call).2.isReply = true := by rw [houtcome]; rfl
    obtain ⟨hbytes, hwithin⟩ := bytes_of_reply granted hreply
    rcases call.onList_cases with
      ⟨-, hlist⟩ | ⟨-, offset, patch, hpatch, hlist, hsteps⟩ | ⟨-, -, hlist⟩
    · rw [hbytes, hlist, ← List.append_toArray, Array.toArray_toList]
      exact hholds.append _
    · rw [hsteps, Nat.not_lt] at hwithin
      have hapart := hspares hreply offset patch hpatch
      refine hholds.congr fun j hle hlt => ?_
      rw [hbytes, hlist, List.getElem?_toArray, getElem?_splice (by simpa using hwithin),
        if_neg (by omega), Array.getElem?_toList]
    · rw [hbytes, hlist, Array.toArray_toList]
      exact hholds

end

private theorem after_spares {h : Held} (granted : h.buffer.Granted) {calls : List Call}
    {position : Nat} {bytes : List Byte}
    (hspares : ∀ entry ∈ h.log calls, Spares position bytes.length entry)
    (hholds : Holds h.buffer.bytes position bytes) :
    Holds (h.after calls).buffer.bytes position bytes := by
  induction calls generalizing h with
  | nil => exact hholds
  | cons call rest ih =>
    rw [Held.log, List.forall_mem_cons] at hspares
    exact ih ((call_upholds h call).granted granted) hspares.2
      (call_spares granted hspares.1 hholds)

/-- The buffer shows the given list of bytes in front of the pattern that it was created with. -/
structure Faithful (options : Options) (pattern : TrapPattern) (code : List Byte) (h : Held) :
    Prop where
  bytes : h.buffer.bytes.toList = code
  capacity : 2 * instructionGap ≤ h.buffer.capacity
  grows : ∀ calls, h.buffer.capacity ≤ (h.after calls).buffer.capacity
  unused : ∀ j, h.buffer.unused[j]? =
    if j < h.buffer.capacity - h.buffer.size then
      some (if options.trapFill then pattern[(h.buffer.size + j) % 4] else 0#8)
    else none
  loads : ∀ call n, call.onLoad? code = some n → h.call call = (h, .reply (.number n))
  violations : ∀ call, (h.call call).2.isViolation = true ↔ call.Oversteps h
  guarded : (h.call .acquire).2.isReply = true →
    ∀ emits, (∀ call ∈ emits, call.isEmit = true) →
      (emits.flatMap Call.emitted).length ≤ instructionGap →
      ∀ entry ∈ (h.call .acquire).1.log (emits ++ [.release]), entry.2.isViolation = false

private theorem create_patterned {id memory : Nat} {options : Options} {pattern : TrapPattern}
    {b : CodeBuffer} (hb : create id memory options pattern = .ok b) :
    b.bytes = #[] ∧ b.Patterned ∧ b.Granted ∧
      b.trap = if options.trapFill then some pattern else none := by
  simp only [create] at hb
  split at hb
  · next hgrants =>
    cases hb
    refine ⟨by simp [bytes], fun j _ hj => ?_, ?_, rfl⟩
    · simp only [fill_size] at hj ⊢
      rw [fill_patterned _ _ _ hj, Nat.zero_add]
    · simp only [grants, Bool.and_eq_true, decide_eq_true_eq] at hgrants
      simpa only [Granted, CodeBuffer.capacity, fill_size] using hgrants.2
  · cases hb

private theorem Patterned.unused {b : CodeBuffer} (h : b.Patterned) (j : Nat) :
    b.unused[j]? =
      if j < b.capacity - b.size then some (fillByte b.trap (b.size + j)) else none := by
  have hsize : b.size = b.cursor := rfl
  have hcapacity : b.capacity = b.contents.size := rfl
  have hle := b.cursor_le
  rw [CodeBuffer.unused, Array.getElem?_extract, hsize]
  by_cases hj : j < b.capacity - b.cursor
  · rw [if_pos (by omega), if_pos hj, h _ (by omega) (by omega)]
  · rw [if_neg (by omega), if_neg hj]

theorem acquire_makesRoom (h : Held) (hreply : (h.call .acquire).2.isReply = true) :
    (h.call .acquire).1.guards = (h.call .acquire).1.buffer.size :: h.guards ∧
      (h.call .acquire).1.buffer.size + instructionGap ≤ (h.call .acquire).1.buffer.capacity := by
  refine perform_rule (P := fun result => result.2.isReply = true →
    result.1.guards = result.1.buffer.size :: h.guards ∧
      result.1.buffer.size + instructionGap ≤ result.1.buffer.capacity) ?_ hreply
  apply (makeRoom_ends h.buffer).mono
  · exact fun _ c hc _ => ⟨rfl, hc.2⟩
  · exact fun _ _ _ hfailed => by cases hfailed

/-- Any sequence of calls on a new buffer leaves what a list would be left as, and a value can be
loaded from where it was last emitted or stored. -/
theorem buffer_refines_list {id memory : Nat} {options : Options} {pattern : TrapPattern}
    {b : CodeBuffer} (hb : create id memory options pattern = .ok b) (calls : List Call) :
    Faithful options pattern (written [] (Held.log ⟨b, []⟩ calls)) (Held.after ⟨b, []⟩ calls) ∧
    ∀ before call later position bytes, calls = before ++ call :: later →
      ((Held.after ⟨b, []⟩ before).call call).2.isReply = true →
      call.placed? (Held.after ⟨b, []⟩ before).buffer.size = some (position, bytes) →
      bytes ≠ [] →
      (∀ entry ∈ ((Held.after ⟨b, []⟩ before).call call).1.log later,
        Spares position bytes.length entry) →
      ∀ w, (Held.after ⟨b, []⟩ calls).buffer.load w position bytes.length =
        .ok (ofLittleEndian w bytes) := by
  obtain ⟨hempty, hpatterned, hgrant, htrap⟩ := create_patterned hb
  have hupholds := fun calls => after_upholds ⟨b, []⟩ calls
  have hgranted : ∀ calls, (Held.after ⟨b, []⟩ calls).buffer.Granted := fun calls =>
    (hupholds calls).granted hgrant
  have hbytes : (Held.after ⟨b, []⟩ calls).buffer.bytes.toList =
      written [] (Held.log ⟨b, []⟩ calls) := by
    rw [after_written (h := ⟨b, []⟩) hgrant, hempty]
  refine ⟨?_, fun before call later position bytes hcalls hreply hplaced hne hspares w => ?_⟩
  · constructor
    case bytes => exact hbytes
    case capacity => exact CodeBuffer.gaps_le _
    case grows => exact fun more => (after_upholds _ more).capacity
    case unused =>
      intro j
      rw [((hupholds calls).pattern hpatterned).unused, (hupholds calls).trap, htrap]
      cases options.trapFill <;> rfl
    case loads =>
      intro call n hload
      rw [← hbytes] at hload
      exact call_of_onLoad? (hgranted calls) hload
    case violations => exact fun call => (call_does (hgranted calls) call).violates
    case guarded =>
      intro hreply emits hemits htotal
      obtain ⟨hguards, hroom⟩ := acquire_makesRoom _ hreply
      exact emits_within_gap ((call_upholds _ .acquire).granted (hgranted calls)) hguards hroom
        hemits (Nat.add_le_add_left htotal _)
  · have hholds := call_places (hgranted before) hreply hplaced
    have hafter : Held.after ⟨b, []⟩ calls =
        ((Held.after ⟨b, []⟩ before).call call).1.after later := by
      rw [hcalls, after_append, after_cons]
    have hlater := after_spares
      ((call_upholds _ call).granted (hgranted before)) hspares hholds
    rw [← hafter] at hlater
    have hinside := hlater.le_size hne
    rw [size_bytes] at hinside
    have hslice := hlater.toList_extract
    rw [Array.toList_extract, List.extract_eq_take_drop, Nat.add_sub_cancel_left] at hslice
    rw [load_eq (hgranted calls) w hinside, hslice]

private def tiny : Options :=
  { Options.standard with initialCapacity := 0 }

/-- Bytes up to the gap, an emit into the gap, and growth under a guard. -/
private def opening : List Call :=
  [.append (List.replicate 30 0x90#8), .emit 8 0x0807060504030201#64, .acquire, .emit 4 0xFF#64]

/-- A store that ends at offset 28, one beyond the code, more bytes than there is memory for, and
the end of the guard. -/
private def closing : List Call :=
  [.storeByte 27 0xCC#8, .storeWord 40 0#32, .reserve 1000, .release]

theorem opening_closing_refine :
    ∃ b, create 0 256 tiny X86.trapPattern = .ok b ∧
      Faithful tiny X86.trapPattern
        (written [] (Held.log ⟨b, []⟩ (opening ++ .storeWord 28 0xDDCCBBAA#32 :: closing)))
        (Held.after ⟨b, []⟩ (opening ++ .storeWord 28 0xDDCCBBAA#32 :: closing)) ∧
      (Held.after ⟨b, []⟩ (opening ++ .storeWord 28 0xDDCCBBAA#32 :: closing)).buffer.loadWord 28 =
        .ok 0xDDCCBBAA#32 := by
  have hrun : (create 0 256 tiny X86.trapPattern).toOption.map (fun b =>
        ((Held.after ⟨b, []⟩ opening).call (.storeWord 28 0xDDCCBBAA#32)).2.isReply) =
      some true := by
    decide +kernel
  cases hb : create 0 256 tiny X86.trapPattern with
  | error e =>
    rw [hb] at hrun
    cases hrun
  | ok b =>
    rw [hb] at hrun
    obtain ⟨hfaithful, hloads⟩ :=
      buffer_refines_list hb (opening ++ .storeWord 28 0xDDCCBBAA#32 :: closing)
    refine ⟨b, rfl, hfaithful, ?_⟩
    refine hloads opening _ closing 28 (littleEndian 4 0xDDCCBBAA#32) rfl (Option.some.inj hrun) rfl
      (by decide) ?_ 32
    simp only [closing, Held.log, List.forall_mem_cons]
    refine ⟨fun _ offset bytes hpatch => ?_, fun _ offset bytes hpatch => ?_,
      fun _ _ _ hpatch => ?_, fun _ _ _ hpatch => ?_, by simp⟩
    · cases hpatch
      exact .inl (by decide)
    · cases hpatch
      exact .inr (by decide)
    · cases hpatch
    · cases hpatch

end CodeBuffer

end MachineCode
