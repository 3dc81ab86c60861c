import MachineCode.Buffer.Access

/-!
# Bytes of the code

Which bytes stand at an offset, how appends and patches change that, and what a load gives back.
-/

namespace MachineCode

/-! ## Little-endian values -/

private theorem getLsbD_ofLittleEndian {v : Nat} (w count : Nat) (value : BitVec v) (i : Nat) :
    (ofLittleEndian w (littleEndian count value)).getLsbD i =
      (decide (i < w) && decide (i < 8 * count) && value.getLsbD i) := by
  induction count generalizing value i with
  | zero => simp [littleEndian, ofLittleEndian]
  | succ count ih =>
    simp only [littleEndian, ofLittleEndian, BitVec.getLsbD_or, BitVec.getLsbD_setWidth,
      BitVec.getLsbD_shiftLeft, ih, BitVec.getLsbD_ushiftRight]
    by_cases h8 : i < 8
    · simp [h8, show i < 8 * (count + 1) by omega]
    · have hsum : 8 + (i - 8) = i := by omega
      by_cases hw : i < w
      · simp [h8, hw, hsum, show i - 8 < w by omega, show i - 8 < 8 * count ↔ i < 8 * (count + 1) by
          omega]
      · simp [hw]

theorem ofLittleEndian_littleEndian {w : Nat} (count : Nat) (value : BitVec w)
    (hw : w ≤ 8 * count) : ofLittleEndian w (littleEndian count value) = value := by
  apply BitVec.eq_of_getLsbD_eq
  intro i hi
  rw [getLsbD_ofLittleEndian, decide_eq_true hi, decide_eq_true (show i < 8 * count by omega)]
  rfl

/-! ## Bytes at an offset -/

/-- The bytes of `code` from `start` on are the given ones. -/
def Holds (code : Array Byte) (start : Nat) (bytes : List Byte) : Prop :=
  ∀ i, i < bytes.length → code[start + i]? = bytes[i]?

section

variable {code code' : Array Byte} {start : Nat} {bytes more : List Byte}

theorem Holds.congr (h : Holds code start bytes)
    (same : ∀ j, start ≤ j → j < start + bytes.length → code'[j]? = code[j]?) :
    Holds code' start bytes := by
  intro i hi
  rw [same (start + i) (by omega) (by omega)]
  exact h i hi

private theorem Holds.lt_size (h : Holds code start bytes) {i : Nat} (hi : i < bytes.length) :
    start + i < code.size := by
  have hsome : code[start + i]?.isSome := by
    rw [h i hi, List.getElem?_eq_getElem hi]
    rfl
  simpa using hsome

theorem Holds.le_size (h : Holds code start bytes) (hne : bytes ≠ []) :
    start + bytes.length ≤ code.size := by
  have hpos : 0 < bytes.length := List.length_pos_iff.mpr hne
  have := h.lt_size (i := bytes.length - 1) (by omega)
  omega

theorem holds_append :
    Holds code start (bytes ++ more) ↔
      Holds code start bytes ∧ Holds code (start + bytes.length) more := by
  constructor
  · intro h
    refine ⟨fun i hi => ?_, fun i hi => ?_⟩
    · rw [h i (by simp; omega), List.getElem?_append_left hi]
    · rw [Nat.add_assoc, h (bytes.length + i) (by simp; omega),
        List.getElem?_append_right (by omega), Nat.add_sub_cancel_left]
  · rintro ⟨hl, hr⟩ i hi
    by_cases hlt : i < bytes.length
    · rw [hl i hlt, List.getElem?_append_left hlt]
    · have hmore := hr (i - bytes.length) (by simp at hi; omega)
      rw [show start + bytes.length + (i - bytes.length) = start + i by omega] at hmore
      rw [hmore, List.getElem?_append_right (by omega)]

theorem holds_end (code : Array Byte) (bytes : List Byte) :
    Holds (code ++ bytes.toArray) code.size bytes := by
  intro i _
  rw [Array.getElem?_append_right (by omega), Nat.add_sub_cancel_left, List.getElem?_toArray]

theorem Holds.append (h : Holds code start bytes) (tail : Array Byte) :
    Holds (code ++ tail) start bytes := by
  intro i hi
  rw [Array.getElem?_append_left (h.lt_size hi)]
  exact h i hi

theorem Holds.toList_extract (h : Holds code start bytes) :
    (code.extract start (start + bytes.length)).toList = bytes := by
  apply List.ext_getElem?
  intro i
  rw [Array.getElem?_toList, Array.getElem?_extract]
  by_cases hi : i < bytes.length
  · have := h.lt_size hi
    rw [if_pos (by omega)]
    exact h i hi
  · rw [if_neg (by omega), List.getElem?_eq_none (by omega)]

end

/-! ## Patches -/

namespace CodeBuffer

theorem getElem?_overwrite (contents : Array Byte) (offset : Nat) (bytes : List Byte) (j : Nat) :
    (overwrite contents offset bytes)[j]? =
      if offset ≤ j ∧ j < offset + bytes.length ∧ j < contents.size then bytes[j - offset]?
      else contents[j]? := by
  induction bytes generalizing contents offset with
  | nil =>
    rw [overwrite, if_neg]
    simp only [List.length_nil]
    omega
  | cons byte rest ih =>
    rw [overwrite, ih, Array.size_setIfInBounds, Array.getElem?_setIfInBounds]
    simp only [List.length_cons]
    by_cases hj : j = offset
    · subst hj
      by_cases hs : j < contents.size
      · rw [if_neg (by omega), if_pos rfl, if_pos hs, if_pos (by omega), Nat.sub_self]
        rfl
      · rw [if_neg (by omega), if_pos rfl, if_neg hs, if_neg (by omega),
          Array.getElem?_eq_none (by omega)]
    · by_cases hin : offset + 1 ≤ j ∧ j < offset + 1 + rest.length ∧ j < contents.size
      · rw [if_pos hin, if_pos (by omega), show j - offset = j - (offset + 1) + 1 by omega,
          List.getElem?_cons_succ]
      · rw [if_neg hin, if_neg (Ne.symm hj), if_neg (by omega)]

theorem overwrite_append (contents : Array Byte) (offset : Nat) (bytes more : List Byte) :
    overwrite contents offset (bytes ++ more) =
      overwrite (overwrite contents offset bytes) (offset + bytes.length) more := by
  induction bytes generalizing contents offset with
  | nil => rfl
  | cons byte rest ih =>
    rw [List.cons_append, overwrite, overwrite, ih, List.length_cons, Nat.add_right_comm,
      Nat.add_assoc offset]

theorem toList_overwrite {code : Array Byte} {front old back bytes : List Byte}
    (h : code.toList = front ++ (old ++ back)) (hlen : bytes.length = old.length) :
    (overwrite code front.length bytes).toList = front ++ (bytes ++ back) := by
  induction bytes generalizing code front old with
  | nil =>
    rw [List.eq_nil_of_length_eq_zero hlen.symm] at h
    exact h
  | cons byte rest ih =>
    obtain ⟨first, old, rfl⟩ := List.exists_cons_of_length_eq_add_one hlen.symm
    have hset : (code.setIfInBounds front.length byte).toList =
        (front ++ [byte]) ++ (old ++ back) := by
      rw [Array.toList_setIfInBounds, h, List.set_append_right _ _ (Nat.le_refl _), Nat.sub_self,
        List.cons_append, List.set_cons_zero, List.append_assoc, List.singleton_append]
    have hrest := ih hset (by simpa using hlen)
    rw [List.length_append, List.length_singleton, List.append_assoc, List.singleton_append]
      at hrest
    exact hrest

end CodeBuffer

/-- The code after some of its bytes were replaced, one run after the other. -/
def edited (code : Array Byte) : List (Nat × List Byte) → Array Byte
  | [] => code
  | (offset, bytes) :: rest => edited (CodeBuffer.overwrite code offset bytes) rest

def Covers (edit : Nat × List Byte) (j : Nat) : Prop :=
  edit.1 ≤ j ∧ j < edit.1 + edit.2.length

/-- Where two runs overlap they say the same. -/
def Agree (edits : List (Nat × List Byte)) : Prop :=
  ∀ e ∈ edits, ∀ e' ∈ edits, ∀ j, Covers e j → Covers e' j → e.2[j - e.1]? = e'.2[j - e'.1]?

@[simp] theorem size_edited (code : Array Byte) (edits : List (Nat × List Byte)) :
    (edited code edits).size = code.size := by
  induction edits generalizing code with
  | nil => rfl
  | cons edit rest ih => rw [edited, ih, CodeBuffer.overwrite_size]

theorem edited_append (code : Array Byte) (edits edits' : List (Nat × List Byte)) :
    edited code (edits ++ edits') = edited (edited code edits) edits' := by
  induction edits generalizing code with
  | nil => rfl
  | cons edit rest ih => exact ih _

theorem getElem?_edited_of_not_covers {edits : List (Nat × List Byte)} {j : Nat}
    (hj : ∀ e ∈ edits, ¬Covers e j) (code : Array Byte) : (edited code edits)[j]? = code[j]? := by
  induction edits generalizing code with
  | nil => rfl
  | cons edit rest ih =>
    have hedit := hj edit (by simp)
    rw [edited, ih (fun e he => hj e (by simp [he])), CodeBuffer.getElem?_overwrite, if_neg]
    exact fun h => hedit ⟨h.1, h.2.1⟩

private theorem getElem?_edited_of_covers {edits : List (Nat × List Byte)} (hagree : Agree edits)
    {code : Array Byte} (hin : ∀ e ∈ edits, e.1 + e.2.length ≤ code.size)
    {edit : Nat × List Byte} (he : edit ∈ edits) {j : Nat} (hj : Covers edit j) :
    (edited code edits)[j]? = edit.2[j - edit.1]? := by
  induction edits generalizing code edit with
  | nil => simp at he
  | cons first rest ih =>
    rw [edited]
    -- The last run that covers the byte decides it; the earlier ones agree with that run.
    by_cases hlater : ∃ e ∈ rest, Covers e j
    · obtain ⟨e, hmem, hcov⟩ := hlater
      have hsub : Agree rest :=
        fun e he e' he' => hagree e (by simp [he]) e' (by simp [he'])
      rw [ih hsub (fun e he => by simpa using hin e (by simp [he])) hmem hcov]
      exact hagree e (by simp [hmem]) edit he j hcov hj
    · have hnot : ∀ e ∈ rest, ¬Covers e j := fun e hmem hcov => hlater ⟨e, hmem, hcov⟩
      have heq : edit = first := by
        rcases List.mem_cons.mp he with h | h
        · exact h
        · exact absurd hj (hnot edit h)
      subst heq
      have hsize := hin edit (by simp)
      rw [getElem?_edited_of_not_covers hnot, CodeBuffer.getElem?_overwrite, if_pos]
      exact ⟨hj.1, hj.2, Nat.lt_of_lt_of_le hj.2 hsize⟩

/-- Each run stands in the code afterwards. -/
theorem holds_edited {edits : List (Nat × List Byte)} (hagree : Agree edits) {code : Array Byte}
    (hin : ∀ e ∈ edits, e.1 + e.2.length ≤ code.size) {edit : Nat × List Byte}
    (he : edit ∈ edits) : Holds (edited code edits) edit.1 edit.2 := by
  intro i hi
  rw [getElem?_edited_of_covers hagree hin he ⟨by omega, by omega⟩, Nat.add_sub_cancel_left]

end MachineCode
