import MachineCode.Proofs.Buffer

/-!
# How far a reservation grows

A reservation is a loop of growth steps: as long as the code and the reserved bytes reach into the
gap, take one more. The capacities that the steps ask for form a sequence that depends on the first
of them only. The loop follows it up to the first capacity with enough room, unless the allocator
refuses one before. Each request is larger than the last and a refusal ends the loop, so the largest
block that is granted says all there is to say about an allocator while the loop runs.
-/

namespace MachineCode.CodeBuffer

/-- The number, or the greatest of 64 bits if it needs more. -/
def saturated (n : Nat) : Nat :=
  min n 0xFFFFFFFFFFFFFFFF

/-- The capacity that `steps` growth steps lead to. Each step doubles it or adds a mebibyte,
whichever is less. -/
def growthSequence (capacity : Nat) : (steps : Nat) → Nat
  | 0 => capacity
  | steps + 1 =>
    min (saturated (2 * growthSequence capacity steps))
      (saturated (growthSequence capacity steps + 0x100000))

private theorem grownCapacity_eq (capacity : Nat) :
    grownCapacity capacity =
      min (saturated (2 * capacity)) (saturated (capacity + 0x100000)) := by
  simp only [grownCapacity, saturated, offsetSpace, maxGrowth]

/-- The size, the code and the count of pending labels are the same. -/
def SameCode (b c : CodeBuffer) : Prop :=
  c.size = b.size ∧ c.bytes = b.bytes ∧ c.unresolved = b.unresolved

private theorem Appends.sameCode {b c : CodeBuffer} (h : Appends #[] b c) : SameCode b c :=
  ⟨by simpa using h.size, by simpa using h.bytes, h.unresolved⟩

/-! ## One step -/

/-- The next growth step is the failure `e`: it would not add to the capacity, or the allocator
refuses what it asks for. -/
def Blocked (b : CodeBuffer) (e : Failure) : Prop :=
  grownCapacity b.capacity ≤ b.capacity ∧ e = .error (.capacityOverflow b.capacity) ∨
  b.capacity < grownCapacity b.capacity ∧ grants b.memory (grownCapacity b.capacity) = false ∧
    e = .error (.outOfMemory (grownCapacity b.capacity))

theorem grow_exact (b : CodeBuffer) :
    Ends grow b
      (fun _ c => c.capacity = grownCapacity b.capacity ∧ c.memory = b.memory ∧
        grants b.memory (grownCapacity b.capacity) = true)
      (fun e _ => Blocked b e) := by
  by_cases larger : b.capacity < grownCapacity b.capacity
  · by_cases hgrants : grants b.memory (grownCapacity b.capacity) = true
    · simp only [Ends, grow, dif_pos larger, if_pos hgrants]
      exact ⟨capacity_moveTo b _ (Nat.le_of_lt larger), rfl, hgrants⟩
    · simp only [Ends, grow, dif_pos larger, if_neg hgrants]
      exact .inr ⟨larger, Bool.eq_false_iff.mpr hgrants, rfl⟩
  · simp only [Ends, grow, dif_neg larger]
    exact .inl ⟨Nat.le_of_not_lt larger, rfl⟩

theorem Granted.lt_grownCapacity {b : CodeBuffer} (h : b.Granted) :
    b.capacity < grownCapacity b.capacity := by
  have hgap : 2 * instructionGap ≤ b.capacity := b.gaps_le
  simp only [Granted, blockLimit] at h
  simp only [grownCapacity, offsetSpace, maxGrowth, instructionGap] at hgap ⊢
  omega

/-! ## All steps -/

/-- Growth led from `b` to `c` in `steps` steps. Each was granted, and before each there was no room
for `needed` bytes. -/
structure Stretches (needed : Nat) (b : CodeBuffer) (steps : Nat) (c : CodeBuffer) : Prop extends
    Appends #[] b c where
  memory : c.memory = b.memory
  reached : c.capacity = growthSequence b.capacity steps
  cramped : ∀ j < steps, growthSequence b.capacity j - instructionGap < needed
  allowed : ∀ j < steps, grants b.memory (growthSequence b.capacity (j + 1)) = true

namespace Stretches

variable {needed steps : Nat} {b c d : CodeBuffer}

private theorem refl (b : CodeBuffer) : Stretches needed b 0 b where
  toAppends := .refl b
  memory := rfl
  reached := rfl
  cramped _ h := absurd h (Nat.not_lt_zero _)
  allowed _ h := absurd h (Nat.not_lt_zero _)

private theorem next_eq (h : Stretches needed b steps c) :
    grownCapacity c.capacity = growthSequence b.capacity (steps + 1) := by
  rw [h.reached, grownCapacity_eq, growthSequence]

private theorem grow (h : Stretches needed b steps c) (hgo : Cramped needed c)
    (happ : Appends #[] c d) (hcapacity : d.capacity = grownCapacity c.capacity)
    (hmemory : d.memory = c.memory) (hgrants : grants c.memory (grownCapacity c.capacity) = true) :
    Stretches needed b (steps + 1) d where
  toAppends := by simpa using h.toAppends.trans happ
  memory := hmemory.trans h.memory
  reached := hcapacity.trans h.next_eq
  cramped j hj := by
    rcases Nat.lt_succ_iff_lt_or_eq.mp hj with hbefore | rfl
    · exact h.cramped j hbefore
    · rw [← h.reached]
      exact hgo
  allowed j hj := by
    rcases Nat.lt_succ_iff_lt_or_eq.mp hj with hbefore | rfl
    · exact h.allowed j hbefore
    · rw [← h.next_eq, ← h.memory]
      exact hgrants

/-- Seen from where growth started, a step that fails is at an end of the sequence that no granted
block has, or at a capacity that the allocator refuses. -/
private theorem blocked {e : Failure} (h : Stretches needed b steps c) (hblocked : Blocked c e) :
    growthSequence b.capacity (steps + 1) ≤ c.capacity ∧ ¬b.Granted ∧
        e = .error (.capacityOverflow c.capacity) ∨
      c.capacity < growthSequence b.capacity (steps + 1) ∧
        grants b.memory (growthSequence b.capacity (steps + 1)) = false ∧
        e = .error (.outOfMemory (growthSequence b.capacity (steps + 1))) := by
  rw [Blocked, h.next_eq, h.memory] at hblocked
  refine hblocked.imp_left fun ⟨hend, he⟩ => ⟨hend, fun hb => ?_, he⟩
  have hlarger := (h.granted hb).lt_grownCapacity
  rw [h.next_eq] at hlarger
  omega

end Stretches

private theorem reserve_eq (count : Nat) (b : CodeBuffer) :
    reserve count b =
      if b.size + count < offsetSpace then growTo (b.size + count) (b.size + count) b
      else .error (.error (.capacityOverflow b.capacity)) b := by
  change (ite (b.size + count < offsetSpace) _ _ : Emit Unit) b = _
  split <;> rfl

/-- A reservation that offsets can express ends where there is room, or at the first step that
fails. -/
theorem reserve_stretches {b : CodeBuffer} {count : Nat} (hspace : b.size + count < offsetSpace) :
    Loops (Cramped (b.size + count)) grow b (reserve count b) ∧
    Ends (reserve count) b
      (fun _ c => ∃ steps, Stretches (b.size + count) b steps c ∧ ¬Cramped (b.size + count) c)
      (fun e c => ∃ steps, Stretches (b.size + count) b steps c ∧ Cramped (b.size + count) c ∧
        Blocked c e) := by
  have hreserve := reserve_eq count b
  rw [if_pos hspace] at hreserve
  have hloops := growTo_loops (Nat.le_add_left (b.size + count) b.limit)
  rw [← hreserve] at hloops
  refine ⟨hloops, ?_⟩
  have hpass : ∀ c, (∃ steps, Stretches (b.size + count) b steps c) → Cramped (b.size + count) c →
      Ends grow c (fun _ d => ∃ steps, Stretches (b.size + count) b steps d)
        (fun e d => ∃ steps, Stretches (b.size + count) b steps d ∧ Cramped (b.size + count) d ∧
          Blocked d e) := by
    rintro c ⟨steps, hsteps⟩ hgo
    apply ((grow_ends c).and (grow_exact c)).mono
    · rintro - d ⟨⟨happ, -⟩, hcapacity, hmemory, hgrants⟩
      exact ⟨_, hsteps.grow hgo happ hcapacity hmemory hgrants⟩
    · rintro e d ⟨⟨rfl, -⟩, hblocked⟩
      exact ⟨steps, hsteps, hgo, hblocked⟩
  apply (hloops.ends hpass ⟨0, .refl b⟩).mono
  · rintro - c ⟨⟨steps, hsteps⟩, hroom⟩
    exact ⟨steps, hsteps, hroom⟩
  · exact fun _ _ h => h

theorem append_succeeds_iff (bytes : List Byte) (b : CodeBuffer) :
    (∃ c, append bytes b = .ok () c) ↔ ∃ c, reserve bytes.length b = .ok () c := by
  have hbind : append bytes b = EStateM.bind (reserve bytes.length) (fun _ => put bytes) b := rfl
  have hends := reserve_ends bytes.length b
  rw [hbind, EStateM.bind]
  cases hreserve : reserve bytes.length b with
  | error e c => simp
  | ok _ c =>
    rw [Ends, hreserve] at hends
    have hroom : c.cursor + bytes.length ≤ c.contents.size := by
      have hlimit := hends.2
      simp only [size, limit, capacity] at hlimit
      omega
    simp [put, hroom]

/-- A reservation is the loop of growth steps, and the loop stops. If it succeeds, the capacity is
the first of the sequence with room for the code and the reserved bytes below the gap. It fails if
their end is no offset, if growth comes to its end, which it does in no block that an allocator can
grant, or at the first capacity of the sequence that the allocator refuses. Code and pending labels
stay in each case, and as many bytes can be appended exactly if they can be reserved. -/
theorem reserve_reaches_first_room (b : CodeBuffer) (count : Nat) :
    (b.size + count < offsetSpace → ∀ result,
      Loops (Cramped (b.size + count)) grow b result ↔ result = reserve count b) ∧
    Ends (reserve count) b
      (fun _ c => ∃ steps, Stretches (b.size + count) b steps c ∧
        b.size + count ≤ c.capacity - instructionGap)
      (fun e c =>
        offsetSpace ≤ b.size + count ∧ c = b ∧ e = .error (.capacityOverflow b.capacity) ∨
        b.size + count < offsetSpace ∧ ∃ steps, Stretches (b.size + count) b steps c ∧
          c.capacity - instructionGap < b.size + count ∧
          (growthSequence b.capacity (steps + 1) ≤ c.capacity ∧ ¬b.Granted ∧
              e = .error (.capacityOverflow c.capacity) ∨
            c.capacity < growthSequence b.capacity (steps + 1) ∧
              grants b.memory (growthSequence b.capacity (steps + 1)) = false ∧
              e = .error (.outOfMemory (growthSequence b.capacity (steps + 1))))) ∧
    Ends (reserve count) b (fun _ c => SameCode b c) (fun _ c => SameCode b c) ∧
    ∀ bytes : List Byte, bytes.length = count →
      ((∃ c, append bytes b = .ok () c) ↔ ∃ c, reserve count b = .ok () c) := by
  refine ⟨fun hspace result => ?_, ?_, ?_, fun bytes hlength => ?_⟩
  · have hloops := (reserve_stretches hspace).1
    exact ⟨fun h => h.unique hloops, fun h => h ▸ hloops⟩
  · by_cases hspace : b.size + count < offsetSpace
    · apply (reserve_stretches hspace).2.mono
      · rintro - c ⟨steps, hsteps, hroom⟩
        exact ⟨steps, hsteps, Nat.le_of_not_lt hroom⟩
      · rintro e c ⟨steps, hsteps, hgo, hblocked⟩
        exact .inr ⟨hspace, steps, hsteps, hgo, hsteps.blocked hblocked⟩
    · rw [Ends, reserve_eq, if_neg hspace]
      exact .inl ⟨Nat.le_of_not_lt hspace, rfl, rfl⟩
  · exact (reserve_still count b).mono (fun _ _ h => h.sameCode) (fun _ _ h => h.sameCode)
  · subst hlength
    exact append_succeeds_iff bytes b

private def leastBlock : Options :=
  { Options.standard with initialCapacity := 0, trapFill := false }

private def capacity? : EStateM.Result Failure CodeBuffer Unit → Option Nat
  | .ok _ c => some c.capacity
  | .error _ _ => none

private def refusal? : EStateM.Result Failure CodeBuffer Unit → Option Failure
  | .ok _ _ => none
  | .error e _ => some e

/-- From 64 bytes and with an allocator that has 300, two steps make room for 100 bytes. For 225 a
third would be needed, and it is refused. -/
theorem leastBlock_reserves :
    ∃ b c d, create 0 300 leastBlock (Vector.replicate 4 0xCC#8) = .ok b ∧
      reserve 100 b = .ok () c ∧ c.capacity = 256 ∧ Loops (Cramped 100) grow b (.ok () c) ∧
      (∃ steps, Stretches 100 b steps c ∧ 100 ≤ c.capacity - instructionGap) ∧
      (∃ appended, append (List.replicate 100 0x90#8) b = .ok () appended) ∧
      reserve 225 b = .error (.error (.outOfMemory 512)) d ∧ SameCode b d := by
  have hrun : (create 0 300 leastBlock (Vector.replicate 4 0xCC#8)).toOption.map (fun b =>
        (b.size, capacity? (reserve 100 b), refusal? (reserve 225 b))) =
      some (0, some 256, some (.error (.outOfMemory 512))) := by
    decide +kernel
  cases hb : create 0 300 leastBlock (Vector.replicate 4 0xCC#8) with
  | error e =>
    rw [hb] at hrun
    cases hrun
  | ok b =>
    rw [hb] at hrun
    obtain ⟨hsize, hrun⟩ := Prod.mk.inj (Option.some.inj hrun)
    obtain ⟨hcapacity, hrefusal⟩ := Prod.mk.inj hrun
    obtain ⟨hloops, hends, -, happend⟩ := reserve_reaches_first_room b 100
    obtain ⟨-, -, hsame, -⟩ := reserve_reaches_first_room b 225
    rw [hsize, Nat.zero_add] at hloops hends
    cases hc : reserve 100 b with
    | error e c =>
      rw [hc] at hcapacity
      cases hcapacity
    | ok _ c =>
      cases hd : reserve 225 b with
      | ok _ d =>
        rw [hd] at hrefusal
        cases hrefusal
      | error e d =>
        rw [hc] at hcapacity hloops happend
        rw [hd] at hrefusal
        rw [Ends, hc] at hends
        rw [Ends, hd] at hsame
        obtain rfl := Option.some.inj hrefusal
        exact ⟨b, c, d, rfl, hc, Option.some.inj hcapacity, (hloops (by decide) _).mpr rfl, hends,
          (happend _ List.length_replicate).mpr ⟨c, rfl⟩, hd, hsame⟩

end MachineCode.CodeBuffer
