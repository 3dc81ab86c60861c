import MachineCode.Proofs.Binding

/-!
# What stays of the code

Every request but a binding leaves the code in front of what it appends. A binding keeps the size
and changes bits of the displacements of its branches only. In a guard and the branch behind it, the
sense of the guard may change too, and the word behind it altogether.
-/

namespace MachineCode

/-! ## Bits of a run of bytes -/

/-- Two runs of bytes differ at most in the bits that are set in a third. -/
structure DifferWithin (masks bytes bytes' : List Byte) : Prop where
  length : bytes.length = masks.length
  length' : bytes'.length = masks.length
  bits : ∀ (n : Nat) (x y : Byte), bytes[n]? = some x → bytes'[n]? = some y → ∀ k,
    x.getLsbD k ≠ y.getLsbD k → ∃ mask : Byte, masks[n]? = some mask ∧ mask.getLsbD k = true

private theorem DifferWithin.append {masks masks' xs xs' ys ys' : List Byte}
    (h : DifferWithin masks xs ys) (h' : DifferWithin masks' xs' ys') :
    DifferWithin (masks ++ masks') (xs ++ xs') (ys ++ ys') := by
  refine ⟨by simp [h.length, h'.length], by simp [h.length', h'.length'], ?_⟩
  intro n x y hx hy k hne
  by_cases hn : n < masks.length
  · rw [List.getElem?_append_left (by rw [h.length]; exact hn)] at hx
    rw [List.getElem?_append_left (by rw [h.length']; exact hn)] at hy
    rw [List.getElem?_append_left hn]
    exact h.bits n x y hx hy k hne
  · have hle := Nat.le_of_not_lt hn
    rw [List.getElem?_append_right (by rw [h.length]; exact hle), h.length] at hx
    rw [List.getElem?_append_right (by rw [h.length']; exact hle), h.length'] at hy
    rw [List.getElem?_append_right hle]
    exact h'.bits _ x y hx hy k hne

private theorem getElem?_littleEndian {w count : Nat} (value : BitVec w) {n : Nat}
    (hn : n < count) :
    (littleEndian count value)[n]? = some ((value >>> (8 * n)).setWidth 8) := by
  induction count generalizing value n with
  | zero => omega
  | succ count ih =>
    cases n with
    | zero => simp [littleEndian]
    | succ n =>
      rw [littleEndian, List.getElem?_cons_succ, ih _ (by omega),
        show 8 * (n + 1) = 8 + 8 * n by omega, BitVec.shiftRight_add]

private theorem differWithin_littleEndian {w : Nat} {mask value value' : BitVec w}
    (h : ∀ p, value.getLsbD p ≠ value'.getLsbD p → mask.getLsbD p = true) (count : Nat) :
    DifferWithin (littleEndian count mask) (littleEndian count value)
      (littleEndian count value') := by
  refine ⟨by simp, by simp, ?_⟩
  intro n x y hx hy k hne
  have hn : n < count := by
    have := (List.getElem?_eq_some_iff.mp hx).1
    simpa using this
  rw [getElem?_littleEndian _ hn] at hx hy
  obtain rfl := Option.some.inj hx
  obtain rfl := Option.some.inj hy
  refine ⟨_, getElem?_littleEndian _ hn, ?_⟩
  simp only [BitVec.getLsbD_setWidth, BitVec.getLsbD_ushiftRight, ne_eq] at hne ⊢
  by_cases hk : k < 8
  · simp only [hk, decide_true, Bool.true_and] at hne ⊢
    exact h _ hne
  · simp [hk] at hne

private theorem differWithin_allOnes {w : Nat} (count : Nat) (value value' : BitVec w) :
    DifferWithin (littleEndian count (BitVec.allOnes w)) (littleEndian count value)
      (littleEndian count value') := by
  apply differWithin_littleEndian
  intro p hne
  rw [BitVec.getLsbD_allOnes, decide_eq_true_eq]
  apply Nat.lt_of_not_le
  intro hp
  exact hne (by rw [BitVec.getLsbD_of_ge _ _ hp, BitVec.getLsbD_of_ge _ _ hp])

/-! ## Bits that a binding may change -/

/-- The bit of an A64 branch word that says on which outcome of its test it is taken. -/
def A64.senseOf (word : Word) : Word :=
  ((A64.BranchKind.ofWord? word).map A64.BranchKind.senseBit).getD 0#32

/-- What a binding may change from the site of a branch on: all of an x86-64 displacement, the field
of an A64 word, or the field and the sense of a guard and the word behind it. -/
def Shape.openBits : Shape → List Byte
  | .short _ => littleEndian 1 (BitVec.allOnes 8)
  | .long _ => littleEndian 4 (BitVec.allOnes 32)
  | .single word => littleEndian 4 (A64.fieldOf word).mask
  | .pair word =>
    littleEndian 4 ((A64.fieldOf word).mask ||| A64.senseOf word) ++
      littleEndian 4 (BitVec.allOnes 32)

def Issue.Opens (r : Issue) (j k : Nat) : Prop :=
  ∃ mask : Byte, r.site ≤ j ∧ r.shape.openBits[j - r.site]? = some mask ∧ mask.getLsbD k = true

private theorem DispField.mask_or_ne_of_insert_ne {f : DispField} {d d' : Int} {word word' : Word}
    {p : Nat} (h : (f.insert d word).getLsbD p ≠ (f.insert d' word').getLsbD p) :
    f.mask.getLsbD p = true ∨ word.getLsbD p ≠ word'.getLsbD p := by
  rw [getLsbD_insert, getLsbD_insert] at h
  by_cases hin : f.shift ≤ p ∧ p < f.shift + f.bits
  · left
    rw [getLsbD_mask, decide_eq_true hin.1, decide_eq_true hin.2]
    rfl
  · right
    rwa [if_neg hin, if_neg hin] at h

namespace A64

private theorem differWithin_single (word : Word) (d : Int) (site position : Nat) :
    DifferWithin (Shape.single word).openBits ((Shape.single word).link d)
      ((Shape.single word).patch site position) := by
  apply differWithin_littleEndian
  intro p hne
  rcases DispField.mask_or_ne_of_insert_ne hne with hmask | hsame
  · exact hmask
  · exact absurd rfl hsame

/-- The guard is the opposite of the branch, so the two differ in the sense and the field. -/
private theorem differWithin_pair {word : Word} {k : BranchKind}
    (hk : BranchKind.ofWord? word = some k) (d : Int) (site position : Nat) :
    DifferWithin (Shape.pair word).openBits ((Shape.pair word).link d)
      ((Shape.pair word).patch site position) := by
  simp only [Shape.openBits, Shape.link, Shape.patch]
  split
  · refine .append (differWithin_littleEndian (fun p hne => ?_) 4) (differWithin_allOnes _ _ _)
    rw [BitVec.getLsbD_or, Bool.or_eq_true]
    rw [guardOf] at hne
    rcases DispField.mask_or_ne_of_insert_ne hne with hmask | hsense
    · exact .inl hmask
    · right
      rw [invertBranch_eq_xor hk, BitVec.getLsbD_xor] at hsense
      rw [senseOf, hk, Option.map_some, Option.getD_some]
      cases hbit : k.senseBit.getLsbD p with
      | true => rfl
      | false => simp [hbit] at hsense
  · refine .append (differWithin_littleEndian (fun p hne => ?_) 4) (differWithin_allOnes _ _ _)
    exact absurd rfl hne

end A64

private theorem Target.Chained.differWithin {target : Target} {shape : Shape}
    (h : target.Chained shape) (d : Int) (site position : Nat) :
    DifferWithin shape.openBits (shape.link d) (shape.patch site position) := by
  have hbyte : ∀ value : Byte, littleEndian 1 value = [value] := by
    intro value
    simp only [littleEndian, BitVec.setWidth_eq]
  cases target with
  | x86 =>
    cases shape with
    | short _ =>
      simp only [Shape.link, Shape.patch, ← hbyte]
      exact differWithin_allOnes _ _ _
    | long _ => exact differWithin_allOnes _ _ _
    | single _ => exact h.elim
    | pair _ => exact h.elim
  | a64 far =>
    cases shape with
    | short _ => exact h.elim
    | long _ => exact h.elim
    | single word => exact A64.differWithin_single word d site position
    | pair word =>
      obtain ⟨-, k, hk, -⟩ := h
      exact A64.differWithin_pair hk d site position
  | bare => exact h.elim

/-- The bits that a binding changed belong to branches to its label. -/
private theorem Agrees.opens_of_bound {labels : Labels} {a : Assembler} {ledger : Ledger}
    (h : Agrees labels a ledger) {name : String} {t : Linking}
    (ht : Bound ledger name ⟨a.buffer, labels.get name⟩ t) {j k : Nat} {x y : Byte}
    (hx : a.buffer.bytes[j]? = some x) (hy : t.buffer.bytes[j]? = some y)
    (hne : x.getLsbD k ≠ y.getLsbD k) : ∃ r ∈ ledger, r.name = name ∧ r.Opens j k := by
  obtain ⟨heads, hp⟩ := ht.unbound
  obtain ⟨edits, hlist, hpatches⟩ := ht.patched
  have hbytes : t.buffer.bytes = edited a.buffer.bytes edits := hpatches.bytes
  by_cases hcovers : ∃ e ∈ edits, Covers e j
  · obtain ⟨e, he, hj⟩ := hcovers
    obtain ⟨r, hr, hname, rfl⟩ := hlist.sound e he
    obtain ⟨older, hs⟩ := Ledger.exists_suffix_of_mem hr
    obtain ⟨hchained, hpending⟩ := h.pending r older hs heads (hname ▸ hp)
    have hinside : ∀ e ∈ edits, e.1 + e.2.length ≤ a.buffer.bytes.size := by
      intro e he
      rw [CodeBuffer.size_bytes]
      exact hlist.inside h.stacked he
    have hafter := holds_edited (hlist.agree h.stacked) hinside he
    rw [← hbytes] at hafter
    simp only [Covers, Shape.length_patch] at hj
    have hbefore := hpending.holds_link (j - r.site) (by simp; omega)
    have hafter := hafter (j - r.site) (by simp; omega)
    simp only [Nat.add_sub_cancel' hj.1] at hbefore hafter
    obtain ⟨mask, hmask, hbit⟩ := (hchained.differWithin _ r.site a.buffer.size).bits (j - r.site)
      x y (hbefore.symm.trans hx) (hafter.symm.trans hy) k hne
    exact ⟨r, hr, hname, mask, hj.1, hmask, hbit⟩
  · have hkept : t.buffer.bytes[j]? = a.buffer.bytes[j]? := by
      rw [hbytes]
      exact getElem?_edited_of_not_covers (fun e he hj => hcovers ⟨e, he, hj⟩) _
    rw [hkept, hx] at hy
    cases hy
    exact absurd rfl hne

/-! ## Requests -/

private theorem Serves.appends {request : Request} {a : Assembler} {a' : Option Assembler}
    {labels labels' : Labels} {ledger ledger' : Ledger}
    (h : Serves request a labels ledger a' labels' ledger') (htarget : a.target ≠ .bare)
    (hbind : ∀ name, request ≠ .bind name) (hhand : request ≠ .handOver) :
    ∃ b tail, a' = some b ∧ b.buffer.bytes = a.buffer.bytes ++ tail := by
  cases h with
  | kept hgrows =>
    obtain ⟨tail, happ⟩ := hgrows
    exact ⟨_, tail, rfl, happ.bytes⟩
  | bare hbare _ => exact absurd hbare htarget
  | gone hgone => exact absurd hgone hhand
  | refused _ ht => exact ⟨_, #[], rfl, ht.buffer.bytes⟩
  | @placed name _ _ _ _ ht =>
    cases hp : (labels.get name).place with
    | bound p => exact ⟨_, _, rfl, (ht.bound p hp).2.2.bytes⟩
    | unbound heads => exact ⟨_, _, rfl, (ht.unbound heads hp).2.2.2.1.bytes⟩
  | bound _ isBind _ => exact absurd isBind (hbind _)

namespace Session

/-- In every state that a session can reach, a request that is neither a binding nor a hand-over
leaves the code in front of what it appends. A binding keeps the size, and every bit that it changes
is one that a branch waiting for the label opens. -/
theorem code_kept_outside_fields (events : List Event) {i : Nat} {a : Assembler}
    (ha : (empty.run events).assembler? i = some a) (htarget : a.target ≠ .bare) :
    (∀ request, (∀ name, request ≠ .bind name) → request ≠ .handOver →
      ∃ b tail, ((empty.run events).step i request).1.assembler? i = some b ∧
        b.buffer.bytes = a.buffer.bytes ++ tail) ∧
    ∀ name, ∃ b, ((empty.run events).step i (.bind name)).1.assembler? i = some b ∧
      b.buffer.size = a.buffer.size ∧
      ∀ j (x y : Byte), a.buffer.bytes[j]? = some x → b.buffer.bytes[j]? = some y →
        ∀ k, x.getLsbD k ≠ y.getLsbD k →
          ∃ r ∈ waitingFor a.target i events name, r.Opens j k := by
  have hconsistent := consistent_run events
  obtain ⟨-, hagrees⟩ := hconsistent.agrees i a ha
  refine ⟨fun request hbind hhand => ?_, fun name => ?_⟩
  · have hserves := Assembler.serve_serves hagrees hconsistent.fresh request
    obtain ⟨b, tail, hb, hbytes⟩ := hserves.appends htarget hbind hhand
    exact ⟨b, tail, by rw [assembler?_step ha, if_pos rfl, hb], hbytes⟩
  · rcases Assembler.serve_bind hagrees hconsistent.fresh htarget name with
      ⟨t, ht, hserved⟩ | ⟨_, t, ht, -, hserved⟩
    · refine ⟨⟨a.target, t.buffer⟩, by rw [assembler?_step ha, if_pos rfl, hserved], ?_, ?_⟩
      · obtain ⟨edits, -, hpatches⟩ := ht.patched
        exact hpatches.size
      · intro j x y hx hy k hne
        obtain ⟨heads, hp⟩ : ∃ heads, ((empty.run events).labels.get name).place = .unbound heads :=
          ht.unbound
        obtain ⟨r, hr, hname, hopens⟩ := hagrees.opens_of_bound ht hx hy hne
        have hopen : ((empty.run events).labels.get name).position? = none := by
          simp only [Label.position?, hp]
        exact ⟨r, (mem_waitingFor ha hopen).mpr ⟨hr, hname⟩, hopens⟩
    · have hbytes : t.buffer.bytes = a.buffer.bytes := by simpa using ht.buffer.bytes
      refine ⟨⟨a.target, t.buffer⟩, by rw [assembler?_step ha, if_pos rfl, hserved], ?_, ?_⟩
      · rw [← CodeBuffer.size_bytes, ← CodeBuffer.size_bytes, hbytes]
      · intro j x y hx hy k hne
        rw [hbytes, hx] at hy
        cases hy
        exact absurd rfl hne

/-- A guarded branch to one label and a plain one to another. -/
private def guardedRun : List Event :=
  [.add 4096 .a64 { Options.standard with initialCapacity := 64, farBranches := true },
   .request 0 (.a64Branch "out" (.onCondition .eq)),
   .request 0 (.a64Branch "loop" (.jump false))]

theorem guardedRun_code_kept :
    ∃ a b, (empty.run guardedRun).assembler? 0 = some a ∧
      ((empty.run guardedRun).step 0 (.bind "out")).1.assembler? 0 = some b ∧
      b.buffer.bytes ≠ a.buffer.bytes ∧ b.buffer.size = a.buffer.size ∧
      ∀ j (x y : Byte), a.buffer.bytes[j]? = some x → b.buffer.bytes[j]? = some y →
        ∀ k, x.getLsbD k ≠ y.getLsbD k →
          ∃ r ∈ waitingFor (.a64 true) 0 guardedRun "out", r.Opens j k := by
  obtain ⟨a, ha, hpair⟩ := Option.map_eq_some_iff.mp
    (show ((empty.run guardedRun).assembler? 0).map (fun a => (a.target, a.buffer.bytes[0]?)) =
      some (.a64 true, some 0x41#8) by decide +kernel)
  obtain ⟨htarget, hbefore⟩ := Prod.mk.inj hpair
  obtain ⟨b, hb, hsize, hbits⟩ :=
    (code_kept_outside_fields guardedRun ha (by simp [htarget])).2 "out"
  have hafter : (((empty.run guardedRun).step 0 (.bind "out")).1.assembler? 0).map
      (fun b => b.buffer.bytes[0]?) = some (some 0x60#8) := by
    decide +kernel
  rw [hb, Option.map_some, Option.some.injEq] at hafter
  rw [htarget] at hbits
  refine ⟨a, b, ha, hb, fun hsame => ?_, hsize, hbits⟩
  rw [hsame, hbefore] at hafter
  cases hafter

end Session

end MachineCode
