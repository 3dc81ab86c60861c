import MachineCode.Proofs.Chains

/-!
# Chains of x86-64 branches

A label has a chain of one-byte displacements and one of four-byte displacements. Each displacement
holds its link at its own width.
-/

namespace MachineCode.X86

open CodeBuffer Session

def requested? : Request → Option (String × Branch)
  | .x86Branch name branch => some (name, branch)
  | _ => none

/-- The site is the displacement behind the opcode. -/
def layout : Layout Branch where
  chain
    | .jump _ .near => .near
    | .jump _ .far | .call => .wide
  before
    | .jump j .near => j.shortOpcode.length
    | .jump j .far => j.longOpcode.length
    | .call => 1
  length
    | .jump _ .near => 1
    | .jump _ .far | .call => 4

/-- The link at a site of a chain: a signed byte or a signed double word. -/
def storedLink (b : CodeBuffer) : Chain → Nat → Option Int
  | .near, site => (b.loadByte site).toOption.map BitVec.toInt
  | .wide, site => (b.loadWord site).toOption.map BitVec.toInt
  | .short, _ => none

def openShape : Branch → Shape
  | .jump j .near => .short j.shortOpcode
  | .jump j .far => .long j.longOpcode
  | .call => .long [0xE8#8]

private theorem shape_none (branch : Branch) (start : Nat) :
    branch.shape none start = openShape branch := by
  cases branch with
  | call => rfl
  | jump j distance => cases distance <;> rfl

private theorem describes_openShape : layout.Describes openShape := by
  intro branch
  cases branch with
  | call => exact ⟨rfl, rfl, rfl⟩
  | jump j distance => cases distance <;> exact ⟨rfl, rfl, rfl⟩

theorem issues_requested? : Issues .x86 requested? openShape := by
  constructor
  case nothing =>
    intro labels a request htarget hreply hnone
    obtain ⟨target, buffer⟩ := a
    cases htarget
    cases request with
    | x86Branch name branch => cases hnone
    | _ => rfl
  case branch =>
    intro labels a request name branch htarget _ hsome
    cases request with
    | x86Branch name' branch' =>
      cases hsome
      refine ⟨_, rfl, rfl, fun hnone => ?_⟩
      rw [hnone, shape_none]
    | _ => cases hsome

private theorem storedLink_eq {b : CodeBuffer} {r : Issue} {older : Ledger} (granted : b.Granted)
    (hchained : Chained r.shape) (hpending : r.Pending older b.bytes) :
    storedLink b r.shape.chain r.site = some (r.backLink older) := by
  have hfits := hpending.1
  have hholds := hpending.holds_link
  generalize r.backLink older = d at hfits hholds
  cases hshape : r.shape with
  | short opcode =>
    rw [hshape] at hfits hholds
    have hload : b.loadByte r.site = .ok (BitVec.ofInt 8 d) := loadByte_eq_of_holds granted hholds
    simp only [Shape.chain, storedLink, hload, Except.toOption, Option.map_some,
      DispField.toInt_ofInt_rel8 hfits]
  | long opcode =>
    rw [hshape] at hfits hholds
    have hload : b.loadWord r.site = .ok (BitVec.ofInt 32 d) := loadWord_eq_of_holds granted hholds
    simp only [Shape.chain, storedLink, hload, Except.toOption, Option.map_some,
      DispField.toInt_ofInt_rel32 hfits]
  | single word =>
    rw [hshape] at hchained
    exact hchained.elim
  | pair word =>
    rw [hshape] at hchained
    exact hchained.elim

private theorem chainsHold_run (events : List Event) {i : Nat} {a : Assembler}
    (ha : (empty.run events).assembler? i = some a) (htarget : a.target = .x86) :
    ChainsHold layout (storedLink a.buffer) (empty.run events).labels a.buffer
      (pending requested? i events) := by
  obtain ⟨-, hagrees⟩ := (consistent_run events).agrees i a ha
  have hpending : (empty.ledger i events).filter
      (fun r => ((empty.run events).labels.get r.name).position?.isNone) =
        (pending requested? i events).map (Emission.issue openShape) :=
    consistent_empty.filter_ledger ha (htarget ▸ issues_requested?)
  refine hagrees.chainsHold describes_openShape hpending fun r older hs hnone => ?_
  obtain ⟨heads, hp⟩ := Label.place_of_position?_eq_none hnone
  obtain ⟨hchained, hpend⟩ := hagrees.pending r older hs heads hp
  rw [htarget] at hchained
  exact storedLink_eq hagrees.granted hchained hpend

/-- In every state that a session can reach, the chains of an x86-64 assembler hold its pending
displacements, and binding a label leaves the chains of the others. -/
theorem chains_hold_displacements (events : List Event) {i : Nat} {a : Assembler}
    (ha : (empty.run events).assembler? i = some a) (htarget : a.target = .x86) :
    ChainsHold layout (storedLink a.buffer) (empty.run events).labels a.buffer
        (pending requested? i events) ∧
      ∀ name, (answer events i (.bind name)).isReply = true →
        ∃ b, ((empty.run events).step i (.bind name)).1.assembler? i = some b ∧
          ChainsHold layout (storedLink b.buffer)
            ((empty.run events).step i (.bind name)).1.labels b.buffer
            ((pending requested? i events).filter fun e => decide (e.name ≠ name)) := by
  refine ⟨chainsHold_run events ha htarget, fun name hreply => ?_⟩
  exact holds_after_bind
    (P := fun labels b pending => ChainsHold layout (storedLink b) labels b pending)
    (fun _ _ hb => chainsHold_run _ hb) ha htarget rfl hreply

/-- Near and far jumps to one label, with a call of another label and raw bytes between them. -/
private def mixedWidthRun : List Event :=
  [.add 4096 .x86 { Options.standard with initialCapacity := 64 },
   .request 0 (.x86Branch "out" (.jump .always .near)),
   .request 0 (.x86Branch "out" (.jump (.onCondition .equal) .far)),
   .request 0 (.x86Branch "callee" .call),
   .request 0 (.x86 (.bytes [0xEB#8, 0x00#8])),
   .request 0 (.x86Branch "out" (.jump .always .near))]

theorem mixedWidthRun_chains_hold :
    ∃ a b, (empty.run mixedWidthRun).assembler? 0 = some a ∧
      (∀ visited, Walk (storedLink a.buffer .near)
        (((empty.run mixedWidthRun).labels.get "out").head .near) visited ↔ visited = [16, 1]) ∧
      ((empty.run mixedWidthRun).step 0 (.bind "callee")).1.assembler? 0 = some b ∧
      ChainsHold layout (storedLink b.buffer)
        ((empty.run mixedWidthRun).step 0 (.bind "callee")).1.labels b.buffer
        ((pending requested? 0 mixedWidthRun).filter fun e => decide (e.name ≠ "callee")) := by
  obtain ⟨a, ha, hpair⟩ := Option.map_eq_some_iff.mp
    (show ((empty.run mixedWidthRun).assembler? 0).map (fun a => (a.target, a.buffer.id)) =
      some (.x86, 0) by decide +kernel)
  obtain ⟨htarget, hid⟩ := Prod.mk.inj hpair
  obtain ⟨hchains, hbind⟩ := chains_hold_displacements mixedWidthRun ha htarget
  obtain ⟨b, hb, hother⟩ := hbind "callee" (by decide +kernel)
  have howner : ((empty.run mixedWidthRun).labels.get "out").owner = some a.buffer.id := by
    rw [hid]
    decide +kernel
  have hsites : Emission.sites layout (pending requested? 0 mixedWidthRun) "out" .near =
      [16, 1] := by
    decide +kernel
  refine ⟨a, b, ha, fun visited => ?_, hb, hother⟩
  rw [← hsites]
  exact hchains.visits "out" howner (by decide +kernel) .near visited

end MachineCode.X86
