import MachineCode.Bits

/-!
# Notices

What an assembler reports of its work besides results: growth, links, patches and hand-over.
-/

namespace MachineCode

/-- The kinds of site that a notice tells apart. -/
inductive SiteKind where
  | rel8
  | rel32
  | call
  | unconditional
  | conditional
  deriving DecidableEq, Repr

def SiteKind.text : SiteKind → String
  | .rel8 => "rel8"
  | .rel32 => "rel32"
  | .call => "call"
  | .unconditional => "b/bl"
  | .conditional => "conditional branch"

inductive Notice where
  /-- The buffer moved to a larger block. -/
  | grown (buffer old new : Nat)
  /-- The code was copied out. -/
  | finalized (buffer bytes : Nat)
  /-- A branch to an unbound label joined the label's chain. -/
  | linked (kind : SiteKind) (site : Nat)
  /-- A conditional branch to a bound label took two words. -/
  | farBranch (site target : Nat)
  /-- A two-word site was patched, with one word left over if `shrunk`. -/
  | farSite (site : Nat) (shrunk : Bool)
  | labelBound (position : Nat)
  | patched (position sites : Nat)
  deriving DecidableEq, Repr

namespace Notice

/-- Hand-over is for anyone to know; the rest is for tracing. -/
def level : Notice → String
  | .finalized .. => "DEBUG"
  | _ => "TRACE"

/-- The wording, with the identity of a buffer written by `identity`. -/
def message (identity : Nat → String) : Notice → String
  | .grown buffer old new => s!"code buffer {identity buffer}: grow {old} -> {new} bytes"
  | .finalized buffer bytes => s!"code buffer {identity buffer}: finalized {bytes} bytes"
  | .linked kind site => s!"link {kind.text} at {hexText site}"
  | .farBranch site target => s!"far branch at {hexText site} to bound {hexText target}"
  | .farSite site true => s!"far site {hexText site}: shrunk to near"
  | .farSite site false => s!"far site {hexText site}: kept far"
  | .labelBound position => s!"label bound at {hexText position}"
  | .patched position sites => s!"bind at {hexText position}: patched {sites} site(s)"

end Notice

end MachineCode
