import MiniC.Ty

/-!
# Options

Settings of code generation.
-/

namespace MiniC

/-- Alignments have 16 bits. -/
def alignLimit : Nat := 0x10000

/-- `stackAlignment` replaces the natural alignment of every slot; `elideUnreachableJumps` drops
jumps that directly follow a terminator. -/
structure Options where
  stackAlignment : Option Nat := none
  elideUnreachableJumps : Bool := true
  deriving DecidableEq

/-- The alignment of slots of type `t`. -/
def Options.alignmentFor (o : Options) (t : Ty) : Nat := o.stackAlignment.getD t.naturalAlignment

end MiniC
