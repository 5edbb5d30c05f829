/-!
# Attributes of blocks and arcs

Some attributes of an arc stand in the notes file, the others are derived from the shape of the
graph. Each attribute has a bit, by which reports and diagrams show it.

## Main definitions

* `BlockAttributes`, `ArcAttributes`: the attributes of a block and of an arc.
* `ArcAttributes.ofFlags`: the attributes that the flags of a notes file state.
* `BlockAttributes.bits`, `ArcAttributes.bits`: the attributes as one number.
-/

namespace CoverageFlow

/-- The derived attributes of a block. -/
structure BlockAttributes where
  /-- The block ends with a call that may not return normally. -/
  callSite : Bool := false
  /-- The block is the artificial block right after such a call. -/
  callReturn : Bool := false
  /-- A callee may return to this block by a jump past its caller. -/
  nonlocalReturn : Bool := false
deriving DecidableEq, Inhabited

/-- The attributes of an arc. -/
structure ArcAttributes where
  /-- The arc is on the spanning tree, so it is not counted at run time. -/
  onTree : Bool := false
  /-- The arc stands for a call that does not return, or for a return past the caller. -/
  fake : Bool := false
  /-- The target follows the source directly. -/
  fallThrough : Bool := false
  /-- The arc stands for a call that does not return. -/
  callNonReturn : Bool := false
  /-- The arc stands for a return past the caller. -/
  nonlocalReturn : Bool := false
  /-- The arc is the only one to leave its source, fake ones apart. -/
  unconditional : Bool := false
deriving DecidableEq, Inhabited

/-- The number of a bit that is set or not. -/
def bit (value : Nat) (isSet : Bool) : Nat :=
  if isSet then value else 0

/-- The attributes of a block as one number. -/
def BlockAttributes.bits (a : BlockAttributes) : Nat :=
  bit 0x1000 a.callSite + bit 0x2000 a.callReturn + bit 0x4000 a.nonlocalReturn

namespace ArcAttributes

/-- The attributes of an arc as one number. -/
def bits (a : ArcAttributes) : Nat :=
  bit 1 a.onTree + bit 2 a.fake + bit 4 a.fallThrough + bit 0x20 a.callNonReturn +
    bit 0x40 a.nonlocalReturn + bit 0x80 a.unconditional

/-- The attributes that the flags of a notes file state: its three lowest bits. -/
def ofFlags (flags : UInt32) : ArcAttributes where
  onTree := flags.toNat.testBit 0
  fake := flags.toNat.testBit 1
  fallThrough := flags.toNat.testBit 2

end ArcAttributes

end CoverageFlow
