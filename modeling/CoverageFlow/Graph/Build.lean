import CoverageFlow.Error
import CoverageFlow.Graph.Function

/-!
# Building function graphs

The graph of a function is built from its records in three passes. The first one adds the arcs
and marks the blocks and arcs that fake arcs tell about:

* a fake arc that leaves an inner block stands for a call that does not return, so the block is a
  call site;
* a fake arc that leaves the entry stands for a return past the caller, to the target of the arc.

The second pass adds the source lines. When the graph has an entry without incoming arcs and an
exit without outgoing arcs, the third pass marks unconditional arcs and call returns.

## Main definitions

* `Draft`: the blocks and arcs known so far, with the passes `Draft.connectAll`,
  `Draft.coverLines` and `Draft.finish`.
* `FunctionGraph.ofRecord`: the graph of a function.
-/

namespace CoverageFlow

variable {n : Nat}

/-- The blocks of a function and the arcs known so far. -/
structure Draft (n : Nat) where
  blocks : Vector Block n
  arcs : Array (Arc n)

namespace Draft

/-- The draft with the given flags of blocks, without arcs and lines. -/
def ofBlocks (flags : List UInt32) : Draft flags.length where
  blocks := Vector.mk (flags.map fun flags => { flags, attr := {}, lines := ∅ }).toArray (by simp)
  arcs := #[]

/-- The block with a number, which must be in range. -/
def block (n : Nat) (i : BlockIndex) : Except GraphDefect (Fin n) :=
  if h : i.val.toNat < n then .ok ⟨i.val.toNat, h⟩ else .error .blockOutOfRange

/-! ### Arcs -/

/-- Changes the attributes of a block. -/
def mark (change : BlockAttributes → BlockAttributes) (blocks : Vector Block n) (b : Fin n) :
    Vector Block n :=
  blocks.set b { blocks.get b with attr := change (blocks.get b).attr } b.isLt

/-- Adds an arc with the attributes that the notes file states, and what a fake arc tells. -/
def connect (draft : Draft n) (source target : Fin n) (attr : ArcAttributes) : Draft n :=
  if !attr.fake then
    { draft with arcs := draft.arcs.push { source, target, attr } }
  else if source.val ≠ 0 then
    { blocks := mark ({ · with callSite := true }) draft.blocks source
      arcs := draft.arcs.push { source, target, attr := { attr with callNonReturn := true } } }
  else
    { blocks := mark ({ · with nonlocalReturn := true }) draft.blocks target
      arcs := draft.arcs.push { source, target, attr := { attr with nonlocalReturn := true } } }

/-- Adds the arcs of a record. -/
def connectAll (draft : Draft n) (record : ArcsRecord) : Except GraphDefect (Draft n) := do
  let source ← block n record.source
  record.arcs.foldlM (fun draft arc => do
    let target ← block n arc.target
    return draft.connect source target (.ofFlags arc.flags)) draft

/-! ### Lines -/

/-- Adds the lines of a record; those before its first file name belong to `file`. -/
def coverLines (file : Symbol) (draft : Draft n) (record : LinesRecord Symbol) :
    Except GraphDefect (Draft n) := do
  let b ← block n record.block
  let old := draft.blocks.get b
  return { draft with
    blocks := draft.blocks.set b
      { old with lines := old.lines.record file record.items } b.isLt }

/-! ### Entry, exit and derived attributes -/

/-- Requires an entry that no arc enters and an exit that no arc leaves. -/
def checkEnds (draft : Draft n) : Except GraphDefect (PLift (2 ≤ n)) :=
  if h : 2 ≤ n then
    if draft.arcs.any fun a => a.target.val = 0 then .error .arcToEntry
    else if draft.arcs.any fun a => a.source.val = n - 1 then .error .arcFromExit
    else .ok ⟨h⟩
  else .error .lacksEntryOrExit

/-- Numbers by block after that of one block grew by one. -/
def increment (t : Vector Nat n) (b : Fin n) : Vector Nat n :=
  t.set b (t.get b + 1) b.isLt

/-- How many of the arcs belong to each block. -/
def tally (owner : Arc n → Fin n) (arcs : List (Arc n)) : Vector Nat n :=
  arcs.foldl (fun t a => increment t (owner a)) (.replicate n 0)

theorem get_tally (owner : Arc n → Fin n) (arcs : List (Arc n)) (b : Fin n) :
    (tally owner arcs).get b = arcs.countP fun a => owner a = b := by
  suffices h : ∀ t : Vector Nat n, (arcs.foldl (fun t a => increment t (owner a)) t).get b
      = t.get b + arcs.countP fun a => owner a = b by
    rw [tally, h, get_replicate, Nat.zero_add]
  induction arcs with
  | nil => intro t; rfl
  | cons a arcs ih =>
    intro t
    rw [List.foldl_cons, ih, List.countP_cons, increment, get_set]
    by_cases hb : owner a = b
    · subst hb
      simp
      omega
    · simp [hb]

/-- Marks the arcs that are the only ones to leave their source, fake ones apart. -/
def markUnconditional (draft : Draft n) : Draft n :=
  let leaving := tally (·.source) (draft.arcs.toList.filter fun a => !a.attr.fake)
  let arcs := draft.arcs.map fun a =>
    { a with attr.unconditional := !a.attr.fake && leaving.get a.source = 1 }
  { draft with arcs }

/-- Marks the blocks that only a fall-through from a call site enters. -/
def markCallReturns (draft : Draft n) : Draft n :=
  let entering := tally (·.target) draft.arcs.toList
  let isReturn (a : Arc n) : Bool :=
    a.attr.unconditional && a.attr.fallThrough && (draft.blocks.get a.source).attr.callSite &&
      entering.get a.target = 1
  let blocks := (draft.arcs.toList.filter isReturn).foldl
    (fun blocks a => mark ({ · with callReturn := true }) blocks a.target) draft.blocks
  { draft with blocks }

/-- The draft with its derived attributes. -/
def finish (draft : Draft n) : Draft n :=
  draft.markUnconditional.markCallReturns

end Draft

namespace FunctionGraph

/-- The graph of a function, or how its records break the rules of flow graphs. -/
def build (record : FunctionRecord Symbol) : Except GraphDefect FunctionGraph := do
  let draft ← record.arcs.foldlM Draft.connectAll (Draft.ofBlocks record.blocks)
  let draft ← record.lines.foldlM (Draft.coverLines record.source) draft
  let ⟨two_le⟩ ← draft.checkEnds
  let draft := draft.finish
  return {
    toAnnouncement := record.toAnnouncement
    size := record.blocks.length
    numArcs := draft.arcs.size
    two_le
    blocks := draft.blocks
    arcs := draft.arcs.toVector
    counts := .unknown _ _
    merged := false
    statistics := none }

/-- The graph of a function, in which no count is known. -/
def ofRecord (record : FunctionRecord Symbol) : Except Error FunctionGraph :=
  (build record).mapError (.malformedGraph record.name)

end FunctionGraph

end CoverageFlow
