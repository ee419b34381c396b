import FiberStacks.Scan.Progress

/-!
# Sweep over local arenas

Local blocks that a scan reached are marked with the garbage color. The sweep goes over all local
blocks from the newest to the oldest. A marked block is unmarked and its fields are classified,
which may mark further blocks; these must be older, so that the sweep still comes to them. A block
that is not marked was not reached and is overwritten, as is the free part of each arena, if
poisoning is on.

Offsets only grow and arenas only get older, so the sweep ends, whatever the arenas hold.
-/

namespace FiberStacks.Scanner

/-- Overwrite the words of an arena below an offset. -/
def poisonFree (sc : Scanner) (a : Arena) (sp : Int) : ScanM Unit := do
  if sc.ctx.poison then
    let upper ← a.addressAt sp
    Scan.poison a.base (Size.ceilDiv (upper - a.base) wordBytes)

/-- Classify `count` fields of the block at offset `sp`, from the one at `slot` upwards. A field
that marks a block must not point behind the sweep. -/
def sweepFields (sc : Scanner) (arenas : List Arena) (sp : Int) : Nat → Nat → ScanM Unit
  | 0, _ => return ()
  | count + 1, slot => do
    match ← sc.classify slot with
    | none => pure ()
    | some index =>
      match arenas[index]? with
      | none => pure ()
      | some a =>
        let value := (← get).memory.read slot
        let target ← Offset.sub (Offset.ofSize value.toNat) (Offset.ofSize (← a.top))
        if target < sp then
          throw (.violation (.backwardsLocalPointer slot sp target))
    sc.sweepFields arenas sp count (slot + wordBytes)

/-- The index of the first field to classify: closures begin with code pointers and their info
word, which says where the environment starts. -/
def firstField (block : Nat) (h : Header) : ScanM Nat := do
  if h.tag = Tag.closure ∧ 1 < h.wosize then
    return ClosureInfo.start (← Scan.steer (block + wordBytes))
  else
    return 0

/-- Deal with one block of an arena, given its offset, the address of its header and its header. -/
def sweepBlock (sc : Scanner) (arenas : List Arena) (sp : Int) (headerAddress : Nat) (h : Header) :
    ScanM Unit := do
  let block ← Size.add headerAddress wordBytes
  if h.color = Color.notMarkable then
    if sc.ctx.poison then
      Scan.poison block h.wosize
  else if h.color = sc.ctx.colors.garbage then
    Scan.mark headerAddress (h.withColor Color.notMarkable)
    if h.tag < Tag.noScan then
      let start ← firstField block h
      sc.sweepFields arenas sp (h.wosize - start) (block + start * wordBytes)
  else
    throw (.violation (.corruptLocalArena sp))

/-- Sweep upwards from an offset in the arena with an index. -/
def sweep (sc : Scanner) (arenas : List Arena) (index : Nat) (sp : Int) : ScanM Unit :=
  if 0 ≤ sp then
    pure ()
  else
    match arenas[index]? with
    | none => pure ()
    | some a => do
      let reach ← Offset.add (Offset.ofSize a.length) sp
      if reach < 0 then
        throw (.violation (.corruptLocalArena sp))
      else
        let headerAddress ← a.addressAt sp
        let h := Header.ofWord (← Scan.steer headerAddress)
        if h.isLocalSwitch then
          if index = 0 then
            throw (.violation (.corruptLocalArena sp))
          else
            match arenas[index - 1]? with
            | none => pure ()
            | some older =>
              sc.poisonFree older sp
              sc.sweep arenas (index - 1) sp
        else
          sc.sweepBlock arenas sp headerAddress h
          sc.sweep arenas index (sp + h.blockBytes)
termination_by ((-sp).toNat, index)
decreasing_by
  · exact Prod.Lex.right _ (by omega)
  · refine Prod.Lex.left _ _ ?_
    simp only [Header.blockBytes, wordBytes]
    omega

/-- The pass over the local blocks, if there are any. They only exist under compiled code. -/
def sweepLocals (sc : Scanner) : ScanM Unit :=
  match sc.locals with
  | none => return ()
  | some v =>
    match sc.ctx.mode with
    | .flat => throw (.violation .localsInFlatMode)
    | .native => do
      match v.arenas.getLast? with
      | none => pure ()
      | some newest =>
        sc.poisonFree newest v.savedSp
        sc.sweep v.arenas (v.arenas.length - 1) v.savedSp

end FiberStacks.Scanner
