import FiberStacks.Session

/-!
# Local regions of a session
-/

namespace FiberStacks.Session

def addRegion : SessionM Nat :=
  modifyGet fun s =>
    (s.locals.length, { s with locals := s.locals ++ [⟨Region.empty, #[]⟩] })

def store (i : Nat) : SessionM LocalStore := do
  require "region" (← get).locals[i]?

def setStore (i : Nat) (l : LocalStore) : SessionM Unit :=
  modify fun s => { s with locals := s.locals.set i l }

/-- Allocate a block in a region and set its first fields. -/
def allocLocal (i wosize tag : Nat) (fields : List Word) : SessionM Word := do
  let l ← store i
  let (r, region) ← l.region.alloc wosize tag
  setStore i { l with region := region }
  let block ← recover r
  setStore i ⟨region, l.blocks.push block⟩
  modifyMemory fun m => m.store block.toNat (fields.take wosize)
  return block

/-- The arenas of a region as they are handed to a scan: all of them or those chosen by number, and
at the offset of the region or at another one. -/
def arenasOf (i : Nat) (chosen : Option (List Nat)) (savedSp : Option Int) : SessionM Arenas := do
  let region := (← store i).region
  let arenas ← match chosen with
    | none => pure region.arenas
    | some chosen => chosen.mapM fun k => require "arena" region.arenas[k]?
  return ⟨arenas, savedSp.getD region.sp⟩

/-- End a region at an offset, and return that offset. -/
def endRegion (i : Nat) (saved : Int) : SessionM Int := do
  let l ← store i
  let region ← l.region.endRegion saved
  setStore i { l with region := region }
  return region.sp

end FiberStacks.Session
