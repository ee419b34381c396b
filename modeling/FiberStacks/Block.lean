import FiberStacks.Block.Header

/-!
# Blocks

Access to blocks in memory through the word that points at them, and the layout of closures.
-/

namespace FiberStacks

/-- Words written over the fields of dead local blocks and over free arena space. -/
def Word.deadLocal : Word := 0xD700D6D700D6D700

namespace Block

def fieldAddress (block : Word) (i : Nat) : Nat :=
  block.toNat + wordBytes * i

def header (m : Memory) (block : Word) : Except Abort Header := do
  return Header.ofWord (m.read (← block.headerAddress))

def setHeader (m : Memory) (block : Word) (h : Header) : Except Abort Memory := do
  return m.write (← block.headerAddress) h.toWord

def field (m : Memory) (block : Word) (i : Nat) : Word :=
  m.read (fieldAddress block i)

/-- The block that an interior pointer points into; any other block is its own. -/
def enclosing (m : Memory) (block : Word) : Except Abort Word := do
  let h ← header m block
  if h.tag = Tag.interior then
    return Word.ofNat (← Size.sub block.toNat (h.wosize * wordBytes))
  else
    return block

end Block

/-! ### Closure info words

The second field of a closure holds its arity in the top byte and, shifted left by one, the index of
the first field of its environment. The low bit is set, so the word reads as an immediate.
-/

namespace ClosureInfo

/-- Build an info word; bits of the environment start that do not fit are dropped. -/
def make (arity start : Nat) : Word :=
  Word.ofNat ((arity % 256) <<< 56) ||| Word.ofNat (start * 2) ||| 1

def start (info : Word) : Nat :=
  info.toNat % (1 <<< 56) / 2

end ClosureInfo

end FiberStacks
