/-!
# Places

Addresses differ from run to run, places do not: a place says where an address lies relative to the
object that holds it. In a place, segments, regions, arenas and tables are numbered from 0 in the
order of their creation.
-/

namespace FiberStacks

inductive Place where
  /-- So many bytes above the upper end of a segment body; the body itself has negative offsets. -/
  | segment (index : Nat) (offset : Int)
  /-- So many bytes from the start of the heap words. -/
  | heap (offset : Nat)
  /-- So many bytes below the upper end of an arena of a local region. -/
  | arena (region index below : Nat)
  | rootTable (table entry : Nat)
  deriving DecidableEq

namespace Place

/-- Bytes beyond whole words, written behind a point unless there are none. -/
def bytesText (bytes : Nat) : String :=
  if bytes = 0 then "" else s!".{bytes}"

/-- The text of a place. Distances are in words; below the upper end of a segment they are rounded
up, and the bytes that this is too much are added back. -/
def text : Place → String
  | segment index offset =>
    if offset ≤ 0 then
      let below := offset.natAbs
      let words := (below + 7) / 8
      s!"s{index}-{words}" ++ bytesText (8 * words - below)
    else
      let above := offset.natAbs
      s!"s{index}+{above / 8}" ++ bytesText (above % 8)
  | heap offset => s!"m{offset / 8}" ++ bytesText (offset % 8)
  | arena region index below => s!"l{region}@{index}-{below}"
  | rootTable table entry => s!"r{table}.{entry}"

/-- Both sides of the first separator in a text, if there is one. -/
def cut? (text separator : String) : Option (String × String) :=
  match text.splitOn separator with
  | before :: after :: rest => some (before, separator.intercalate (after :: rest))
  | _ => none

/-- A number of words, perhaps with bytes behind a point. -/
def words? (text : String) : Option (Nat × Nat) :=
  match cut? text "." with
  | some (words, bytes) => do return (← words.toNat?, ← bytes.toNat?)
  | none => do return (← text.toNat?, 0)

/-- Read the text of a place. Entries of root tables have no text that is read. -/
def parse? (text : String) : Option Place := do
  let rest := (text.drop 1).toString
  if text.startsWith "m" then
    let (words, bytes) ← words? rest
    return heap (8 * words + bytes)
  else if text.startsWith "l" then
    let (region, inRegion) ← cut? rest "@"
    let (index, below) ← cut? inRegion "-"
    return arena (← region.toNat?) (← index.toNat?) (← below.toNat?)
  else if text.startsWith "s" then
    match cut? rest "-", cut? rest "+" with
    | some (index, below), _ =>
      let (words, bytes) ← words? below
      return segment (← index.toNat?) (bytes - 8 * words)
    | none, some (index, above) =>
      let (words, bytes) ← words? above
      return segment (← index.toNat?) (8 * words + bytes)
    | none, none => none
  else
    none

end Place

end FiberStacks
