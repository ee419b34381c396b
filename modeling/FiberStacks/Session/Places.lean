import FiberStacks.Session

/-!
# Places in a session

The place of an address among the objects of a session, the address of a place, and the text of
words: an immediate is written as `i` and its integer, an address as its place, and an address that
is in no object in hexadecimal.
-/

namespace FiberStacks

open Text

namespace Session

/-! ### From addresses to places -/

/-- The place of an address among segments, given newest first. -/
def segmentPlace? : List Footprint → Nat → Option Place
  | [], _ => none
  | f :: older, address =>
    if f.low ≤ address ∧ address < f.high + handlerBlockBytes then
      some (.segment older.length (address - f.high))
    else
      segmentPlace? older address

def segmentIndex? (s : Session) (x : Segment) : Option Nat :=
  s.machine.space.segments.reverse.findIdx? fun f => f.high == x.high

/-- The place of an address among the heap words, the end included. -/
def heapPlace? (heap : Stretch) (address : Nat) : Option Place :=
  if 0 < heap.words ∧ heap.base ≤ address ∧ address ≤ heap.base + wordBytes * heap.words then
    some (.heap (address - heap.base))
  else
    none

/-- The place of an address among arenas, their ends included. -/
def arenaPlace? (locals : List LocalStore) (address : Nat) : Option Place :=
  locals.zipIdx.findSome? fun (l, region) =>
    l.region.arenas.zipIdx.findSome? fun (a, index) =>
      let top := a.base + a.length
      if a.base ≤ address ∧ address ≤ top then some (.arena region index (top - address)) else none

def rootPlace? (tables : List Stretch) (address : Nat) : Option Place :=
  tables.zipIdx.findSome? fun (t, index) =>
    if t.base ≤ address ∧ address < t.base + wordBytes * t.words then
      some (.rootTable index ((address - t.base) / wordBytes))
    else
      none

/-- The place of an address: segments come first, newest foremost. -/
def place? (s : Session) (address : Nat) : Option Place :=
  segmentPlace? s.machine.space.segments address <|> heapPlace? s.heap address <|>
    arenaPlace? s.locals address <|> rootPlace? s.rootTables address

/-! ### From places to addresses -/

/-- The address of a place, if the object exists. Addresses wrap around at 64 bits. -/
def address? (s : Session) : Place → Option Nat
  | .segment index offset => do
    let f ← s.machine.space.segments.reverse[index]?
    return ((f.high + offset) % Size.limit).toNat
  | .heap offset => some ((s.heap.base + offset) % Size.limit)
  | .arena region index below => do
    let a ← (← s.locals[region]?).region.arenas[index]?
    return ((a.base + a.length - below : Int) % Size.limit).toNat
  | .rootTable table entry => do
    return (← s.rootTables[table]?).base + wordBytes * entry

/-! ### Text -/

def addressText (s : Session) (address : Nat) : String :=
  match s.place? address with
  | some p => p.text
  | none => hex address

def wordText (s : Session) (w : Word) : String :=
  if w.isImmediate then s!"i{w.toInt}" else s.addressText w.toNat

def digit? (c : Char) : Option Nat :=
  if '0' ≤ c ∧ c ≤ '9' then some (c.toNat - 48)
  else if 'a' ≤ c ∧ c ≤ 'f' then some (c.toNat - 87)
  else none

def numberOf (digits : List Char) : Nat :=
  digits.foldl (fun n c => n * 16 + (digit? c).getD 0) 0

/-- A text with the places of its hexadecimal addresses in place of them. An address for which a
place is given goes by that one. -/
def relabel (s : Session) (given : Option (Nat × Place)) (text : String) : String :=
  let place? (address : Nat) : Option Place :=
    match given with
    | some (known, p) => if address = known then some p else s.place? address
    | none => s.place? address
  let shown (piece : String) : String :=
    let digits := piece.toList.takeWhile fun c => (digit? c).isSome
    match if digits.isEmpty then none else place? (numberOf digits) with
    | some p => p.text ++ String.ofList (piece.toList.drop digits.length)
    | none => "0x" ++ piece
  match text.splitOn "0x" with
  | [] => ""
  | first :: pieces => String.join (first :: pieces.map shown)

/-- Read the text of a word. Besides what is written, `hd:` makes a header, `cl:` a closure info
word, `b` counts from the first field of a block of a local region, and `c` counts words downwards
from the upper end of the running segment of a domain. -/
def word? (s : Session) (text : String) : Option Word := do
  let rest := (text.drop 1).toString
  if text.startsWith "0x" then
    return Word.ofNat (numberOf (text.toList.drop 2))
  else if text.startsWith "hd:" then
    match ((text.drop 3).toString.splitOn ":").map String.toNat? with
    | [some wosize, some color, some tag] => return (Header.make wosize color tag).toWord
    | _ => none
  else if text.startsWith "cl:" then
    match ((text.drop 3).toString.splitOn ":").map String.toNat? with
    | [some arity, some start] => return ClosureInfo.make arity start
    | _ => none
  else if text.startsWith "i" then
    return Word.ofInt (← rest.toInt?)
  else if text.startsWith "b" then
    let (block, words) := (Place.cut? rest "+").getD (rest, "0")
    let (region, index) ← Place.cut? block "."
    let block ← (← s.locals[(← region.toNat?)]?).blocks[(← index.toNat?)]?
    return Word.ofNat (block.toNat + wordBytes * (← words.toNat?))
  else if text.startsWith "c" then
    let (domain, words) ← Place.cut? rest "-"
    let current ← (← s.domain? (← domain.toNat?)).current?
    return Word.ofNat current.high - Word.ofNat (wordBytes * (← words.toNat?))
  else
    return Word.ofNat (← s.address? (← Place.parse? text))

end Session

end FiberStacks
