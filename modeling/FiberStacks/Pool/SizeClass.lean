import FiberStacks.Size

/-!
# Pool classes

Segments are pooled by size: class `k` holds segments of `base * 2 ^ k` words, for a base size that
each domain chooses.
-/

namespace FiberStacks

abbrev SizeClass := Fin 5

namespace SizeClass

def count : Nat := 5

def ofIndex? (index : Nat) : Option SizeClass :=
  if h : index < 5 then some ⟨index, h⟩ else none

/-- The first class of `classes` that has exactly `wsize` words, where the first of them has `size`
and each next one twice as many. The search ends where doubling leaves the range of sizes. -/
def search (wsize size : Nat) : List SizeClass → Option SizeClass
  | [] => none
  | k :: rest =>
    if wsize = size then
      some k
    else
      match Size.mul? size 2 with
      | some doubled => search wsize doubled rest
      | none => none

def forSize? (wsize base : Nat) : Option SizeClass :=
  search wsize base (List.finRange 5)

/-- Words of a segment in the class; bits beyond the word are dropped. -/
def wsize (k : SizeClass) (base : Nat) : Nat :=
  base <<< k.val % Size.limit

def describe (k : SizeClass) : String := s!"PoolClass({k.val})"

end SizeClass

end FiberStacks
