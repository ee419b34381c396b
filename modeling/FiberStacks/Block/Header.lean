import FiberStacks.Memory
import FiberStacks.Text.Record

/-!
# Block headers

A block is a run of fields behind one header word. The header packs the number of fields into the
top 54 bits, the color of the collector into 2 bits and the tag into the low 8 bits.
-/

namespace FiberStacks

open Text

/-! Colors and tags are plain numbers: headers carry the colors 0 to 3 and the tags 0 to 255. -/

namespace Color

/-- The color of blocks outside the managed heap, local blocks among them. -/
def notMarkable : Nat := 3

end Color

/-- The color assignment of the major collector, which rotates between cycles. -/
structure HeapColors where
  unmarked : Nat
  marked : Nat
  /-- Dead blocks that wait to be swept. No reachable block has this color while the collector
  marks, so a scan borrows it to mark local blocks. -/
  garbage : Nat
  deriving DecidableEq

namespace HeapColors

def initial : HeapColors := ⟨0, 1, 2⟩

def describe (colors : HeapColors) : String :=
  let color (c : Nat) := s!"Color({c})"
  record "HeapColors"
    [("unmarked", color colors.unmarked), ("marked", color colors.marked),
      ("garbage", color colors.garbage)]

end HeapColors

namespace Tag

def continuation : Nat := 245

def closure : Nat := 247

/-- Interior pointers: headers in the middle of a closure. -/
def interior : Nat := 249

/-- The first tag whose fields hold no references. -/
def noScan : Nat := 251

/-- The marker that sends a walk over local arenas to the previous arena. -/
def localSwitch : Nat := 0x42

end Tag

structure Header where
  /-- Number of fields. -/
  wosize : Nat
  color : Nat
  tag : Nat
  deriving DecidableEq

namespace Header

/-- Build a header; bits that do not fit their part of the word are dropped. -/
def make (wosize : Nat) (color : Nat) (tag : Nat) : Header :=
  ⟨wosize % 0x40000000000000, color % 4, tag % 256⟩

def ofWord (w : Word) : Header :=
  ⟨w.toNat / 1024, w.toNat / 256 % 4, w.toNat % 256⟩

def toWord (h : Header) : Word :=
  Word.ofNat (h.wosize * 1024 + h.color * 256 + h.tag)

/-- Bytes of the block, header included. -/
def blockBytes (h : Header) : Nat :=
  (h.wosize + 1) * wordBytes

def withColor (h : Header) (color : Nat) : Header :=
  { h with color := color % 4 }

/-- The header that marks the part of a local arena which belongs to older arenas. -/
def localSwitch : Header := make 0 Color.notMarkable Tag.localSwitch

/-- Whether a header is the marker that sends a walk to the previous arena. -/
def isLocalSwitch (h : Header) : Bool :=
  h.wosize == 0 && h.color == Color.notMarkable && h.tag == Tag.localSwitch

def describe (h : Header) : String :=
  record "Header"
    [("wosize", toString h.wosize), ("color", toString h.color), ("tag", toString h.tag)]

/-- A header built from its parts is decoded to the same parts. -/
theorem ofWord_toWord_make (wosize : Nat) (color : Nat) (tag : Nat) :
    ofWord (make wosize color tag).toWord = make wosize color tag := by
  unfold make
  have hw : wosize % 0x40000000000000 < 0x40000000000000 := Nat.mod_lt _ (by decide)
  have hc : color % 4 < 4 := Nat.mod_lt _ (by decide)
  have ht : tag % 256 < 256 := Nat.mod_lt _ (by decide)
  generalize wosize % 0x40000000000000 = a at hw ⊢
  generalize color % 4 = b at hc ⊢
  generalize tag % 256 = c at ht ⊢
  have value : (toWord ⟨a, b, c⟩).toNat = a * 1024 + b * 256 + c := by
    simp only [toWord, Word.ofNat, UInt64.toNat_ofNat']
    omega
  simp only [ofWord, value, Header.mk.injEq]
  omega

end Header

end FiberStacks
