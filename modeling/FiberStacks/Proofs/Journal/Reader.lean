import FiberStacks.Journal.Entry
import Mathlib.Data.Rat.Defs

/-!
# A reader of JSON

What a JSON text stands for. The text is cut into tokens first, and the tokens are read with a stack
of the arrays and objects that are open. Numbers are read exactly, members of an object are kept in
order and with repetitions, and whatever is not JSON has no value.
-/

namespace FiberStacks.Json

inductive Value where
  | null
  | boolean (b : Bool)
  | number (q : Rat)
  | string (text : String)
  | array (items : List Value)
  | object (members : List (String × Value))

/-! ### Numbers -/

def digits? (cs : List Char) : Option Nat :=
  if cs ≠ [] ∧ cs.all Char.isDigit then some (Nat.ofDigitChars 10 cs 0) else none

/-- The digits before the point, without a leading zero. -/
def whole? (cs : List Char) : Option (List Char) :=
  match cs with
  | [] => none
  | '0' :: _ :: _ => none
  | cs => some cs

/-- The digits behind a point, if there is one, and what follows them. -/
def fraction? : List Char → Option (List Char × List Char)
  | '.' :: cs =>
    let (digits, rest) := cs.span Char.isDigit
    if digits = [] then none else some (digits, rest)
  | cs => some ([], cs)

def exponent? : List Char → Option Int
  | [] => some 0
  | e :: cs =>
    if e = 'e' ∨ e = 'E' then
      match cs with
      | '+' :: cs => (digits? cs).map Int.ofNat
      | '-' :: cs => (digits? cs).map fun n => -Int.ofNat n
      | cs => (digits? cs).map Int.ofNat
    else
      none

def magnitude? (cs : List Char) : Option Rat := do
  let (digits, rest) := cs.span Char.isDigit
  let whole ← whole? digits
  let (fraction, rest) ← fraction? rest
  let exponent ← exponent? rest
  return Nat.ofDigitChars 10 (whole ++ fraction) 0 * 10 ^ (exponent - fraction.length)

def number? : List Char → Option Rat
  | '-' :: cs => (magnitude? cs).map fun q => -q
  | cs => magnitude? cs

/-- A value written without quotes or brackets. -/
def scalar? (word : List Char) : Option Value :=
  if word = "null".toList then some .null
  else if word = "true".toList then some (.boolean true)
  else if word = "false".toList then some (.boolean false)
  else (number? word).map .number

/-! ### Strings -/

def hexValue? (c : Char) : Option Nat :=
  if '0' ≤ c ∧ c ≤ '9' then some (c.toNat - '0'.toNat)
  else if 'a' ≤ c ∧ c ≤ 'f' then some (c.toNat - 'a'.toNat + 10)
  else if 'A' ≤ c ∧ c ≤ 'F' then some (c.toNat - 'A'.toNat + 10)
  else none

def shortEscape? : Char → Option Char
  | '"' => some '"'
  | '\\' => some '\\'
  | '/' => some '/'
  | 'b' => some '\x08'
  | 'f' => some '\x0c'
  | 'n' => some '\n'
  | 'r' => some '\r'
  | 't' => some '\t'
  | _ => none

/-- The numbers of the characters in a string, where a character beyond 16 bits may still be in two
halves. -/
def units? : List Char → Option (List Nat)
  | [] => some []
  | '\\' :: 'u' :: a :: b :: c :: d :: cs => do
    let unit := (((← hexValue? a) * 16 + (← hexValue? b)) * 16 + (← hexValue? c)) * 16 +
      (← hexValue? d)
    (units? cs).map (unit :: ·)
  | '\\' :: c :: cs => do
    let meant ← shortEscape? c
    (units? cs).map (meant.toNat :: ·)
  | c :: cs =>
    if c = '\\' ∨ c = '"' ∨ c.toNat < 0x20 then none else (units? cs).map (c.toNat :: ·)

def isHighHalf (n : Nat) : Bool := 0xd800 ≤ n && n < 0xdc00

def isLowHalf (n : Nat) : Bool := 0xdc00 ≤ n && n < 0xe000

/-- The characters of a string, where halves must come in pairs. -/
def join? : List Nat → Option (List Char)
  | [] => some []
  | high :: low :: ns =>
    if isHighHalf high then
      if isLowHalf low then
        let n := 0x10000 + (high - 0xd800) * 0x400 + (low - 0xdc00)
        (join? ns).map (Char.ofNat n :: ·)
      else
        none
    else if isLowHalf high then
      none
    else
      (join? (low :: ns)).map (Char.ofNat high :: ·)
  | [n] => if isHighHalf n || isLowHalf n then none else some [Char.ofNat n]

/-- The string between two quotes. -/
def string? (cs : List Char) : Option Value :=
  ((units? cs).bind join?).map fun text => .string (String.ofList text)

/-! ### Tokens -/

inductive Token where
  | openArray
  | closeArray
  | openObject
  | closeObject
  | colon
  | comma
  | value (v : Value)

/-- What a character outside strings and words stands for. Blanks stand for nothing. -/
def mark? : Char → Option (List Token)
  | '[' => some [.openArray]
  | ']' => some [.closeArray]
  | '\x7b' => some [.openObject]
  | '\x7d' => some [.closeObject]
  | ':' => some [.colon]
  | ',' => some [.comma]
  | ' ' | '\t' | '\n' | '\r' => some []
  | _ => none

/-- The end of a word, or of nothing. -/
def ended? (word : List Char) : Option (List Token) :=
  if word = [] then some [] else (scalar? word).map fun v => [.value v]

mutual

/-- The tokens of a text outside strings, behind the beginning of a word. -/
def outside (word : List Char) : List Char → Option (List Token)
  | [] => ended? word
  | c :: cs =>
    if c = '"' then do
      let ended ← ended? word
      (inside [] cs).map (ended ++ ·)
    else
      match mark? c with
      | some marks => do
        let ended ← ended? word
        (outside [] cs).map (ended ++ marks ++ ·)
      | none => outside (word ++ [c]) cs

/-- The tokens of a text within a string, behind the beginning of the string. -/
def inside (string : List Char) : List Char → Option (List Token)
  | [] => none
  | '"' :: cs => do
    let v ← string? string
    (outside [] cs).map (.value v :: ·)
  | '\\' :: c :: cs => inside (string ++ ['\\', c]) cs
  | c :: cs => inside (string ++ [c]) cs

end

/-! ### Values -/

/-- An array or object that has not been closed, with what is complete of it. -/
inductive Open where
  | array (items : List Value)
  | object (members : List (String × Value)) (key : String)

mutual

/-- Read a value, and then what follows it. -/
def readValue (stack : List Open) : List Token → Option Value
  | .value v :: ts => readAfter stack v ts
  | .openArray :: .closeArray :: ts => readAfter stack (.array []) ts
  | .openArray :: ts => readValue (.array [] :: stack) ts
  | .openObject :: .closeObject :: ts => readAfter stack (.object []) ts
  | .openObject :: .value (.string key) :: .colon :: ts => readValue (.object [] key :: stack) ts
  | _ => none

/-- Read what follows a value. -/
def readAfter (stack : List Open) (v : Value) : List Token → Option Value
  | [] => if stack.isEmpty then some v else none
  | .comma :: .value (.string key) :: .colon :: ts =>
    match stack with
    | .object members last :: stack => readValue (.object (members ++ [(last, v)]) key :: stack) ts
    | _ => none
  | .comma :: ts =>
    match stack with
    | .array items :: stack => readValue (.array (items ++ [v]) :: stack) ts
    | _ => none
  | .closeArray :: ts =>
    match stack with
    | .array items :: stack => readAfter stack (.array (items ++ [v])) ts
    | _ => none
  | .closeObject :: ts =>
    match stack with
    | .object members last :: stack => readAfter stack (.object (members ++ [(last, v)])) ts
    | _ => none
  | _ => none

end

/-- The value of a JSON text. -/
def read (text : String) : Option Value := do
  readValue [] (← outside [] text.toList)

example : read "[\"\\ud83d\\ude00\\n\", \x7b\"a\":true, \"a\":null\x7d]" =
    some (.array [.string "😀\n", .object [("a", .boolean true), ("a", .null)]]) := rfl

example : (read "[null,]").isNone ∧ (read "[01]").isNone ∧ (read "[\"\\ud83d\"]").isNone :=
  ⟨rfl, rfl, rfl⟩

end FiberStacks.Json
