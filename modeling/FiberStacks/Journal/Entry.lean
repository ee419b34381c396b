import FiberStacks.Journal.Level

/-!
# Journal entries

An entry has a message and fields in the order in which they were added. It is written either as a
line for people or as one JSON object.
-/

namespace FiberStacks

inductive FieldValue where
  | text (text : String)
  | integer (n : Int)
  | boolean (b : Bool)
  deriving DecidableEq

structure Entry where
  level : Level
  target : Target
  message : String
  fields : List (String × FieldValue)
  /-- Milliseconds since the start of 1970. -/
  timestamp : Nat
  deriving DecidableEq

/-! ### Text inside JSON strings -/

namespace Json

/-- Whether a character is one of the 65 control characters. -/
def isControl (c : Char) : Bool :=
  c.toNat < 0x20 || (0x7f ≤ c.toNat && c.toNat < 0xa0)

/-- Four hexadecimal digits of a number below `2 ^ 16`. -/
def fourDigits (n : Nat) : List Char :=
  [n / 4096 % 16, n / 256 % 16, n / 16 % 16, n % 16].map Nat.digitChar

/-- A character as it stands in a JSON string. -/
def escapeChar (c : Char) : List Char :=
  if c = '"' then ['\\', '"']
  else if c = '\\' then ['\\', '\\']
  else if c = '\n' then ['\\', 'n']
  else if c = '\r' then ['\\', 'r']
  else if c = '\t' then ['\\', 't']
  else if isControl c then '\\' :: 'u' :: fourDigits c.toNat
  else [c]

/-- A text as it stands in a JSON string. -/
def escape (text : String) : String :=
  String.ofList (text.toList.flatMap escapeChar)

def quote (text : String) : String :=
  "\"" ++ escape text ++ "\""

end Json

namespace FieldValue

def display : FieldValue → String
  | text s => s
  | integer n => toString n
  | boolean b => toString b

def json : FieldValue → String
  | text s => Json.quote s
  | integer n => toString n
  | boolean b => toString b

end FieldValue

namespace Entry

def field? (e : Entry) (key : String) : Option FieldValue :=
  e.fields.lookup key

/-- A name followed by blanks up to five characters. -/
def padName (name : String) : String :=
  name ++ String.ofList (List.replicate (5 - name.length) ' ')

def threeDigits (n : Nat) : String :=
  String.ofList ([n / 100 % 10, n / 10 % 10, n % 10].map Nat.digitChar)

def plain (e : Entry) : String :=
  let head := s!"[{e.timestamp / 1000}.{threeDigits (e.timestamp % 1000)}] " ++
    s!"{padName e.level.name} [{e.target.name}] {e.message}"
  if e.fields.isEmpty then
    head
  else
    head ++ " \x7b" ++
      ", ".intercalate (e.fields.map fun (key, value) => key ++ "=" ++ value.display) ++ "\x7d"

def json (e : Entry) : String :=
  let head := "\x7b\"timestamp\":" ++ toString e.timestamp ++ ",\"level\":" ++
    Json.quote e.level.name ++ ",\"target\":" ++ Json.quote e.target.name ++ ",\"message\":" ++
    Json.quote e.message
  let fields :=
    if e.fields.isEmpty then
      ""
    else
      ",\"fields\":\x7b" ++
        ",".intercalate (e.fields.map fun (key, value) => Json.quote key ++ ":" ++ value.json) ++
        "\x7d"
  head ++ fields ++ "\x7d"

def render (e : Entry) : LineFormat → String
  | .plain => e.plain
  | .json => e.json

end Entry

end FiberStacks
