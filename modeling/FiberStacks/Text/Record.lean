/-!
# Diagnostic text of records

Diagnostics write a record as its name followed by its fields in braces, an absent value as `None`
and a present one as `Some(...)`.
-/

namespace FiberStacks.Text

/-- A named record with its fields in order. A record without fields is its name alone. -/
def record (name : String) (fields : List (String × String)) : String :=
  if fields.isEmpty then
    name
  else
    name ++ " \x7b " ++ ", ".intercalate (fields.map fun (key, value) => key ++ ": " ++ value) ++
      " \x7d"

def optional : Option String → String
  | none => "None"
  | some text => "Some(" ++ text ++ ")"

end FiberStacks.Text
