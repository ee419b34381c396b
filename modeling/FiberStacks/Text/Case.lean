/-!
# Letter case

Names of settings are compared without regard to case, some in upper and some in lower case. A
character whose full upper-case form is made of ASCII letters counts as those letters, so a ligature
may stand for two of them; no such form leads down to a lower-case ASCII letter that a name uses.
-/

namespace FiberStacks.Text

/-- Characters outside ASCII whose upper-case form is ASCII. -/
def asciiUpperForms : List (Char × List Char) :=
  [('ß', ['S', 'S']), ('ı', ['I']), ('ſ', ['S']), ('ﬀ', ['F', 'F']), ('ﬁ', ['F', 'I']),
    ('ﬂ', ['F', 'L']), ('ﬃ', ['F', 'F', 'I']), ('ﬄ', ['F', 'F', 'L']), ('ﬅ', ['S', 'T']),
    ('ﬆ', ['S', 'T'])]

/-- The upper-case form of a character, exact wherever it is ASCII. -/
def upperForm (c : Char) : List Char :=
  match asciiUpperForms.lookup c with
  | some form => form
  | none => [c.toUpper]

/-- The text in upper case, exact wherever that is ASCII. -/
def upper (text : String) : String :=
  String.ofList (text.toList.flatMap upperForm)

/-- The text in lower case, for comparison with names that hold no `k`. -/
def lower (text : String) : String :=
  String.ofList (text.toList.map Char.toLower)

end FiberStacks.Text
