namespace NovaLang.Text

/-! # Lines

Counting line breaks, and reading a file whose lines may end in a carriage
return.
-/

/-- The number of line breaks in a text. -/
def lineBreaks (cs : List Char) : Nat :=
  cs.count '\n'

@[simp] theorem lineBreaks_nil : lineBreaks [] = 0 := rfl

@[simp] theorem lineBreaks_append (a b : List Char) :
    lineBreaks (a ++ b) = lineBreaks a + lineBreaks b := by
  simp [lineBreaks]

/-- Every line end, be it a line feed, a carriage return or both in that order,
becomes one line feed. -/
def unifyLines : List Char → List Char
  | [] => []
  | '\r' :: '\n' :: rest => '\n' :: unifyLines rest
  | c :: rest => (if c = '\r' then '\n' else c) :: unifyLines rest

/-- The lines of a text, each without its line feed; what follows the last line
feed is a line of its own unless it is empty. -/
def lines : List Char → List (List Char)
  | [] => []
  | c :: rest =>
    if c = '\n' then [] :: lines rest
    else match lines rest with
      | [] => [[c]]
      | line :: more => (c :: line) :: more

end NovaLang.Text
