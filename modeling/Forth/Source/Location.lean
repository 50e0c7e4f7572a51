-- SUMMARY: A place in a source text: the path of the text, a line and a column.

/-!
# Locations

Lines and columns count from one, and a column counts characters. A line feed is
the last character of its line.
-/

namespace Forth

/-- A place in the source text called `path`. -/
structure Location where
  path : String := "unspecified"
  line : Nat := 1
  column : Nat := 1
  deriving DecidableEq, Repr, Inhabited

namespace Location

/-- The place of the first character of the text called `path`. -/
def start (path : String) : Location :=
  { path }

/-- The place after the character `c` that stands at `l`. -/
def after (l : Location) (c : Char) : Location :=
  if c = '\n' then { l with line := l.line + 1, column := 1 } else { l with column := l.column + 1 }

/-- The place after the characters `cs` that stand from `l` on. -/
def afterAll (l : Location) (cs : List Char) : Location :=
  cs.foldl after l

/-- A location as it stands in front of a message. -/
def render (l : Location) : String :=
  s!"{l.path} ({l.line}, {l.column})"

@[simp] theorem start_path (path : String) : (start path).path = path := rfl

@[simp] theorem after_path (l : Location) (c : Char) : (l.after c).path = l.path := by
  unfold after; split <;> rfl

@[simp] theorem afterAll_nil (l : Location) : l.afterAll [] = l := rfl

@[simp] theorem afterAll_cons (l : Location) (c : Char) (cs : List Char) :
    l.afterAll (c :: cs) = (l.after c).afterAll cs := rfl

/-- The place behind two texts is the place behind the second one, counted from behind
    the first. -/
theorem afterAll_append (l : Location) (cs ds : List Char) :
    l.afterAll (cs ++ ds) = (l.afterAll cs).afterAll ds :=
  List.foldl_append

@[simp] theorem afterAll_path (l : Location) (cs : List Char) : (l.afterAll cs).path = l.path := by
  induction cs generalizing l with
  | nil => rfl
  | cons c cs ih => simp [ih]

end Location

end Forth
