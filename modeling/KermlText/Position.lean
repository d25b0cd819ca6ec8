/-!
Places in a text as a reader counts them: lines from the top, columns from the left, both from zero.
Only a line feed ends a line; every other character takes one column.
-/

namespace KermlText

structure Position where
  line : Nat
  column : Nat
  deriving DecidableEq

namespace Position

def start : Position := ⟨0, 0⟩

def step (p : Position) (c : Char) : Position :=
  if c = '\n' then ⟨p.line + 1, 0⟩ else ⟨p.line, p.column + 1⟩

/-- The place right after `s`, when `s` begins at `p`. -/
def advance (p : Position) (s : String) : Position :=
  s.toList.foldl step p

/-- Messages count from one. -/
def render (p : Position) : String :=
  toString (p.line + 1) ++ ":" ++ toString (p.column + 1)

theorem advance_append (p : Position) (s t : String) :
    p.advance (s ++ t) = (p.advance s).advance t := by
  simp [advance, List.foldl_append]

end Position

end KermlText
