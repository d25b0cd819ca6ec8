import KermlText.Token

/-!
From text to tokens. Each token is the longest lexeme at the front of what is left, and a character
that starts no lexeme is an `error` token of its own, so the tokens cut the text into pieces and lose
nothing of it.

Three lexemes do not back off: after `/*`, `"` or `'` the body is read in units up to its end mark.
When the end mark never comes, the opener and the whole units behind it are one `error` token.
-/

namespace KermlText

namespace Scanner

def isBlank (c : Char) : Bool :=
  c = ' ' || c = '\t' || c = '\r' || c = '\n' || c = '\x0c'

def isLetter (c : Char) : Bool := c.isAlpha || c = '_'

def run (p : Char → Bool) (cs : List Char) : Nat := (cs.takeWhile p).length

/-- The body of a quoted text: its length, and whether the end mark `q` was found. A unit is one
character other than `q` and the backslash, or a backslash and any character but a line feed. -/
def quoted (q : Char) : List Char → Nat × Bool
  | [] => (0, false)
  | c :: cs =>
    if c = q then (1, true)
    else if c = '\\' then
      match cs with
      | [] => (0, false)
      | d :: ds => if d = '\n' then (0, false) else ((quoted q ds).1 + 2, (quoted q ds).2)
    else ((quoted q cs).1 + 1, (quoted q cs).2)

/-- The body of a block comment. A unit is one character other than the star, or a star and one
character other than the slash. -/
def commentBody : List Char → Nat × Bool
  | [] => (0, false)
  | c :: cs =>
    if c = '*' then
      match cs with
      | [] => (0, false)
      | d :: ds => if d = '/' then (2, true) else ((commentBody ds).1 + 2, (commentBody ds).2)
    else ((commentBody cs).1 + 1, (commentBody cs).2)

/-- The length of an exponent, zero when there is none: `e` or `E`, a sign or none, digits. -/
def exponent : List Char → Nat
  | [] => 0
  | e :: cs =>
    if e = 'e' || e = 'E' then
      match cs with
      | [] => 0
      | s :: ds =>
        if s = '+' || s = '-' then
          if run Char.isDigit ds = 0 then 0 else run Char.isDigit ds + 2
        else if run Char.isDigit cs = 0 then 0 else run Char.isDigit cs + 1
    else 0

/-- The length of a fraction with its exponent, zero when there is none: a point, digits, and an
exponent or none. -/
def fraction : List Char → Nat
  | [] => 0
  | p :: cs =>
    if p = '.' && run Char.isDigit cs != 0 then
      run Char.isDigit cs + 1 + exponent (cs.drop (run Char.isDigit cs))
    else 0

/-- A number that begins with `n + 1` digits, followed by `cs`. -/
def number (n : Nat) (cs : List Char) : Kind × Nat :=
  if fraction cs != 0 then (.decimal, n + fraction cs)
  else if exponent cs != 0 then (.decimal, n + exponent cs)
  else (.integer, n)

/-- The longest punctuation mark at the front of `cs`. -/
def mark? (cs : List Char) : Option Kind :=
  [3, 2, 1].findSome? fun n =>
    Kind.marks.find? fun k => k.spelling? == some (String.ofList (cs.take n))

def closed (kind : Kind) (body : Nat × Bool) : Kind × Nat :=
  (if body.2 then kind else .error, body.1)

/-- The kind of the lexeme that starts with `c` in front of `cs`, and how many characters of `cs`
belong to it. -/
def lexeme (c : Char) (cs : List Char) : Kind × Nat :=
  if isBlank c then (.whitespace, run isBlank cs)
  else if isLetter c then
    let n := run (fun d => isLetter d || d.isDigit) cs
    ((Kind.ofWord? (String.ofList (c :: cs.take n))).getD .ident, n)
  else if c.isDigit then
    let n := run Char.isDigit cs
    number n (cs.drop n)
  else if c = '"' then closed .string (quoted c cs)
  else if c = '\'' then closed .ident (quoted c cs)
  else if c = '/' && cs.head? = some '/' then
    (.lineComment, run (fun d => d != '\n') cs)
  else if c = '/' && cs.head? = some '*' then
    let (kind, n) := closed .blockComment (commentBody cs.tail)
    (kind, n + 1)
  else if fraction (c :: cs) != 0 then (.decimal, fraction (c :: cs) - 1)
  else
    match mark? (c :: cs) with
    | some k => (k, (k.spelling?.getD "").length - 1)
    | none => (.error, 0)

/-- The lexemes of `cs`, in order. Each takes a character or more, so the length of `cs` is fuel
enough. -/
def lexemesWithin : Nat → List Char → List (Kind × List Char)
  | 0, _ => []
  | _, [] => []
  | fuel + 1, c :: cs =>
    let (kind, n) := lexeme c cs
    (kind, c :: cs.take n) :: lexemesWithin fuel (cs.drop n)

def lexemes (cs : List Char) : List (Kind × List Char) :=
  lexemesWithin cs.length cs

theorem flatMap_lexemesWithin {fuel : Nat} {cs : List Char} (h : cs.length ≤ fuel) :
    (lexemesWithin fuel cs).flatMap (·.2) = cs := by
  induction fuel generalizing cs with
  | zero => cases cs with
    | nil => rfl
    | cons c cs => simp at h
  | succ fuel ih => cases cs with
    | nil => rfl
    | cons c cs =>
      have hdrop : (cs.drop (lexeme c cs).2).length ≤ fuel := by
        simp only [List.length_cons, List.length_drop] at *; omega
      simp [lexemesWithin, ih hdrop]

@[simp] theorem flatMap_lexemes (cs : List Char) : (lexemes cs).flatMap (·.2) = cs :=
  flatMap_lexemesWithin (Nat.le_refl _)

theorem ne_nil_of_mem_lexemesWithin {fuel : Nat} {cs : List Char} {x : Kind × List Char}
    (h : x ∈ lexemesWithin fuel cs) : x.2 ≠ [] := by
  induction fuel generalizing cs with
  | zero => simp [lexemesWithin] at h
  | succ fuel ih => cases cs with
    | nil => simp [lexemesWithin] at h
    | cons c cs =>
      rcases List.mem_cons.1 h with rfl | h
      · simp
      · exact ih h

/-- Lexemes become tokens one behind the other, from `offset` and `position` on. -/
def place (offset : Nat) (position : Position) : List (Kind × List Char) → List Token
  | [] => []
  | (kind, cs) :: rest =>
    let text := String.ofList cs
    .make kind text offset position ::
      place (offset + text.utf8ByteSize) (position.advance text) rest

theorem flatMap_place (offset : Nat) (position : Position) (ls : List (Kind × List Char)) :
    (place offset position ls).flatMap (fun t => t.text.toList) = ls.flatMap (·.2) := by
  induction ls generalizing offset position with
  | nil => rfl
  | cons l ls ih => simp [place, ih, Token.make]

end Scanner

/-- The tokens of a text, without a mark for its end. -/
def scan (text : String) : List Token :=
  Scanner.place 0 .start (Scanner.lexemes text.toList)

/-- The tokens of a text spell it out. -/
theorem flatMap_scan (text : String) : (scan text).flatMap (fun t => t.text.toList) = text.toList := by
  simp [scan, Scanner.flatMap_place]

end KermlText
