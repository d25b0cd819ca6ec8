import KermlText.Diagnostic

/-!
Reading tokens. A stream is a list of tokens with a mark for the end of input behind them, and a place
in it is the index of the next token that was not taken. Only default-channel tokens count: `settle`
is the place of the next of them, and stays at the mark once there. Hidden tokens are never seen.
Comments in front of the next token are seen by those who ask for them.
-/

namespace KermlText

structure Stream where
  tokens : Array Token
  eof : Token

namespace Stream

/-- The mark for the end stands right behind the last token. -/
def ofTokens (ts : List Token) : Stream where
  tokens := ts.toArray
  eof :=
    match ts.getLast? with
    | some t => .make .eof "" t.stop (t.position.advance t.text)
    | none => .make .eof "" 0 .start

variable (s : Stream)

/-- The place of the mark for the end. -/
def size : Nat := s.tokens.size

def token (i : Nat) : Token := s.tokens[i]?.getD s.eof

def settleWithin : Nat → Nat → Nat
  | 0, i => i
  | n + 1, i => if (s.token i).channel = .default then i else settleWithin n (i + 1)

/-- The place of the first default-channel token at `i` or behind it. -/
def settle (i : Nat) : Nat := s.settleWithin (s.size - i) (min i s.size)

theorem le_settleWithin (n i : Nat) : i ≤ s.settleWithin n i := by
  induction n generalizing i with
  | zero => exact Nat.le_refl i
  | succ n ih =>
    unfold settleWithin
    split
    · exact Nat.le_refl i
    · exact Nat.le_of_succ_le (ih (i + 1))

theorem settleWithin_le (n i : Nat) : s.settleWithin n i ≤ i + n := by
  induction n generalizing i with
  | zero => exact Nat.le_refl i
  | succ n ih =>
    unfold settleWithin
    split
    · omega
    · have := ih (i + 1); omega

theorem settle_le_size (i : Nat) : s.settle i ≤ s.size := by
  have := s.settleWithin_le (s.size - i) (min i s.size)
  unfold settle; omega

theorem le_settle {i : Nat} (h : i ≤ s.size) : i ≤ s.settle i := by
  have := s.le_settleWithin (s.size - i) (min i s.size)
  unfold settle; omega

theorem channel_settleWithin (n i : Nat) (h : s.settleWithin n i ≠ i + n) :
    (s.token (s.settleWithin n i)).channel = .default := by
  induction n generalizing i with
  | zero => exact absurd rfl h
  | succ n ih =>
    unfold settleWithin at h ⊢
    split
    · assumption
    · rename_i hc
      rw [if_neg hc] at h
      exact ih (i + 1) (by omega)

/-- Short of the end, a stream settles on tokens of the default channel only. -/
theorem channel_settle {i : Nat} (h : s.settle i < s.size) :
    (s.token (s.settle i)).channel = .default := by
  unfold settle at h ⊢
  exact s.channel_settleWithin _ _ (by omega)

/-- `n` default-channel tokens further than the one at `i`. Nothing lies behind the end. -/
def hop : Nat → Nat → Option Nat
  | 0, i => some i
  | n + 1, i => if i = s.size then none else hop n (s.settle (i + 1))

/-- The place of the `n`-th default-channel token from `pos` on. -/
def ahead? (pos n : Nat) : Option Nat := s.hop n (s.settle pos)

def endFailure : Failure := .endOfInput s.eof.position s.eof.offset

def peek (pos n : Nat) : Except Failure Token :=
  match s.ahead? pos n with
  | some i => .ok (s.token i)
  | none => .error s.endFailure

def peekKind (pos n : Nat) : Kind :=
  match s.ahead? pos n with
  | some i => (s.token i).kind
  | none => .eof

def current (pos : Nat) : Token := s.token (s.settle pos)

/-- The kind of the current token. -/
def kind (pos : Nat) : Kind := (s.current pos).kind

def atEnd (pos : Nat) : Bool := s.settle pos == s.size

/-- The place that `n` more tokens lead to, at most the end. -/
def horizon (pos n : Nat) : Nat := (s.ahead? pos n).getD s.size

def commentWithin : Nat → Nat → Option Nat
  | 0, _ => none
  | n + 1, i => if (s.token i).channel = .comment then some i else commentWithin n (i + 1)

/-- The first comment in front of the current token. -/
def comment? (pos : Nat) : Option Nat := s.commentWithin (s.settle pos - pos) pos

/-- The place behind the current token. The end is never taken. -/
def next? (pos : Nat) : Option Nat := if s.atEnd pos then none else some (s.settle pos + 1)

def skip (pos : Nat) : Nat := (s.next? pos).getD pos

def advance (pos : Nat) : Except Failure (Token × Nat) :=
  match s.next? pos with
  | some i => .ok (s.current pos, i)
  | none => .error s.endFailure

/-- Back to a place that was left, or to the end if the place is not of this stream. -/
def rewind (mark : Nat) : Nat := min mark s.size

/-- What a decision sees next: a comment if it looks for comments and one is there. -/
def lookahead (pos : Nat) (comments : Bool) : Kind :=
  if comments && (s.comment? pos).isSome then .blockComment else s.kind pos

end Stream

end KermlText
