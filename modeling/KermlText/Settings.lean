/-!
What a caller may choose about a parse. None of it changes what a text means: the limits bound the
work, and the signal calls a parse off.
-/

namespace KermlText

/-- Whether a parse is called off, given how often it has asked before and how many errors it has
sent. -/
abbrev Signal := Nat → Nat → Bool

structure Settings where
  /-- How many tokens a trial may look at. -/
  lookahead : Nat
  /-- Whether tried decisions are remembered. -/
  caching : Bool
  /-- Errors beyond this number are not reported. -/
  maxErrors : Option Nat
  /-- Rules open at one time. A text that nests deeper is skipped there. -/
  maxDepth : Nat
  cancel : Option Signal

namespace Settings

def standard : Settings := ⟨32, true, none, 128, none⟩

def withLookahead (s : Settings) (n : Nat) : Settings := { s with lookahead := max n 1 }

def withCaching (s : Settings) (b : Bool) : Settings := { s with caching := b }

def withMaxErrors (s : Settings) (n : Nat) : Settings := { s with maxErrors := some n }

def withMaxDepth (s : Settings) (n : Nat) : Settings := { s with maxDepth := max n 1 }

def withSignal (s : Settings) (signal : Signal) : Settings := { s with cancel := some signal }

def isCancelled (s : Settings) (checks sent : Nat) : Bool :=
  s.cancel.any fun signal => signal checks sent

end Settings

end KermlText
