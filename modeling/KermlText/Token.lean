import KermlText.KindSet
import KermlText.Position

/-!
Tokens: a kind, the text it was read from, where that text starts, and the channel it travels on.
Offsets count bytes of the text's UTF-8 form; positions count lines and characters.
-/

namespace KermlText

/-- Who sees a token: everybody, nobody, or only rules that ask for comment bodies. -/
inductive Channel where
  | default
  | hidden
  | comment
  deriving DecidableEq

/-- The channel that tokens of a kind travel on unless told otherwise. -/
def Kind.channel : Kind → Channel
  | .whitespace | .lineComment => .hidden
  | .blockComment => .comment
  | _ => .default

structure Token where
  kind : Kind
  text : String
  offset : Nat
  position : Position
  channel : Channel
  deriving DecidableEq

namespace Token

/-- A token on its kind's own channel. -/
def make (kind : Kind) (text : String) (offset : Nat) (position : Position) : Token :=
  ⟨kind, text, offset, position, kind.channel⟩

/-- The offset right after the token. -/
def stop (t : Token) : Nat := t.offset + t.text.utf8ByteSize

end Token

end KermlText
