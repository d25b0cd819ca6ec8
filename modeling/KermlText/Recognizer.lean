import KermlText.Grammar
import KermlText.Stream
import Std.Data.TreeMap

/-!
Trying a piece of the grammar on the tokens ahead, without building anything. Optional elements and
lists take what they can; alternatives are tried in order and the first that matches is taken, without
a look at what comes behind. A trial ends early, and well, when it reaches the horizon.

What a rule did at a place is kept, so that it is tried there once. Rule calls are nested at most
`maxNesting` deep. A loop that comes back to a state it was in would go on for ever; `rounds` is more
than the number of states, so a loop that uses up its rounds is `endless`.
-/

namespace KermlText

inductive Outcome where
  | matched
  /-- The horizon came before a mismatch. -/
  | horizon
  /-- A mismatch, with the farthest place that was reached. -/
  | failed (farthest : Nat)
  | endless
  deriving DecidableEq

/-- What rules did: by rule, place and sight of comments, the outcome and the place it led to. -/
structure Memo where
  entries : Std.TreeMap Nat (Outcome × Nat)

namespace Memo

def empty : Memo := ⟨∅⟩

def key (r : Rule) (place : Nat) (comments : Bool) : Nat :=
  (place * 2 + comments.toNat) * Rule.count + r.index

def find? (m : Memo) (r : Rule) (place : Nat) (comments : Bool) : Option (Outcome × Nat) :=
  m.entries[key r place comments]?

def insert (m : Memo) (r : Rule) (place : Nat) (comments : Bool) (entry : Outcome × Nat) : Memo :=
  ⟨m.entries.insert (key r place comments) entry⟩

end Memo

/-- The state of a trial: the place, what is known, whether a comment was ever taken, and whether a
rule was ever refused because too many calls were open. The last is a record only. -/
structure Trial where
  pos : Nat
  memo : Memo
  tookComment : Bool
  cut : Bool

def Trial.start (pos : Nat) (memo : Memo) : Trial := ⟨pos, memo, false, false⟩

structure Recognizer where
  grammar : Grammar
  stream : Stream
  horizon : Nat

namespace Recognizer

/-- Rule calls inside rule calls. -/
def maxNesting : Nat := 256

abbrev Step := Trial → Outcome × Trial

variable (z : Recognizer)

def rounds : Nat := (Rule.count * 2 * (z.stream.size + 1) + 1) * (z.stream.size + 2)

/-- The tokens that a trial may look at are used up. The end of input is known and no limit. -/
def limitReached (t : Trial) : Bool :=
  z.horizon ≤ z.stream.settle t.pos && !z.stream.atEnd t.pos

def fail : Step := fun t => (.failed (z.stream.settle t.pos), t)

def take : Step := fun t => (.matched, { t with pos := z.stream.skip t.pos })

def token (comments : Bool) (k : Kind) : Step := fun t =>
  if k = .eof then if z.stream.atEnd t.pos then (.matched, t) else z.fail t
  else if z.stream.lookahead t.pos comments = k then z.take t
  else z.fail t

def oneOf (comments : Bool) (ks : KindSet) : Step := fun t =>
  let k := z.stream.lookahead t.pos comments
  if k != .eof && k != .blockComment && ks.contains k then z.take t else z.fail t

def comment : Step := fun t =>
  match z.stream.comment? t.pos with
  | some i => (.matched, { t with pos := i + 1, tookComment := true })
  | none => z.fail t

def optional (step : Step) : Step := fun t =>
  match step t with
  | (.failed _, t') => (.matched, { t' with pos := t.pos })
  | result => result

/-- Goes on as long as `step` matches and moves; `need` more matches are required. -/
def repeated (step : Step) : Nat → Nat → Step
  | 0, _ => fun t => (.endless, t)
  | n + 1, need => fun t =>
    match step t with
    | (.matched, t') => if t'.pos = t.pos then (.matched, t') else repeated step n (need - 1) t'
    | (.failed i, t') =>
      if 0 < need then (.failed i, t') else (.matched, { t' with pos := t.pos })
    | result => result

/-- A step for which no token may be left to look at. -/
def guarded (step : Step) : Step := fun t =>
  if z.limitReached t then (.horizon, t) else step t

/-- One step, then the other if the first matched. -/
def andThen (first second : Step) : Step := fun t =>
  match first t with
  | (.matched, t') => second t'
  | result => result

section

-- how a rule is tried, given whether comments are seen where it is mentioned
variable (call : Bool → Rule → Step) (comments : Bool)

mutual

def element : Element → Step
  | .token k | .relation k _ => z.guarded (z.token comments k)
  | .oneOf ks => z.guarded (z.oneOf comments ks)
  | .comment => z.guarded z.comment
  | .rule r | .ruleAt r _ => z.guarded (call comments r)
  | .optional e => z.guarded (optional (element e))
  | .repeated e min _ => z.guarded (repeated (element e) z.rounds min)
  | .seq es => z.guarded (row es)
  | .labeled _ _ e => z.guarded (element e)

def row : List Element → Step
  | [] => fun t => (.matched, t)
  | e :: es => andThen (element e) (row es)

end

/-- Whether an alternative may be tried with `k` ahead. -/
def startsWith (k : Kind) (a : Alternative) : Bool :=
  !a.leftRecursive &&
    ((z.grammar.firstOfRow a.elements).contains k || z.grammar.rowNullable a.elements)

/-- The first alternative that matches. If none does, the farthest place that one of them reached. -/
def firstMatch : List Alternative → Nat → Step
  | [], far => fun t => (.failed far, t)
  | a :: as, far => fun t =>
    match z.row call comments a.elements t with
    | (.failed i, t') => firstMatch as (max far i) { t' with pos := t.pos }
    | result => result

def alternatives (r : Rule) : Step := fun t =>
  let k := z.stream.lookahead t.pos comments
  z.firstMatch call comments ((z.grammar.alternatives r).filter (z.startsWith k))
    (z.stream.settle t.pos) t

/-- Operators and what follows them. Precedence changes no sequence of tokens, so it has no say
here. -/
def operators (r : Rule) (table : Table) : Nat → Step
  | 0 => fun t => (.endless, t)
  | n + 1 => z.guarded fun t =>
    match table.lookup (z.stream.lookahead t.pos comments) with
    | none => (.matched, t)
    | some (tier, node) =>
      andThen z.take
        (andThen (if tier.form = .binary then z.alternatives call comments r else call comments node)
          (operators r table n)) t

def body (r : Rule) : Step :=
  match z.grammar.table? r with
  | some table =>
    andThen (z.alternatives call comments r) (z.operators call comments r table z.rounds)
  | none => z.alternatives call comments r

end

/-- Tries a rule with `n` more calls to nest, unless it is known what the rule does here. -/
def call : Nat → Bool → Rule → Step
  | 0, _, _ => fun t => z.fail { t with cut := true }
  | n + 1, comments, r => fun t =>
    let place := z.stream.settle t.pos
    match t.memo.find? r place comments with
    | some (.matched, stop) => (.matched, { t with pos := stop })
    | some (outcome, _) => (outcome, t)
    | none =>
      let (outcome, t') :=
        z.body (call n) (comments || (z.grammar.definition r).comments) r t
      (outcome, { t' with memo := t'.memo.insert r place comments (outcome, t'.pos) })

/-- Tries an element from outside any rule. -/
def tryElement (comments : Bool) (e : Element) : Step :=
  z.element (z.call maxNesting) comments e

def tryRow (comments : Bool) (es : List Element) : Step :=
  z.row (z.call maxNesting) comments es

end Recognizer

end KermlText
