import KermlText.Recognizer

/-!
Decisions: which alternative of a rule to take, and whether to enter an optional element.

One token decides where it can. Where several alternatives may start with it, each is tried up to the
horizon. The first that gets to the horizon, or matches in front of a token that may follow, is taken;
failing that the first that matches; failing that the one that got farthest, so that the error will be
where the text goes wrong.

Tried decisions are remembered by rule, place, followers and sight of comments. The memory is a stack:
a decision at some place first forgets all decisions behind it, so entries stand in order of place,
the last place on top.
-/

namespace KermlText

/-- How decisions were reached. -/
structure Stats where
  immediate : Nat
  speculated : Nat
  cached : Nat
  deriving DecidableEq

structure Decision where
  rule : Rule
  place : Nat
  follow : KindSet
  comments : Bool
  deriving DecidableEq

structure Resolver where
  /-- How many tokens a trial may look at. -/
  limit : Nat
  caching : Bool
  cache : List (Decision × Nat)
  stats : Stats
  /-- Whether a trial ever refused a rule because too many calls were open. Nothing reads it. -/
  cut : Bool

namespace Resolver

def make (limit : Nat) (caching : Bool) : Resolver := ⟨max limit 1, caching, [], ⟨0, 0, 0⟩, false⟩

/-- Forgets the decisions at `place` and behind it. -/
def forgetFrom (z : Resolver) (place : Nat) : Resolver :=
  { z with cache := z.cache.dropWhile fun e => place ≤ e.1.place }

def known? (z : Resolver) (d : Decision) : Option Nat :=
  ((z.cache.takeWhile fun e => d.place ≤ e.1.place).find? fun e => e.1 = d).map (·.2)

def remember (z : Resolver) (d : Decision) (choice : Nat) : Resolver :=
  if z.caching then { z with cache := (d, choice) :: z.cache } else z

def countImmediate (z : Resolver) : Resolver :=
  { z with stats.immediate := z.stats.immediate + 1 }

def countSpeculated (z : Resolver) : Resolver :=
  { z with stats.speculated := z.stats.speculated + 1 }

def countCached (z : Resolver) : Resolver :=
  { z with stats.cached := z.stats.cached + 1 }

def noteCut (z : Resolver) (cut : Bool) : Resolver := { z with cut := z.cut || cut }

section

variable (g : Grammar) (s : Stream)

/-- The elements of an alternative, by its place in the list. -/
def elements (r : Rule) (i : Nat) : List Element :=
  match (g.alternatives r)[i]? with
  | some a => a.elements
  | none => []

/-- Whether the row `es` may begin in front of `k` when `follow` may come behind it. -/
def viable (k : Kind) (follow : KindSet) (es : List Element) : Bool :=
  (g.firstOfRow es).contains k || (g.rowNullable es && follow.contains k)

/-- All that may come next where one of `rows` may begin. -/
def expected (follow : KindSet) (rows : List (List Element)) : KindSet :=
  rows.foldl
    (fun ks es => ks ∪ g.firstOfRow es ∪ (if g.rowNullable es then follow else ∅)) ∅

/-- What trials of alternatives have shown so far: the first that matched, and the one that got
farthest with the place it got to. -/
structure Ranking where
  completed : Option Nat
  farthest : Option (Nat × Nat)

namespace Ranking

def matched (rank : Ranking) (i : Nat) : Ranking :=
  { rank with completed := some (rank.completed.getD i) }

def failed (rank : Ranking) (i place : Nat) : Ranking :=
  match rank.farthest with
  | some (_, best) => if best < place then { rank with farthest := some (i, place) } else rank
  | none => { rank with farthest := some (i, place) }

def choice? (rank : Ranking) : Option Nat :=
  rank.completed <|> rank.farthest.map (·.1)

end Ranking

/-- Tries the alternatives in order and picks one. They share what is known about rules. The flag
says whether one of the trials was cut. -/
def tryAll (z : Recognizer) (pos : Nat) (r : Rule) (follow : KindSet) (comments : Bool) :
    List Nat → Memo → Ranking → Bool → Except Failure (Option Nat) × Bool
  | [], _, rank, cut => (.ok rank.choice?, cut)
  | i :: is, memo, rank, cut =>
    match z.tryRow comments (elements z.grammar r i) (.start pos memo) with
    | (.horizon, t) => (.ok (some i), cut || t.cut)
    | (.endless, t) => (.error .endless, cut || t.cut)
    | (.failed place, t) =>
      tryAll z pos r follow comments is t.memo (rank.failed i place) (cut || t.cut)
    | (.matched, t) =>
      if z.limitReached t || follow.contains (z.stream.lookahead t.pos comments) then
        (.ok (some i), cut || t.cut)
      else tryAll z pos r follow comments is t.memo (rank.matched i) (cut || t.cut)

def recognizer (z : Resolver) (pos : Nat) : Recognizer := ⟨g, s, s.horizon pos z.limit⟩

/-- Chooses among `candidates`, alternatives of `r` by their places in the list. `follow` is what may
come behind the rule here. The place in the stream does not change. -/
def decide (z : Resolver) (pos : Nat) (r : Rule) (candidates : List Nat) (follow : KindSet)
    (comments : Bool) : Except Failure Nat × Resolver :=
  match candidates with
  | [only] => (.ok only, z)
  | _ =>
    let d : Decision := ⟨r, s.settle pos, follow, comments⟩
    match z.known? d with
    | some i => (.ok i, z.countCached)
    | none =>
      let k := s.lookahead pos comments
      match candidates.filter fun i => viable g k follow (elements g r i) with
      | [] =>
        let t := s.current pos
        (.error (.noAlternative r t.position t.offset
          (expected g follow (candidates.map (elements g r))) k), z)
      | [i] => (.ok i, z.countImmediate)
      | first :: rest =>
        let z' := z.forgetFrom (s.settle pos + 1)
        match tryAll (z.recognizer g s pos) pos r follow comments (first :: rest) .empty ⟨none, none⟩
          false with
        | (.error e, cut) => (.error e, z'.noteCut cut)
        | (.ok choice, cut) =>
          let i := choice.getD first
          (.ok i, ((z'.remember d i).countSpeculated).noteCut cut)

/-- Whether to enter `e` when `follow` may come instead or behind. A trial is made only if the next
token says both yes and no, and a match that takes nothing does not count. -/
def enter (z : Resolver) (pos : Nat) (e : Element) (follow : KindSet) (comments : Bool) :
    Except Failure Bool × Resolver :=
  let k := s.lookahead pos comments
  if !(g.firstOf e).contains k then (.ok false, z)
  else if !follow.contains k then (.ok true, z)
  else
    let z' := z.forgetFrom (s.settle pos + 1)
    let y := z.recognizer g s pos
    match y.tryElement comments e (.start pos .empty) with
    | (.horizon, t) => (.ok true, z'.noteCut t.cut)
    | (.matched, t) => (.ok (s.settle pos < s.settle t.pos || t.tookComment), z'.noteCut t.cut)
    | (.failed _, t) => (.ok false, z'.noteCut t.cut)
    | (.endless, t) => (.error .endless, z'.noteCut t.cut)

end

end Resolver

end KermlText
