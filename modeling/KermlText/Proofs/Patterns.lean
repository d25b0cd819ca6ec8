import KermlText.Language
import KermlText.Proofs.Ahead
import KermlText.Proofs.Derivation

/-! Patterns: which kinds a piece of grammar may read one after the other when no comments are there.
Labels and levels are gone, and a left-recursive rule is an operand with a list of operators behind it.
A stack of patterns is read from the left, so a reading can be followed token by token. -/

namespace KermlText

inductive Pattern where
  | never
  | empty
  /-- The end of input. -/
  | finish
  | one (kinds : KindSet)
  | either (a b : Pattern)
  | both (a b : Pattern)
  | many (a : Pattern)
  | call (rule : Rule)
  deriving DecidableEq

namespace Pattern

/-- One of several patterns. -/
def any (ss : List Pattern) : Pattern := ss.foldr .either .never

/-- `least` times or more, where more than once is not counted. -/
def times (s : Pattern) (least : Nat) : Pattern :=
  if least = 0 then .many s else .both s (.many s)

end Pattern

mutual

def Element.pattern : Element → Pattern
  | .token k | .relation k _ => if k = .eof then .finish else .one (.single k)
  | .oneOf ks => .one ks
  | .comment => .never
  | .rule r | .ruleAt r _ => .call r
  | .optional e => .either .empty e.pattern
  | .repeated e least _ => e.pattern.times least
  | .seq es => rowPattern es
  | .labeled _ _ e => e.pattern

def rowPattern : List Element → Pattern
  | [] => .empty
  | e :: es => .both e.pattern (rowPattern es)

end

namespace Grammar

variable (g : Grammar)

/-- The alternatives that lookahead may choose. -/
def operandPattern (r : Rule) : Pattern :=
  .any (((g.alternatives r).filter fun a => !a.leftRecursive).map fun a => rowPattern a.elements)

def operatorPattern (r : Rule) (t : Table) : Pattern :=
  .any (t.tiers.flatMap fun tier => tier.operators.map fun o =>
    .both (.one (.single o.1)) (if tier.form = .binary then g.operandPattern r else .call o.2))

/-- What may stand behind an operand. -/
def operatorsPattern (r : Rule) : Pattern :=
  match g.table? r with
  | some t => .many (g.operatorPattern r t)
  | none => .empty

def pattern (r : Rule) : Pattern := .both (g.operandPattern r) (g.operatorsPattern r)

/-- The stack of patterns can be read from the left, and `p` holds of what it leaves. -/
inductive Matches (p : List Kind → Prop) : List Pattern → List Kind → Prop
  | nil {w} (h : p w) : Matches p [] w
  | empty {ss w} (h : Matches p ss w) : Matches p (.empty :: ss) w
  | finish {ss} (h : Matches p ss []) : Matches p (.finish :: ss) []
  | one {ks ss k w} (hk : ks.contains k = true) (h : Matches p ss w) : Matches p (.one ks :: ss) (k :: w)
  | left {a b ss w} (h : Matches p (a :: ss) w) : Matches p (.either a b :: ss) w
  | right {a b ss w} (h : Matches p (b :: ss) w) : Matches p (.either a b :: ss) w
  | both {a b ss w} (h : Matches p (a :: b :: ss) w) : Matches p (.both a b :: ss) w
  | stop {a ss w} (h : Matches p ss w) : Matches p (.many a :: ss) w
  | again {a ss w} (h : Matches p (a :: .many a :: ss) w) : Matches p (.many a :: ss) w
  | call {r ss w} (h : Matches p (g.pattern r :: ss) w) : Matches p (.call r :: ss) w

/-- The pattern can be read from `w` so that `v` is left. -/
def Spans (s : Pattern) (w v : List Kind) : Prop := g.Matches (· = v) [s] w

/-- The pattern can be read from `w`, whatever is left. -/
def Opens (s : Pattern) (w : List Kind) : Prop := ∃ v, g.Spans s w v

variable {g} {p : List Kind → Prop} {a b s : Pattern} {ss us : List Pattern} {w v u : List Kind}

theorem Matches.append (h : g.Matches (· = v) us w) (h' : g.Matches p ss v) :
    g.Matches p (us ++ ss) w := by
  induction h with
  | nil h => exact h ▸ h'
  | empty _ ih => exact .empty ih
  | finish _ ih => exact .finish ih
  | one hk _ ih => exact .one hk ih
  | left _ ih => exact .left ih
  | right _ ih => exact .right ih
  | both _ ih => exact .both ih
  | stop _ ih => exact .stop ih
  | again _ ih => exact .again ih
  | call _ ih => exact .call ih

theorem Spans.cons (h : g.Spans s w v) (h' : g.Matches p ss v) : g.Matches p (s :: ss) w :=
  Matches.append h h'

theorem Opens.matches (h : g.Opens s w) : g.Matches (fun _ => True) [s] w := by
  obtain ⟨v, h⟩ := h
  exact h.cons (.nil trivial)

theorem spans_empty (w : List Kind) : g.Spans .empty w w := Matches.empty (.nil rfl)

theorem spans_finish : g.Spans .finish [] [] := Matches.finish (.nil rfl)

theorem spans_one {ks : KindSet} {k : Kind} (h : ks.contains k = true) (w : List Kind) :
    g.Spans (.one ks) (k :: w) w := Matches.one h (.nil rfl)

theorem Spans.left (h : g.Spans a w v) : g.Spans (.either a b) w v := Matches.left h

theorem Spans.right (h : g.Spans b w v) : g.Spans (.either a b) w v := Matches.right h

theorem Spans.both (h1 : g.Spans a w v) (h2 : g.Spans b v u) : g.Spans (.both a b) w u :=
  Matches.both (h1.cons h2)

theorem spans_many (w : List Kind) : g.Spans (.many a) w w := Matches.stop (.nil rfl)

theorem Spans.again (h1 : g.Spans a w v) (h2 : g.Spans (.many a) v u) : g.Spans (.many a) w u :=
  Matches.again (h1.cons h2)

theorem Spans.call {r : Rule} (h : g.Spans (g.pattern r) w v) : g.Spans (.call r) w v :=
  Matches.call h

theorem Spans.of_times {least : Nat} (h : g.Spans (a.times least) w v) : g.Spans (.many a) w v := by
  unfold Pattern.times at h
  split at h
  · exact h
  · cases h with
    | both h => exact Matches.again h

/-- More items may be wanted than the pattern counts. -/
theorem Spans.times (h1 : g.Spans a w v) {least : Nat} (h2 : g.Spans (a.times (least - 1)) v u) :
    g.Spans (a.times least) w u := by
  unfold Pattern.times
  split
  · exact h1.again h2.of_times
  · exact h1.both h2.of_times

theorem Matches.any (hs : s ∈ us) (h : g.Matches p (s :: ss) w) : g.Matches p (.any us :: ss) w := by
  induction us with
  | nil => cases hs
  | cons a us ih =>
    rcases List.mem_cons.1 hs with rfl | hs
    · exact .left h
    · exact .right (ih hs)

theorem Spans.any (hs : s ∈ us) (h : g.Spans s w v) : g.Spans (.any us) w v := Matches.any hs h

theorem Spans.of_any (h : g.Spans (.any us) w v) : ∃ s ∈ us, g.Spans s w v := by
  induction us with
  | nil => cases h
  | cons a us ih =>
    cases h with
    | left h => exact ⟨a, by simp, h⟩
    | right h =>
      obtain ⟨s, hs, h⟩ := ih h
      exact ⟨s, List.mem_cons_of_mem _ hs, h⟩

theorem spans_operand {r : Rule} {c : Alternative} (hc : c ∈ g.alternatives r)
    (hl : c.leftRecursive = false) (h : g.Spans (rowPattern c.elements) w v) :
    g.Spans (g.operandPattern r) w v :=
  h.any (List.mem_map.2 ⟨c, List.mem_filter.2 ⟨hc, by simp [hl]⟩, rfl⟩)

/-- An operator, what stands behind it, and more operators. -/
theorem matches_operator {r q : Rule} {t : Table} {tier : Tier} {k : Kind}
    (ht : g.table? r = some t) (hl : t.lookup k = some (tier, q))
    (h : g.Matches p ((if tier.form = .binary then g.operandPattern r else .call q) ::
      g.operatorsPattern r :: ss) w) : g.Matches p (g.operatorsPattern r :: ss) (k :: w) := by
  obtain ⟨htier, ho⟩ := Table.mem_tiers_of_lookup hl
  simp only [operatorsPattern, ht] at h ⊢
  refine .again (.any (s := .both (.one (.single k))
    (if tier.form = .binary then g.operandPattern r else .call q)) ?_ (.both (.one (by simp) h)))
  exact List.mem_flatMap.2 ⟨tier, htier, List.mem_map.2 ⟨(k, q), ho, rfl⟩⟩

/-- A list that goes on as a list of the same is one list. -/
theorem Matches.many_many {l : List Pattern} (h : g.Matches p (l ++ .many a :: .many a :: ss) w) :
    g.Matches p (l ++ .many a :: ss) w := by
  generalize hq : l ++ .many a :: .many a :: ss = q at h
  induction h generalizing l with
  | nil => simp at hq
  | empty _ ih =>
    rcases l with _ | ⟨b, l⟩
    · cases hq
    · obtain ⟨rfl, rfl⟩ := List.cons.inj hq
      exact .empty (ih rfl)
  | finish _ ih =>
    rcases l with _ | ⟨b, l⟩
    · cases hq
    · obtain ⟨rfl, rfl⟩ := List.cons.inj hq
      exact .finish (ih rfl)
  | one hk _ ih =>
    rcases l with _ | ⟨b, l⟩
    · cases hq
    · obtain ⟨rfl, rfl⟩ := List.cons.inj hq
      exact .one hk (ih rfl)
  | left _ ih =>
    rcases l with _ | ⟨b, l⟩
    · cases hq
    · obtain ⟨rfl, rfl⟩ := List.cons.inj hq
      exact .left (ih (l := _ :: l) rfl)
  | right _ ih =>
    rcases l with _ | ⟨b, l⟩
    · cases hq
    · obtain ⟨rfl, rfl⟩ := List.cons.inj hq
      exact .right (ih (l := _ :: l) rfl)
  | both _ ih =>
    rcases l with _ | ⟨b, l⟩
    · cases hq
    · obtain ⟨rfl, rfl⟩ := List.cons.inj hq
      exact .both (ih (l := _ :: _ :: l) rfl)
  | stop h ih =>
    rcases l with _ | ⟨b, l⟩
    · obtain ⟨-, rfl⟩ := List.cons.inj hq
      exact h
    · obtain ⟨rfl, rfl⟩ := List.cons.inj hq
      exact .stop (ih rfl)
  | again _ ih =>
    rcases l with _ | ⟨b, l⟩
    · obtain ⟨hb, rfl⟩ := List.cons.inj hq
      cases hb
      exact .again (ih (l := [a]) rfl)
    · obtain ⟨rfl, rfl⟩ := List.cons.inj hq
      exact .again (ih (l := _ :: _ :: l) rfl)
  | call _ ih =>
    rcases l with _ | ⟨b, l⟩
    · cases hq
    · obtain ⟨rfl, rfl⟩ := List.cons.inj hq
      exact .call (ih (l := _ :: l) rfl)

end Grammar

end KermlText
