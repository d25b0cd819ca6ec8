import KermlText.Proofs.Cascades
import KermlText.Proofs.Derivation
import KermlText.Proofs.Sites

/-! Reports that are dropped. Behind a report nothing is reported until a token is matched, but an operator is
taken without an end to that. So what is dropped is dropped because of a report with nothing but operators
taken behind it; and it can be another error than the one that was reported. -/

namespace KermlText

namespace Event

/-- No token was matched since the last report but such as `free` lets pass. The latest event comes first. -/
def pending (free : Nat → Prop) : List Event → Prop
  | [] => False
  | .reported :: _ => True
  | .matched place :: es => free place ∧ pending free es
  | _ :: es => pending free es

variable {free : Nat → Prop}

theorem pending_cons {e : Event} (he : e.isMatch = false) {es : List Event} (h : pending free es) :
    pending free (e :: es) := by
  cases e with
  | matched => cases he
  | reported => trivial
  | _ => exact h

theorem pending_append {es fs : List Event} (hfs : ∀ e ∈ fs, e.isMatch = false) (h : pending free es) :
    pending free (fs ++ es) := by
  induction fs with
  | nil => exact h
  | cons e fs ih =>
    exact pending_cons (hfs e List.mem_cons_self) (ih fun e' he' => hfs e' (List.mem_cons_of_mem _ he'))

/-- The last report, and what was matched behind it. -/
theorem exists_of_pending {es : List Event} (h : pending free es) :
    ∃ mid before, es = mid ++ .reported :: before ∧ .reported ∉ mid ∧
      ∀ place, .matched place ∈ mid → free place := by
  induction es with
  | nil => cases h
  | cons e es ih =>
    -- nothing but the event itself is new
    have step : pending free es → e ≠ .reported → (∀ place, e = .matched place → free place) →
        ∃ mid before, e :: es = mid ++ .reported :: before ∧ .reported ∉ mid ∧
          ∀ place, .matched place ∈ mid → free place := by
      intro hes hne hfree
      obtain ⟨mid, before, rfl, hno, hmid⟩ := ih hes
      refine ⟨e :: mid, before, rfl, ?_, fun place hp => ?_⟩
      · exact fun hm => (List.mem_cons.1 hm).elim (fun he => hne he.symm) hno
      · exact (List.mem_cons.1 hp).elim (fun he => hfree place he.symm) (hmid place)
    cases e with
    | reported => exact ⟨[], es, rfl, nofun, nofun⟩
    | matched place =>
      refine step h.2 nofun fun place' he => ?_
      cases he
      exact h.1
    | _ => exact step h nofun nofun

/-- Each dropped report is due to one that was made, with no other token behind it than `free` lets pass. -/
def Hushes (free : Nat → Prop) (e : Event) (early : List Event) : Prop :=
  e = .suppressed → pending free early

end Event

/-- Operators are those of a table. -/
def Task.Operates (u : Setup) : Task → Prop
  | .operators table _ scope _ => u.grammar.table? scope.rule = some table
  | _ => True

namespace Setup

open Session

/-- The token at the place is one that a table has for an operator. -/
def IsOperator (u : Setup) (place : Nat) : Prop :=
  place < u.stream.size ∧
    ∃ q table, u.grammar.table? q = some table ∧ table.operators.contains (u.stream.token place).kind = true

/-- A parse recovers from a report with nothing but operators behind it, and drops others because of such
reports only. -/
structure Hushed (u : Setup) (x : Session) : Prop where
  pending : x.recovering = true → Event.pending u.IsOperator x.journal
  dropped : Event.Each (Event.Hushes u.IsOperator) x.journal

namespace Hushed

variable {u : Setup} {x : Session}

theorem noted (h : u.Hushed x) {e : Event} (hm : e.isMatch = false) (he : e ≠ .suppressed) :
    u.Hushed (x.noted e) :=
  ⟨fun hr => Event.pending_cons hm (h.pending hr), fun hs => absurd hs he, h.dropped⟩

theorem matchedAt (h : u.Hushed x) (place : Nat) : u.Hushed (x.matchedAt place) :=
  ⟨nofun, nofun, h.dropped⟩

theorem operatedAt (h : u.Hushed x) {place : Nat} (hp : u.IsOperator place) :
    u.Hushed (x.operatedAt place) :=
  ⟨fun hr => ⟨hp, h.pending hr⟩, nofun, h.dropped⟩

theorem skippedOver (h : u.Hushed x) (context : KindSet) (places : List Nat) :
    u.Hushed (x.skippedOver context places) := by
  refine ⟨fun hr => ?_, ?_⟩ <;> rw [journal_skippedOver]
  · rw [skippedOver_recovering] at hr
    refine Event.pending_append (fun e he => ?_) (h.pending hr)
    obtain ⟨i, -, rfl⟩ := Event.exists_of_mem_skipped he
    rfl
  · refine h.dropped.append fun late e early hes hs => ?_
    have he : e ∈ late ++ e :: early := List.mem_append_right _ List.mem_cons_self
    obtain ⟨i, -, hi⟩ := Event.exists_of_mem_skipped (hes ▸ he)
    rw [hi] at hs
    cases hs

/-- A report is dropped while an earlier one is not recovered from, and else it is made. -/
theorem reported (h : u.Hushed x) (hm : u.settings.maxErrors = none) (code : Code) (r : Rule)
    (expected : KindSet) :
    u.Hushed (u.reported code r expected x) ∧ (u.reported code r expected x).recovering = true := by
  unfold Setup.reported
  split
  · rename_i hr
    have hpending := h.pending hr
    exact ⟨⟨fun _ => Event.pending_cons rfl hpending, fun _ => hpending, h.dropped⟩, hr⟩
  · rw [if_neg (by simp [hm])]
    exact ⟨⟨fun _ => trivial, nofun, h.dropped⟩, rfl⟩

end Hushed

theorem passes_operates (u : Setup) : u.Passes fun task _ => task.Operates u where
  rule _ := trivial
  ruleAt _ := trivial
  present _ _ := trivial
  repeated _ := trivial
  seq _ := trivial
  labeled _ := trivial
  head _ := trivial
  tail _ := trivial
  item _ _ := trivial
  round _ := trivial
  chosen _ _ := trivial
  opened _ _ := trivial
  operand _ _ := trivial
  operators ht _ := ht
  right _ _ _ := trivial
  rest _ _ _ := trivial
  next h := h

theorem upholds_hushed {u : Setup} (hu : u.Regular) (hm : u.settings.maxErrors = none) :
    u.Upholds (fun task _ => task.Operates u) u.Hushed where
  called _ h := h.noted rfl nofun
  asked _ h := h.noted rfl nofun
  opened h := h.noted rfl nofun
  again h := h.noted rfl nofun
  checked h := ⟨h.pending, h.dropped⟩
  decided _ h := ⟨h.pending, h.dropped⟩
  matched _ h := h.matchedAt _
  operated {table level scope left tier q x} _ ht hl h := by
    have he : u.stream.atEnd x.pos = false := by
      refine Stream.not_atEnd_of_kind hu.eof fun hk => ?_
      rw [hk, hu.founded.eof _ table ht] at hl
      cases hl
    exact h.operatedAt ⟨u.stream.settle_lt_of_not_atEnd he, _, table, ht, Table.contains_operators hl⟩
  reported _ _ h := (h.reported hm _ _ _).1
  skipped _ _ h := h.skippedOver _ _
  gaveUp {scope set x} h := by
    -- whoever gives up has reported, or dropped a report, so the parse recovers already
    refine ⟨fun _ => h.pending ?_, h.dropped⟩
    rw [missed, skippedOver_recovering]
    unfold Setup.reported
    split
    · assumption
    · rw [if_neg (by simp [hm])]

theorem hushed_last {u : Setup} (hu : u.Regular) (hm : u.settings.maxErrors = none) (r : Rule) :
    Event.Each (Event.Hushes u.IsOperator) (u.last r).journal := by
  have hlast := (upholds_hushed hu.unsignalled (u := u.unsignalled) hm).last hu (passes_operates _)
    ⟨nofun, trivial⟩ r trivial fun _ => trivial
  exact hlast.dropped.of_suffix (grows_last hu r).journal

end Setup

/-- With no limit on errors, whatever is parsed and whether or not it is called off: where a report is dropped,
the tokens matched since the last report are operators, each of a kind that a table has. -/
theorem parseTokens_suppressed {r : Rule} {ts : List Token} {settings : Settings} {late early : List Event}
    (hm : settings.maxErrors = none)
    (hj : ((Setup.ofTokens ts settings).last r).journal = late ++ .suppressed :: early) :
    ∃ mid before, early = mid ++ .reported :: before ∧ .reported ∉ mid ∧
      ∀ place, .matched place ∈ mid →
        ∃ t q table, ts[place]? = some t ∧ kerml.table? q = some table ∧
          table.operators.contains t.kind = true := by
  have hlast := Setup.hushed_last (regular_ofTokens ts settings) hm r
  rw [hj] at hlast
  obtain ⟨mid, before, rfl, hno, hmid⟩ := Event.exists_of_pending (hlast.behind rfl)
  refine ⟨mid, before, rfl, hno, fun place hp => ?_⟩
  obtain ⟨hlt, q, table, ht, hk⟩ := hmid place hp
  exact ⟨_, q, table, Stream.token_of_lt _ hlt, ht, hk⟩

/-- Whether a report was dropped although a token had been matched since the last report. -/
def Event.forgets : List Event → Bool
  | [] => false
  | .suppressed :: es => !tense es || forgets es
  | _ :: es => forgets es

theorem Event.exists_of_forgets {es : List Event} (h : forgets es = true) :
    ∃ late early, es = late ++ .suppressed :: early ∧ tense early = false := by
  induction es with
  | nil => cases h
  | cons e es ih =>
    have step : forgets es = true → ∃ late early, e :: es = late ++ .suppressed :: early ∧ tense early = false := by
      intro h
      obtain ⟨late, early, rfl, he⟩ := ih h
      exact ⟨e :: late, early, rfl, he⟩
    cases e with
    | suppressed =>
      rcases Bool.or_eq_true_iff.1 h with h | h
      · exact ⟨[], es, rfl, by simpa using h⟩
      · exact step h
    | _ => exact step h

theorem checked_slash :
    Event.forgets ((Setup.ofTokens (scan "/") .standard).last .ownedExpression).journal = true ∧
      (parseTokens .ownedExpression (scan "/") .standard).1.toOption.any (·.errors.length == 1) = true := by
  decide +kernel

/-- Of a slash alone it is reported that the left operand is missing. Then the slash is taken for the operator,
and that the right operand is missing too is not reported any more. -/
theorem parseTokens_forgets :
    ∃ p late early, (parseTokens .ownedExpression (scan "/") .standard).1 = .ok p ∧ p.errors.length = 1 ∧
      ((Setup.ofTokens (scan "/") .standard).last .ownedExpression).journal =
        late ++ .suppressed :: early ∧
      Event.tense early = false := by
  obtain ⟨p, hp⟩ := parseTokens_answers .ownedExpression (scan "/") (rfl : Settings.standard.cancel = none)
  obtain ⟨hforgets, herrors⟩ := checked_slash
  obtain ⟨late, early, hj, he⟩ := Event.exists_of_forgets hforgets
  rw [hp] at herrors
  simp only [Except.toOption, Option.any_some, beq_iff_eq] at herrors
  exact ⟨p, late, early, hp, herrors, hj, he⟩

/-- Nothing but the slash was taken since the report. -/
theorem parseTokens_suppressed_slash :
    ∃ late mid before, ((Setup.ofTokens (scan "/") .standard).last .ownedExpression).journal =
        late ++ .suppressed :: (mid ++ .reported :: before) ∧
      .reported ∉ mid ∧
      ∀ place, .matched place ∈ mid →
        ∃ t q table, (scan "/")[place]? = some t ∧ kerml.table? q = some table ∧
          table.operators.contains t.kind = true := by
  obtain ⟨late, early, hj, -⟩ := Event.exists_of_forgets checked_slash.1
  obtain ⟨mid, before, rfl, hmid⟩ := parseTokens_suppressed (rfl : Settings.standard.maxErrors = none) hj
  exact ⟨late, mid, before, hj, hmid⟩

end KermlText
