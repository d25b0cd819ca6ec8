import KermlText.Proofs.Horizons

/-! A decision that the horizon did not cut off is final. A trial looks at the limit in front of every element
and every operator, and ends where it finds it reached; nothing on the way out takes that end for another one,
and so it is the end of the whole trial. A trial that finds the limit reached nowhere therefore does what
it does with more tokens to look at. -/

namespace KermlText

namespace Memo

/-- Of no rule it is known that it came to the horizon. -/
def Final (m : Memo) : Prop := m.Holds fun _ _ _ o _ => o ≠ .horizon

end Memo

namespace Recognizer

/-! ### Where a trial looks at the limit -/

section

variable (z : Recognizer)

/-- The limit is not reached, and the step that is made then finds it reached nowhere. -/
def clearGuarded (clear : Trial → Prop) (t : Trial) : Prop := z.limitReached t = false ∧ clear t

def clearThen (first : Step) (clear clear' : Trial → Prop) (t : Trial) : Prop :=
  clear t ∧ ∀ t', first t = (.matched, t') → clear' t'

def clearRepeated (step : Step) (clear : Trial → Prop) : Nat → Trial → Prop
  | 0, _ => True
  | n + 1, t => clear t ∧ ∀ t', step t = (.matched, t') → t'.pos ≠ t.pos → clearRepeated step clear n t'

section

-- how a rule is tried, and whether the limit is found reached nowhere then
variable (call : Bool → Rule → Step) (clear : Bool → Rule → Trial → Prop) (comments : Bool)

mutual

/-- Wherever the limit is looked at while the element is tried, it is not reached. -/
def clearElement : Element → Trial → Prop
  | .token _ | .oneOf _ | .relation _ _ | .comment => z.clearGuarded fun _ => True
  | .rule r | .ruleAt r _ => z.clearGuarded (clear comments r)
  | .optional e | .labeled _ _ e => z.clearGuarded (clearElement e)
  | .repeated e _ _ =>
    z.clearGuarded (clearRepeated (z.element call comments e) (clearElement e) z.rounds)
  | .seq es => z.clearGuarded (clearRow es)

def clearRow : List Element → Trial → Prop
  | [] => fun _ => True
  | e :: es => clearThen (z.element call comments e) (clearElement e) (clearRow es)

end

def clearFirstMatch : List Alternative → Trial → Prop
  | [], _ => True
  | a :: as, t => z.clearRow call clear comments a.elements t ∧
    ∀ i t', z.row call comments a.elements t = (.failed i, t') → clearFirstMatch as { t' with pos := t.pos }

def clearAlternatives (r : Rule) (t : Trial) : Prop :=
  z.clearFirstMatch call clear comments
    ((z.grammar.alternatives r).filter (z.startsWith (z.stream.lookahead t.pos comments))) t

def clearOperators (r : Rule) (table : Table) : Nat → Trial → Prop
  | 0 => fun _ => True
  | n + 1 => z.clearGuarded fun t =>
    ∀ tier node, table.lookup (z.stream.lookahead t.pos comments) = some (tier, node) →
      clearThen (if tier.form = .binary then z.alternatives call comments r else call comments node)
        (if tier.form = .binary then z.clearAlternatives call clear comments r else clear comments node)
        (clearOperators r table n) { t with pos := z.stream.skip t.pos }

def clearBody (r : Rule) : Trial → Prop :=
  match z.grammar.table? r with
  | some table =>
    clearThen (z.alternatives call comments r) (z.clearAlternatives call clear comments r)
      (z.clearOperators call clear comments r table z.rounds)
  | none => z.clearAlternatives call clear comments r

end

/-- What is known of a rule is used without a look at the limit. -/
def clearCall : Nat → Bool → Rule → Trial → Prop
  | 0, _, _, _ => True
  | n + 1, comments, r, t => t.memo.find? r (z.stream.settle t.pos) comments = none →
    z.clearBody (z.call n) (clearCall n) (comments || (z.grammar.definition r).comments) r t

def clearTryElement (comments : Bool) (e : Element) : Trial → Prop :=
  z.clearElement (z.call maxNesting) (z.clearCall maxNesting) comments e

def clearTryRow (comments : Bool) (es : List Element) : Trial → Prop :=
  z.clearRow (z.call maxNesting) (z.clearCall maxNesting) comments es

end

/-! ### The horizon ends a trial -/

/-- The trials that find the limit reached nowhere are those that do not end at the horizon. -/
structure Clears (clear : Trial → Prop) (step : Step) : Prop where
  iff : ∀ t, t.memo.Final → (clear t ↔ (step t).1 ≠ .horizon)
  final : ∀ t, t.memo.Final → (step t).1 ≠ .horizon → (step t).2.memo.Final

namespace Clears

variable {clear clear' : Trial → Prop} {step step' : Step}

/-- A step that looks at one token does not come to the horizon. -/
theorem of_single (h : ∀ t, (step t).1 ≠ .horizon ∧ (step t).2.memo = t.memo) :
    Clears (fun _ => True) step :=
  ⟨fun t _ => iff_of_true trivial (h t).1, fun t ht _ => (h t).2 ▸ ht⟩

theorem guarded (z : Recognizer) (h : Clears clear step) : Clears (z.clearGuarded clear) (z.guarded step) := by
  constructor
  · intro t ht
    unfold clearGuarded Recognizer.guarded
    cases z.limitReached t with
    | true => simp
    | false => simpa using h.iff t ht
  · intro t ht hne
    unfold Recognizer.guarded at hne ⊢
    cases hl : z.limitReached t with
    | true => simp [hl] at hne
    | false =>
      simp only [hl, Bool.false_eq_true, if_false] at hne ⊢
      exact h.final t ht hne

theorem optional (h : Clears clear step) : Clears clear (optional step) := by
  constructor
  · intro t ht
    rw [h.iff t ht]
    unfold Recognizer.optional
    rcases step t with ⟨_ | _ | _ | _, t'⟩ <;> simp
  · intro t ht
    have hfinal := h.final t ht
    unfold Recognizer.optional
    generalize step t = r at hfinal ⊢
    obtain ⟨_ | _ | _ | _, t'⟩ := r
    · exact hfinal
    · exact hfinal
    · exact fun _ => hfinal (by simp)
    · exact hfinal

theorem andThen (h : Clears clear step) (h' : Clears clear' step') :
    Clears (clearThen step clear clear') (andThen step step') := by
  constructor
  · intro t ht
    have hfinal := h.final t ht
    unfold clearThen Recognizer.andThen
    rw [h.iff t ht]
    generalize step t = r at hfinal ⊢
    obtain ⟨_ | _ | _ | _, t'⟩ := r
    · simpa using h'.iff t' (hfinal (by simp))
    · simp
    · simp
    · simp
  · intro t ht
    have hfinal := h.final t ht
    unfold Recognizer.andThen
    generalize step t = r at hfinal ⊢
    obtain ⟨_ | _ | _ | _, t'⟩ := r
    · exact h'.final t' (hfinal (by simp))
    · exact hfinal
    · exact hfinal
    · exact hfinal

theorem repeated (h : Clears clear step) (n need : Nat) :
    Clears (clearRepeated step clear n) (repeated step n need) := by
  induction n generalizing need with
  | zero => exact ⟨fun t _ => iff_of_true trivial (by simp [Recognizer.repeated]), fun t ht _ => ht⟩
  | succ n ih =>
    constructor
    · intro t ht
      have hfinal := h.final t ht
      unfold clearRepeated Recognizer.repeated
      rw [h.iff t ht]
      generalize step t = r at hfinal ⊢
      obtain ⟨_ | _ | _ | _, t'⟩ := r
      · by_cases hp : t'.pos = t.pos
        · simp [hp]
        · simpa [hp] using (ih (need - 1)).iff t' (hfinal (by simp))
      · simp
      · by_cases hn : 0 < need <;> simp [hn]
      · simp
    · intro t ht
      have hfinal := h.final t ht
      unfold Recognizer.repeated
      generalize step t = r at hfinal ⊢
      obtain ⟨_ | _ | _ | _, t'⟩ := r
      · by_cases hp : t'.pos = t.pos
        · simpa [hp] using hfinal
        · simpa [hp] using (ih (need - 1)).final t' (hfinal (by simp))
      · exact hfinal
      · by_cases hn : 0 < need
        · simpa [hn] using hfinal
        · simpa [hn] using hfinal
      · exact hfinal

end Clears

section

variable {z : Recognizer} {call : Bool → Rule → Step} {clear : Bool → Rule → Trial → Prop}

theorem clears_token (c : Bool) (k : Kind) : Clears (fun _ => True) (z.token c k) := by
  refine .of_single fun t => ?_
  unfold token
  split
  · split <;> exact ⟨by simp [fail], rfl⟩
  · split <;> exact ⟨by simp [fail, take], rfl⟩

theorem clears_oneOf (c : Bool) (ks : KindSet) : Clears (fun _ => True) (z.oneOf c ks) := by
  refine .of_single fun t => ?_
  unfold oneOf
  dsimp only
  split <;> exact ⟨nofun, rfl⟩

theorem clears_comment : Clears (fun _ => True) z.comment := by
  refine .of_single fun t => ?_
  unfold comment
  split <;> exact ⟨nofun, rfl⟩

mutual

theorem clears_element (hcall : ∀ c r, Clears (clear c r) (call c r)) (c : Bool) :
    ∀ e : Element, Clears (z.clearElement call clear c e) (z.element call c e)
  | .token k | .relation k _ => by
    unfold clearElement element
    exact (clears_token c k).guarded z
  | .oneOf ks => by
    unfold clearElement element
    exact (clears_oneOf c ks).guarded z
  | .comment => by
    unfold clearElement element
    exact clears_comment.guarded z
  | .rule r | .ruleAt r _ => by
    unfold clearElement element
    exact (hcall c r).guarded z
  | .optional e => by
    unfold clearElement element
    exact (clears_element hcall c e).optional.guarded z
  | .repeated e least resync => by
    rw [clearElement, element.eq_def z call c (.repeated e least resync)]
    exact ((clears_element hcall c e).repeated z.rounds least).guarded z
  | .seq es => by
    unfold clearElement element
    exact (clears_row hcall c es).guarded z
  | .labeled _ _ e => by
    unfold clearElement element
    exact (clears_element hcall c e).guarded z

theorem clears_row (hcall : ∀ c r, Clears (clear c r) (call c r)) (c : Bool) :
    ∀ es : List Element, Clears (z.clearRow call clear c es) (z.row call c es)
  | [] => by
    unfold clearRow row
    exact .of_single fun _ => ⟨nofun, rfl⟩
  | e :: es => by
    unfold clearRow row
    exact (clears_element hcall c e).andThen (clears_row hcall c es)

end

variable (hcall : ∀ c r, Clears (clear c r) (call c r)) (c : Bool)
include hcall

theorem clears_firstMatch (as : List Alternative) (far : Nat) :
    Clears (z.clearFirstMatch call clear c as) (z.firstMatch call c as far) := by
  induction as generalizing far with
  | nil => exact .of_single fun _ => ⟨by simp [firstMatch], rfl⟩
  | cons a as ih =>
    have ha := clears_row (z := z) hcall c a.elements
    constructor
    · intro t ht
      have hfinal := ha.final t ht
      unfold clearFirstMatch firstMatch
      rw [ha.iff t ht]
      generalize z.row call c a.elements t = r at hfinal ⊢
      obtain ⟨_ | _ | i | _, t'⟩ := r
      · simp
      · simp
      · simpa using (ih (max far i)).iff { t' with pos := t.pos } (hfinal (by simp))
      · simp
    · intro t ht
      have hfinal := ha.final t ht
      unfold firstMatch
      generalize z.row call c a.elements t = r at hfinal ⊢
      obtain ⟨_ | _ | i | _, t'⟩ := r
      · exact hfinal
      · exact hfinal
      · exact (ih (max far i)).final { t' with pos := t.pos } (hfinal (by simp))
      · exact hfinal

theorem clears_alternatives (r : Rule) :
    Clears (z.clearAlternatives call clear c r) (z.alternatives call c r) :=
  ⟨fun t => (clears_firstMatch hcall c _ (z.stream.settle t.pos)).iff t,
    fun t => (clears_firstMatch hcall c _ (z.stream.settle t.pos)).final t⟩

theorem clears_operators (r : Rule) (table : Table) (n : Nat) :
    Clears (z.clearOperators call clear c r table n) (z.operators call c r table n) := by
  induction n with
  | zero => exact .of_single fun _ => ⟨nofun, rfl⟩
  | succ n ih =>
    unfold clearOperators operators
    refine Clears.guarded z ?_
    have hoperator (tier : Tier) (node : Rule) :
        Clears (if tier.form = .binary then z.clearAlternatives call clear c r else clear c node)
          (if tier.form = .binary then z.alternatives call c r else call c node) := by
      split
      · exact clears_alternatives hcall c r
      · exact hcall c node
    constructor
    · intro t ht
      rcases table.lookup (z.stream.lookahead t.pos c) with _ | ⟨tier, node⟩
      · simp
      · simpa [Recognizer.andThen, take] using
          ((hoperator tier node).andThen ih).iff { t with pos := z.stream.skip t.pos } ht
    · intro t ht
      rcases table.lookup (z.stream.lookahead t.pos c) with _ | ⟨tier, node⟩
      · exact fun _ => ht
      · exact ((hoperator tier node).andThen ih).final { t with pos := z.stream.skip t.pos } ht

theorem clears_body (r : Rule) : Clears (z.clearBody call clear c r) (z.body call c r) := by
  unfold clearBody body
  rcases z.grammar.table? r with _ | table
  · exact clears_alternatives hcall c r
  · exact (clears_alternatives hcall c r).andThen (clears_operators hcall c r table z.rounds)

omit hcall in
theorem clears_call (n : Nat) (r : Rule) : Clears (z.clearCall n c r) (z.call n c r) := by
  induction n generalizing c r with
  | zero => exact .of_single fun _ => ⟨nofun, rfl⟩
  | succ n ih =>
    have hbody := clears_body (z := z) ih (c || (z.grammar.definition r).comments) r
    constructor
    · intro t ht
      unfold clearCall call
      dsimp only
      rcases hf : t.memo.find? r (z.stream.settle t.pos) c with _ | ⟨_ | _ | _ | _, stop⟩
      · simpa using hbody.iff t ht
      · simp
      · exact absurd rfl (ht r _ c _ stop hf)
      · simp
      · simp
    · intro t ht
      unfold call
      dsimp only
      rcases t.memo.find? r (z.stream.settle t.pos) c with _ | ⟨_ | _ | _ | _, stop⟩
      · exact fun hne => (hbody.final t ht hne).insert hne
      · exact fun _ => ht
      · exact fun _ => ht
      · exact fun _ => ht
      · exact fun _ => ht

end

theorem clears_tryElement (z : Recognizer) (c : Bool) (e : Element) :
    Clears (z.clearTryElement c e) (z.tryElement c e) :=
  clears_element (fun c r => clears_call c maxNesting r) c e

theorem clears_tryRow (z : Recognizer) (c : Bool) (es : List Element) :
    Clears (z.clearTryRow c es) (z.tryRow c es) :=
  clears_row (fun c r => clears_call c maxNesting r) c es

end Recognizer

/-! ### Decisions -/

namespace Resolver

/-- The resolver with another number of tokens to look at. -/
def limited (z : Resolver) (limit : Nat) : Resolver := { z with limit := limit }

/-- Wherever the limit is looked at while alternatives are tried, it is not reached: in the trials, and where
one of them matches. -/
def clearAll (z : Recognizer) (pos : Nat) (r : Rule) (follow : KindSet) (comments : Bool) :
    List Nat → Memo → Prop
  | [], _ => True
  | i :: is, memo =>
    z.clearTryRow comments (elements z.grammar r i) (.start pos memo) ∧
    match z.tryRow comments (elements z.grammar r i) (.start pos memo) with
    | (.matched, t) => z.limitReached t = false ∧
      (follow.contains (z.stream.lookahead t.pos comments) = false → clearAll z pos r follow comments is t.memo)
    | (.failed _, t) => clearAll z pos r follow comments is t.memo
    | _ => True

section

variable (g : Grammar) (s : Stream)

/-- Nothing is tried to decide, or the trials find the limit reached nowhere. -/
def DecidesClear (z : Resolver) (pos : Nat) (r : Rule) (candidates : List Nat) (follow : KindSet)
    (comments : Bool) : Prop :=
  match candidates.filter fun i => viable g (s.lookahead pos comments) follow (elements g r i) with
  | [] | [_] => True
  | several => clearAll (z.recognizer g s pos) pos r follow comments several .empty

def EntersClear (z : Resolver) (pos : Nat) (e : Element) (follow : KindSet) (comments : Bool) : Prop :=
  (g.firstOf e).contains (s.lookahead pos comments) = true →
    follow.contains (s.lookahead pos comments) = true →
    (z.recognizer g s pos).clearTryElement comments e (.start pos .empty)

end

section

variable {g : Grammar} {s : Stream}

/-- The limit is found reached where an alternative is spared because of that, and nowhere else. -/
theorem clearAll_iff {y : Recognizer} {pos : Nat} {r : Rule} {follow : KindSet} {c : Bool} {is : List Nat}
    {memo : Memo} (hm : memo.Final) :
    clearAll y pos r follow c is memo ↔ spared? y pos r follow c is memo = none := by
  induction is generalizing memo with
  | nil => exact iff_of_true trivial rfl
  | cons i is ih =>
    have hrow := y.clears_tryRow c (elements y.grammar r i)
    have hfinal := hrow.final (.start pos memo) hm
    unfold clearAll spared?
    rw [hrow.iff (.start pos memo) hm]
    generalize y.tryRow c (elements y.grammar r i) (.start pos memo) = res at hfinal ⊢
    obtain ⟨_ | _ | place | _, t⟩ := res
    · cases hl : y.limitReached t with
      | true => simp [hl]
      | false =>
        cases hf : follow.contains (y.stream.lookahead t.pos c) with
        | true => simp [hl, hf]
        | false => simpa [hl, hf] using ih (hfinal (by simp))
    · simp
    · simpa using ih (hfinal (by simp))
    · simp

variable {z : Resolver} {limit : Nat} {pos : Nat} {follow : KindSet} {c : Bool}

/-- More tokens to look at make no difference to a decision if they make none to its trials. -/
theorem decide_limited_of_trials {r : Rule} {candidates : List Nat}
    (h : ∀ first second rest,
      candidates.filter (fun i => viable g (s.lookahead pos c) follow (elements g r i)) = first :: second :: rest →
      tryAll ((z.limited limit).recognizer g s pos) pos r follow c (first :: second :: rest) .empty ⟨none, none⟩
          false =
        tryAll (z.recognizer g s pos) pos r follow c (first :: second :: rest) .empty ⟨none, none⟩ false) :
    (z.limited limit).decide g s pos r candidates follow c =
      ((z.decide g s pos r candidates follow c).1, (z.decide g s pos r candidates follow c).2.limited limit) := by
  have hknown : ∀ d, (z.limited limit).known? d = z.known? d := fun _ => rfl
  unfold decide
  split
  · rfl
  · dsimp only
    rw [hknown]
    rcases z.known? ⟨r, s.settle pos, follow, c⟩ with _ | i
    · dsimp only
      rcases hv : candidates.filter fun i => viable g (s.lookahead pos c) follow (elements g r i) with
        _ | ⟨first, _ | ⟨second, rest⟩⟩
      · rfl
      · rfl
      · dsimp only
        rw [h first second rest hv]
        rcases tryAll (z.recognizer g s pos) pos r follow c (first :: second :: rest) .empty ⟨none, none⟩ false
          with ⟨_ | choice, cut⟩
        · rfl
        · cases hc : z.caching <;> simp [remember, limited, forgetFrom, hc, countSpeculated, noteCut]
    · rfl

theorem enter_limited_of_trial {e : Element}
    (h : (g.firstOf e).contains (s.lookahead pos c) = true → follow.contains (s.lookahead pos c) = true →
      ((z.limited limit).recognizer g s pos).tryElement c e (.start pos .empty) =
        (z.recognizer g s pos).tryElement c e (.start pos .empty)) :
    (z.limited limit).enter g s pos e follow c =
      ((z.enter g s pos e follow c).1, (z.enter g s pos e follow c).2.limited limit) := by
  unfold enter
  dsimp only
  cases hk : (g.firstOf e).contains (s.lookahead pos c) with
  | false => rfl
  | true =>
    cases hf : follow.contains (s.lookahead pos c) with
    | false => rfl
    | true =>
      rw [h hk hf]
      rcases (z.recognizer g s pos).tryElement c e (.start pos .empty) with ⟨_ | _ | _ | _, t⟩ <;> rfl

variable (hle : z.limit ≤ limit)
include hle

/-- A decision that finds the limit reached nowhere is the decision with more tokens to look at. -/
theorem decide_limited_of_clear {r : Rule} {candidates : List Nat}
    (h : z.DecidesClear g s pos r candidates follow c) :
    (z.limited limit).decide g s pos r candidates follow c =
      ((z.decide g s pos r candidates follow c).1, (z.decide g s pos r candidates follow c).2.limited limit) := by
  refine decide_limited_of_trials fun first second rest hv => ?_
  have hspared : spared? (z.recognizer g s pos) pos r follow c (first :: second :: rest) .empty = none := by
    rw [DecidesClear, hv] at h
    exact (clearAll_iff (Memo.holds_empty _)).1 h
  rcases tryAll_eq_or_spared (g := g) (s := s) (s.horizon_le pos hle) pos r follow c (first :: second :: rest)
    .empty ⟨none, none⟩ false with heq | ⟨i, hi, -⟩
  · exact heq
  · exact absurd (hspared.symm.trans hi) nofun

theorem enter_limited_of_clear {e : Element} (h : z.EntersClear g s pos e follow c) :
    (z.limited limit).enter g s pos e follow c =
      ((z.enter g s pos e follow c).1, (z.enter g s pos e follow c).2.limited limit) := by
  refine enter_limited_of_trial fun hk hf => ?_
  have hfar : s.horizon pos z.limit ≤ s.horizon pos limit := s.horizon_le pos hle
  have hne := ((Recognizer.clears_tryElement _ c e).iff (.start pos .empty) (Memo.holds_empty _)).1 (h hk hf)
  exact (Recognizer.cuts_element hfar (Recognizer.cuts_call hfar · _ ·) c e _).resolve_left hne

end

end Resolver

end KermlText
