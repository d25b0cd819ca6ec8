import KermlText.Proofs.Answers

/-! A session leaves a task no choice: two runs of a task from one session and one node in the making end
in the same way. So whatever run is found for a parse is the run of that parse. -/

namespace KermlText

namespace Setup

open Session

variable {u : Setup}

theorem ok_unique {α : Type} {m : Action α} {x y z : Session} {a c : α} (h : m x = .ok a y)
    (h' : m x = .ok c z) : c = a ∧ z = y := by
  rw [h] at h'
  cases h'
  exact ⟨rfl, rfl⟩

/-! ### What a list can do next -/

section

variable {n : Nat} {e : Element} {resync : Bool} {scope : Scope} {need : Nat} {x x' y : Session} {b b' : Builder}

/-- Behind an item that was entered a list goes on if the item moved. If not, it stops, or skips a token and
then goes on. -/
theorem Runs.of_entered (h : u.Runs n (.items e resync scope need) x b x' b')
    (he : u.enterItem scope e need x.checked = .ok true y) :
    ∃ z c, u.Runs n (.element e (u.within e scope)) y b z c ∧
      (z.pos ≠ x.pos ∧ u.Runs n (.items e resync scope (need - 1)) (z.noted (.again x.pos z.pos)) c x' b' ∨
        z.pos = x.pos ∧ stops resync scope (u.stream.kind z.pos) = true ∧ x' = z ∧ b' = c ∨
        z.pos = x.pos ∧ stops resync scope (u.stream.kind z.pos) = false ∧ ∃ w,
          w = (u.reported .unexpectedToken scope.rule (scope.follow ∪ u.grammar.firstOf e) z).skippedOver
            scope.context (u.stream.placesUpTo ∅ 1 z.pos) ∧
          u.Runs n (.items e resync scope (need - 1)) (w.noted (.again x.pos w.pos))
            (c.pushNode? (u.strays (u.stream.placesUpTo ∅ 1 z.pos))) x' b') := by
  cases h with
  | moved he' h1 hz h2 =>
    obtain ⟨-, rfl⟩ := ok_unique he he'
    exact ⟨_, _, h1, .inl ⟨hz, h2⟩⟩
  | stuck he' h1 hz hk =>
    obtain ⟨-, rfl⟩ := ok_unique he he'
    exact ⟨_, _, h1, .inr (.inl ⟨hz, hk, rfl, rfl⟩)⟩
  | freed he' h1 hz hk hw h2 =>
    obtain ⟨-, rfl⟩ := ok_unique he he'
    exact ⟨_, _, h1, .inr (.inr ⟨hz, hk, _, hw, h2⟩)⟩
  | ended he' _ | resumed he' _ _ _ => cases (ok_unique he he').1

/-- Where no item was entered a list stops, or skips tokens and then goes on. -/
theorem Runs.of_not_entered (h : u.Runs n (.items e resync scope need) x b x' b')
    (he : u.enterItem scope e need x.checked = .ok false y) :
    u.leaves e resync scope (u.stream.lookahead y.pos scope.comments) = true ∧ x' = y ∧ b' = b ∨
      u.leaves e resync scope (u.stream.lookahead y.pos scope.comments) = false ∧ ∃ w,
        w = (u.reported .unexpectedToken scope.rule (scope.follow ∪ u.grammar.firstOf e) y).skippedOver
          scope.context (u.passed (scope.follow ∪ u.grammar.firstOf e ∪ endKinds) y) ∧
        u.Runs n (.items e resync scope need) (w.noted (.again x.pos w.pos))
          (b.pushNode? (u.strays (u.passed (scope.follow ∪ u.grammar.firstOf e ∪ endKinds) y))) x' b' := by
  cases h with
  | moved he' _ _ _ | stuck he' _ _ _ | freed he' _ _ _ _ _ => cases (ok_unique he he').1
  | ended he' hk =>
    obtain ⟨-, rfl⟩ := ok_unique he he'
    exact .inl ⟨hk, rfl, rfl⟩
  | resumed he' hk hw h2 =>
    obtain ⟨-, rfl⟩ := ok_unique he he'
    exact .inr ⟨hk, _, hw, h2⟩

end

/-! ### Runs -/

theorem Runs.unique {n : Nat} {task : Task} {x y : Session} {b c : Builder}
    (h : u.Runs n task x b y c) {y' : Session} {c' : Builder} (h' : u.Runs n task x b y' c') :
    y' = y ∧ c' = c := by
  induction h generalizing y' c' with
  | token h =>
    cases h' with
    | token h' => exact (ok_unique h h').symm
  | relation h =>
    cases h' with
    | relation h' => exact (ok_unique h h').symm
  | oneOf h =>
    cases h' with
    | oneOf h' => exact (ok_unique h h').symm
  | comment h =>
    cases h' with
    | comment h' => exact (ok_unique h h').symm
  | rule _ ih =>
    cases h' with
    | rule h' => exact ih h'
  | ruleAt _ ih =>
    cases h' with
    | ruleAt h' => exact ih h'
  | present he _ ih =>
    cases h' with
    | present he' h' =>
      obtain ⟨-, rfl⟩ := ok_unique he he'
      exact ih h'
    | absent he' => cases (ok_unique he he').1
  | absent he =>
    cases h' with
    | present he' h' => cases (ok_unique he he').1
    | absent he' => exact ⟨(ok_unique he he').2, rfl⟩
  | repeated _ ih =>
    cases h' with
    | repeated h' => exact ih h'
  | seq _ ih =>
    cases h' with
    | seq h' => exact ih h'
  | labeled _ ih =>
    cases h' with
    | labeled h' =>
      obtain ⟨rfl, rfl⟩ := ih h'
      exact ⟨rfl, rfl⟩
  | nil =>
    cases h' with
    | nil => exact ⟨rfl, rfl⟩
  | cons _ _ ih1 ih2 =>
    cases h' with
    | cons h1 h2 =>
      obtain ⟨rfl, rfl⟩ := ih1 h1
      exact ih2 h2
  | moved he _ hz _ ih1 ih2 =>
    obtain ⟨_, _, h1, hnext⟩ := h'.of_entered he
    obtain ⟨rfl, rfl⟩ := ih1 h1
    rcases hnext with ⟨-, h2⟩ | ⟨hz', -⟩ | ⟨hz', -⟩
    · exact ih2 h2
    · exact absurd hz' hz
    · exact absurd hz' hz
  | stuck he _ hz hk ih =>
    obtain ⟨_, _, h1, hnext⟩ := h'.of_entered he
    obtain ⟨rfl, rfl⟩ := ih h1
    rcases hnext with ⟨hz', -⟩ | ⟨-, -, hend⟩ | ⟨-, hk', -⟩
    · exact absurd hz hz'
    · exact hend
    · cases hk.symm.trans hk'
  | freed he _ hz hk hw _ ih1 ih2 =>
    obtain ⟨_, _, h1, hnext⟩ := h'.of_entered he
    obtain ⟨rfl, rfl⟩ := ih1 h1
    rcases hnext with ⟨hz', -⟩ | ⟨-, hk', -⟩ | ⟨-, -, w, hw', h2⟩
    · exact absurd hz hz'
    · cases hk.symm.trans hk'
    · obtain rfl := hw'.trans hw.symm
      exact ih2 h2
  | ended he hk =>
    rcases h'.of_not_entered he with ⟨-, hend⟩ | ⟨hk', -⟩
    · exact hend
    · cases hk.symm.trans hk'
  | resumed he hk hw _ ih =>
    rcases h'.of_not_entered he with ⟨hk', -⟩ | ⟨-, w, hw', h2⟩
    · cases hk.symm.trans hk'
    · obtain rfl := hw'.trans hw.symm
      exact ih h2
  | chosen hd _ _ ih =>
    cases h' with
    | chosen hd' _ h' =>
      obtain ⟨hi, rfl⟩ := ok_unique hd hd'
      cases hi
      exact ih h'
    | lost hd' _ => cases (ok_unique hd hd').1
  | lost hd h =>
    cases h' with
    | chosen hd' _ _ => cases (ok_unique hd hd').1
    | lost hd' h' =>
      obtain ⟨he, rfl⟩ := ok_unique hd hd'
      cases he
      exact (ok_unique h h').symm
  | refused h =>
    cases h' with
    | refused h' => exact (ok_unique h h').symm
  | inlined ht hi _ ih =>
    cases h' with
    | inlined _ _ h' => exact ih h'
    | wrapped _ hi' _ => cases hi.symm.trans hi'
    | climbed ht' _ _ => cases ht.symm.trans ht'
  | wrapped ht hi _ ih =>
    cases h' with
    | inlined _ hi' _ => cases hi.symm.trans hi'
    | wrapped _ _ h' =>
      obtain ⟨rfl, rfl⟩ := ih h'
      exact ⟨rfl, rfl⟩
    | climbed ht' _ _ => cases ht.symm.trans ht'
  | climbed ht _ _ ih1 ih2 =>
    cases h' with
    | inlined ht' _ _ => cases ht.symm.trans ht'
    | wrapped ht' _ _ => cases ht.symm.trans ht'
    | climbed ht' h1 h2 =>
      cases ht.symm.trans ht'
      obtain ⟨rfl, rfl⟩ := ih1 h1
      exact ih2 h2
  | done hl =>
    cases h' with
    | done _ => exact ⟨rfl, rfl⟩
    | binary hl' hle' _ _ _ _ => exact absurd (hl _ _ hl') (Nat.not_lt.2 hle')
    | suffix hl' hle' _ _ _ _ => exact absurd (hl _ _ hl') (Nat.not_lt.2 hle')
  | binary hl hle hf _ _ _ ih1 ih2 =>
    cases h' with
    | done hl' => exact absurd (hl' _ _ hl) (Nat.not_lt.2 hle)
    | binary hl' _ _ _ h1 h2 =>
      cases hl.symm.trans hl'
      obtain ⟨rfl, rfl⟩ := ih1 h1
      exact ih2 h2
    | suffix hl' _ hf' _ _ _ =>
      cases hl.symm.trans hl'
      exact absurd hf hf'
  | suffix hl hle hf _ _ _ ih1 ih2 =>
    cases h' with
    | done hl' => exact absurd (hl' _ _ hl) (Nat.not_lt.2 hle)
    | binary hl' _ hf' _ _ _ =>
      cases hl.symm.trans hl'
      exact absurd hf' hf
    | suffix hl' _ _ _ h1 h2 =>
      cases hl.symm.trans hl'
      obtain ⟨rfl, rfl⟩ := ih1 h1
      exact ih2 h2

theorem Rooted.unique {r : Rule} {n m : Node} {x y : Session} (h : u.Rooted r n x)
    (h' : u.Rooted r m y) : m = n ∧ y = x := by
  obtain ⟨z, b, c, hr, he, rfl⟩ := h
  obtain ⟨z', b', c', hr', he', rfl⟩ := h'
  obtain ⟨rfl, rfl⟩ := hr.unique hr'
  obtain ⟨rfl, rfl⟩ := ok_unique he he'
  exact ⟨rfl, rfl⟩

end Setup

/-- A run that is found for a parse that cannot be called off is the one of that parse. -/
theorem parseTokens_of_rooted {r : Rule} {ts : List Token} {settings : Settings} {n : Node} {x : Session}
    (hc : settings.cancel = none) (h : (Setup.ofTokens ts settings).Rooted r n x) :
    (Setup.ofTokens ts settings).last r = x ∧ parseTokens r ts settings = (.ok ⟨n, x.errors⟩, x.sent) := by
  obtain ⟨p, hp⟩ := parseTokens_answers r ts hc
  obtain ⟨hn, hx⟩ := h.unique (rooted_last hp).1
  rcases hr : (Setup.ofTokens ts settings).run r with ⟨m, y⟩ | ⟨f, y⟩
  · rw [parseTokens_of_ok hr] at hp ⊢
    cases hp
    rw [Setup.last, hr] at hx ⊢
    obtain rfl : m = n := hn
    obtain rfl : y = x := hx
    exact ⟨rfl, rfl⟩
  · rw [parseTokens_of_error hr] at hp
    cases hp

end KermlText
