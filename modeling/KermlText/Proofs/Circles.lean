import KermlText.Proofs.Forward

/-! Lists that come to an end. A list that used up its rounds came back to where it was, in front of one token and
with nothing learned between. That is out of the question where an item takes a token, where an item only goes
forward, and where one comment at most stands in front of the token. Without that a list may go round for ever, as
operators do that are seen at the end of input: there they take nothing, and are seen again. -/

namespace KermlText

/-! ### Items that go on -/

mutual

/-- The rules that the element mentions. -/
def Element.rules : Element → List Rule
  | .token _ | .oneOf _ | .relation _ _ | .comment => []
  | .rule r | .ruleAt r _ => [r]
  | .optional e | .repeated e _ _ | .labeled _ _ e => e.rules
  | .seq es => rowRules es

def rowRules : List Element → List Rule
  | [] => []
  | e :: es => e.rules ++ rowRules es

end

namespace Grammar

variable (g : Grammar)

/-- Whether each rule in the element takes a token. -/
def steady (e : Element) : Bool := e.rules.all fun r => g.consumes (.rule r)

def rowSteady (es : List Element) : Bool := (rowRules es).all fun r => g.consumes (.rule r)

/-- An item that does not lead a list in a circle: it takes a token, or each rule in it does. -/
def goesOn (item : Element) : Bool := g.consumes item || g.steady item

theorem rowSteady_cons (e : Element) (es : List Element) :
    g.rowSteady (e :: es) = (g.steady e && g.rowSteady es) := by
  simp only [rowSteady, steady, rowRules, List.all_append]

end Grammar

namespace Recognizer

variable {z : Recognizer} {pos : Nat} {strict steady : Bool} {step : Step} {t u : Trial}

/-! ### Rounds -/

theorem listOn_eq_some (h : listOn step t = some u) : step t = (.matched, u) ∧ u.pos ≠ t.pos := by
  unfold listOn at h
  split at h
  · rename_i v he
    split at h
    · cases h
    · rename_i hne
      cases h
      exact ⟨he, hne⟩
  · cases h

theorem Fit.after (h : z.Fit pos strict steady step) (ht : z.Poised pos t) {n : Nat}
    (ha : Recognizer.after (listOn step) n t = some u) : z.Poised pos u ∧ z.Onward t u := by
  induction n generalizing t with
  | zero =>
    cases ha
    exact ⟨ht, .refl z _⟩
  | succ n ih =>
    obtain ⟨v, hv, ha⟩ := Option.bind_eq_some_iff.1 ha
    obtain ⟨hvp, hvo⟩ := h.comes.onward h.gathers ht (listOn_eq_some hv).1
    exact ⟨(ih hvp ha).1, hvo.trans (ih hvp ha).2⟩

/-- No list of such items is where it was some rounds before, unless it has learned something. -/
def Straight (z : Recognizer) (pos : Nat) (step : Step) : Prop := ∀ ⦃t u n⦄, z.Poised pos t →
  Recognizer.after (listOn step) (n + 1) t = some u → ¬(u.pos = t.pos ∧ u.memo = t.memo)

/-- A list that is back where it was stayed in front of one token all the time. -/
theorem Fit.first_round (h : z.Fit pos strict steady step) (ht : z.Poised pos t) {n : Nat}
    (ha : Recognizer.after (listOn step) (n + 1) t = some u) (hab : z.Abides t u) :
    ∃ v, step t = (.matched, v) ∧ v.pos ≠ t.pos ∧ z.Poised pos v ∧ z.Abides t v ∧ z.Abides v u ∧
      Recognizer.after (listOn step) n v = some u := by
  obtain ⟨v, hv, ha⟩ := Option.bind_eq_some_iff.1 ha
  obtain ⟨he, hne⟩ := listOn_eq_some hv
  obtain ⟨hvp, hvo⟩ := h.comes.onward h.gathers ht he
  obtain ⟨h1, h2⟩ := hab.between hvo (h.after hvp ha).2
  exact ⟨v, he, hne, hvp, h1, h2, ha⟩

theorem Fit.straight_of_strict (h : z.Fit pos true steady step) : z.Straight pos step := by
  rintro t u n ht ha ⟨hpos, hmemo⟩
  obtain ⟨v, he, -, -, hab, -⟩ := h.first_round ht ha ⟨congrArg _ hpos, hmemo⟩
  exact h.comes.not_abides ht he hab

theorem Fit.straight_of_steady (h : z.Fit pos strict true step) : z.Straight pos step := by
  have hlt : ∀ n, ∀ {t u}, z.Poised pos t → Recognizer.after (listOn step) (n + 1) t = some u → z.Abides t u →
      t.pos < u.pos := by
    intro n
    induction n with
    | zero =>
      intro t u ht ha hab
      obtain ⟨v, he, hne, -, hv, -, ha⟩ := h.first_round ht ha hab
      cases ha
      exact Nat.lt_of_le_of_ne (h.rising rfl ht he hv) hne.symm
    | succ n ih =>
      intro t u ht ha hab
      obtain ⟨v, he, -, hvp, hv, hvu, ha⟩ := h.first_round ht ha hab
      exact Nat.lt_of_le_of_lt (h.rising rfl ht he hv) (ih hvp ha hvu)
  rintro t u n ht ha ⟨hpos, hmemo⟩
  exact Nat.ne_of_gt (hlt n ht ha ⟨congrArg _ hpos, hmemo⟩) hpos

/-- In front of a token there are two places, and a list would have to go from each to the other. -/
theorem Fit.straight_of_calm (h : z.Fit pos strict steady step) (hc : z.stream.Calm pos) : z.Straight pos step := by
  rintro t u n ht ha ⟨hpos, hmemo⟩
  obtain ⟨v, het, hne, hvp, htv, hvu, ha⟩ := h.first_round ht ha ⟨congrArg _ hpos, hmemo⟩
  cases n with
  | zero =>
    cases ha
    exact hne hpos
  | succ n =>
    obtain ⟨w, hev, hne', hwp, hvw, -, -⟩ := h.first_round hvp ha hvu
    rcases Nat.lt_or_gt_of_ne hne with hlt | hlt
    · have hle := h.ordered hc hvp ht htv.symm hlt hev het hvw htv
      rcases hc.eq_or_eq hvp.left ht.left hlt htv.symm.settle hwp.left hvw.settle with hw | hw <;> omega
    · have hle := h.ordered hc ht hvp htv hlt het hev htv hvw
      rcases hc.eq_or_eq ht.left hvp.left hlt htv.settle hwp.left (htv.trans hvw).settle with hw | hw <;> omega

/-- A list that uses up its rounds went on in each of them. -/
theorem Comes.isSome_after (h : z.Comes pos strict step) {n need : Nat} (ht : z.Poised pos t)
    (he : (repeated step n need t).1 = .endless) : (Recognizer.after (listOn step) n t).isSome := by
  induction n generalizing need t with
  | zero => rfl
  | succ n ih =>
    have hs := h t ht
    unfold repeated at he
    rcases hst : step t with ⟨_ | _ | i | _, v⟩ <;> rw [hst] at he hs
    · dsimp only at he
      split at he
      · cases he
      · rename_i hne
        have hon : listOn step t = some v := by
          unfold listOn
          rw [hst]
          exact if_neg hne
        rw [Recognizer.after, hon]
        exact ih hs.poised he
    · cases he
    · dsimp only at he
      split at he <;> cases he
    · exact absurd rfl hs.ends

theorem Fit.loops (h : z.Fit pos strict steady step) (hp : pos ≤ z.stream.size) :
    z.Loops (z.Poised pos) (listOn step) where
  keeps ht ho := (h.comes.onward h.gathers ht (listOn_eq_some ho).1).1
  inside ht := ht.left.inside hp
  grows ho := h.gathers.listOn ho
  told _ _ hpos hmemo _ := (roundsAbreast_listOn (abreast_self z) h.told).told hpos hmemo

/-- A list that does not go in a circle comes to an end. -/
theorem Fit.comes_repeated (h : z.Fit pos strict steady step) (hp : pos ≤ z.stream.size) (hs : z.Straight pos step)
    (need : Nat) : z.Comes pos (need != 0 && strict) (repeated step z.rounds need) := by
  intro t ht
  refine h.comes.arrives_repeated z.rounds need ht fun he => ?_
  obtain ⟨i, j, u, v, hij, -, hu, hv, hpos, hmemo⟩ := (h.loops hp).exists_twice ht (h.comes.isSome_after ht he)
  obtain ⟨k, rfl⟩ := Nat.exists_eq_add_of_lt hij
  rw [Nat.add_assoc, after_add hu] at hv
  exact hs (h.after ht hu).1 hv ⟨hpos.symm, hmemo.symm⟩

/-! ### Lists -/

/-- How a list ends that matched: its first item does not match or stays, or the list goes on behind it. -/
theorem of_repeated_matched {n need : Nat} (h : repeated step (n + 1) need t = (.matched, u)) :
    u.pos = t.pos ∨
      ∃ v, step t = (.matched, v) ∧ v.pos ≠ t.pos ∧ repeated step n (need - 1) v = (.matched, u) := by
  unfold repeated at h
  rcases hst : step t with ⟨_ | _ | i | _, v⟩ <;> rw [hst] at h
  · dsimp only at h
    split at h
    · rename_i hp
      cases h
      exact .inl hp
    · rename_i hne
      exact .inr ⟨v, rfl, hne, h⟩
  · cases h
  · dsimp only at h
    split at h
    · cases h
    · cases h
      exact .inl rfl
  · cases h

theorem Fit.onward_repeated (h : z.Fit pos strict steady step) {n need : Nat} (ht : z.Poised pos t)
    (he : repeated step n need t = (.matched, u)) : z.Poised pos u ∧ z.Onward t u := by
  have hs := h.comes.arrives_repeated n need ht (by simp [he])
  have hg := gathers_repeated h.gathers n need t
  rw [he] at hs hg
  exact ⟨hs.poised, hs.le rfl, hg⟩

theorem Fit.rising_repeated (h : z.Fit pos strict true step) (n need : Nat) : z.Rising pos (repeated step n need) := by
  induction n generalizing need with
  | zero =>
    intro t u ht he
    cases he
  | succ n ih =>
    intro t u ht he hab
    rcases of_repeated_matched he with hpos | ⟨v, hv, -, hrest⟩
    · exact Nat.le_of_eq hpos.symm
    · obtain ⟨hvp, hvo⟩ := h.comes.onward h.gathers ht hv
      obtain ⟨htv, hvu⟩ := hab.between hvo (h.onward_repeated hvp hrest).2
      exact Nat.le_trans (h.rising rfl ht hv htv) (ih _ hvp hrest hvu)

/-- The first trial would have to leave the first place, and the second trial the second. -/
theorem Fit.ordered_repeated (h : z.Fit pos strict steady step) (hc : z.stream.Calm pos) (n need : Nat) :
    z.Ordered pos (repeated step n need) := by
  intro t u t' u' ht hu hab hlt het heu ht' hu'
  have hplace {w : Trial} (hw : z.Poised pos w) (ha : z.Abides t w) : w.pos = t.pos ∨ w.pos = u.pos :=
    hc.eq_or_eq ht.left hu.left hlt hab.settle hw.left ha.settle
  have htp := hplace (h.onward_repeated ht het).1 ht'
  have hup := hplace (h.onward_repeated hu heu).1 (hab.trans hu')
  cases n with
  | zero => cases het
  | succ n =>
    rcases of_repeated_matched het with hback | ⟨v, hv, hvne, hvrest⟩
    · omega
    · rcases of_repeated_matched heu with hback | ⟨w, hw, hwne, hwrest⟩
      · omega
      · obtain ⟨hvp, hvo⟩ := h.comes.onward h.gathers ht hv
        obtain ⟨hwp, hwo⟩ := h.comes.onward h.gathers hu hw
        have hav := (ht'.between hvo (h.onward_repeated hvp hvrest).2).1
        have haw := (hu'.between hwo (h.onward_repeated hwp hwrest).2).1
        have hle := h.ordered hc ht hu hab hlt hv hw hav haw
        have hvplace := hplace hvp hav
        have hwplace := hplace hwp (hab.trans haw)
        omega

theorem Fit.repeated (h : z.Fit pos strict steady step) (hp : pos ≤ z.stream.size) (hs : z.Straight pos step)
    (need : Nat) : z.Fit pos (need != 0 && strict) steady (Recognizer.repeated step z.rounds need) where
  comes := h.comes_repeated hp hs need
  ordered hc := h.ordered_repeated hc z.rounds need
  rising hst := (hst ▸ h : z.Fit pos strict true step).rising_repeated z.rounds need
  gathers := gathers_repeated h.gathers z.rounds need
  told := abreast_repeated (abreast_self z) h.told z.rounds need

/-! ### Circles -/

/-- A list that is where it was some rounds before goes on for ever. -/
theorem repeated_endless {k : Nat} (h : Recognizer.after (listOn step) (k + 1) t = some t) (n need : Nat) :
    (Recognizer.repeated step n need t).1 = .endless := by
  have hround : ∀ m, Recognizer.after (listOn step) ((k + 1) * m) t = some t := fun m => by
    induction m with
    | zero => rfl
    | succ m ih => rw [Nat.mul_succ, after_add ih, h]
  have hgoes : (Recognizer.after (listOn step) n t).isSome :=
    after_of_le (Nat.le_mul_of_pos_left n (Nat.succ_pos k)) (by rw [hround n]; rfl)
  obtain ⟨u, hu⟩ := Option.isSome_iff_exists.1 hgoes
  rw [← Nat.add_zero n, (isLoop_repeated step).add hu]
  rfl

/-- A list that knows of as many rules as before knows the same of them. -/
theorem Gathers.memo_eq (h : z.Gathers step) {n : Nat} (ha : Recognizer.after (Recognizer.listOn step) n t = some u)
    (hcount : u.memo.count z.keys = t.memo.count z.keys) : u.memo = t.memo := by
  have hgrows : t.memo.Grows z.keys u.memo := by
    clear hcount
    induction n generalizing t with
    | zero =>
      cases ha
      exact .inl rfl
    | succ n ih =>
      obtain ⟨v, hv, ha⟩ := Option.bind_eq_some_iff.1 ha
      exact (h.listOn hv).trans (ih ha)
  rcases hgrows with he | hlt
  · exact he
  · exact absurd hlt (by rw [hcount]; exact Nat.lt_irrefl _)

theorem guarded_endless (hl : z.limitReached t = false) (h : (step t).1 = .endless) :
    (z.guarded step t).1 = .endless := by
  unfold guarded
  rwa [hl]

/-- The first alternative is tried first, and of no elements it takes nothing. -/
theorem alternatives_of_nil {call : Bool → Rule → Step} {c : Bool} {r : Rule} {as : List Alternative}
    (h : z.grammar.alternatives r = ⟨[], false⟩ :: as) : z.alternatives call c r t = (.matched, t) := by
  unfold alternatives
  dsimp only
  rw [h, List.filter_cons_of_pos (by simp [startsWith, Grammar.rowNullable, allNullable])]
  rfl

/-- An operator that is seen at the end is not taken. If its operand takes nothing it is seen again. -/
theorem operators_endless {call : Bool → Rule → Step} {c : Bool} {r node : Rule} {table : Table} {tier : Tier}
    (hend : z.stream.atEnd t.pos = true) (hop : table.lookup (z.stream.lookahead t.pos c) = some (tier, node))
    (hoperand : (if tier.form = .binary then z.alternatives call c r else call c node) t = (.matched, t)) (n : Nat) :
    (z.operators call c r table n t).1 = .endless := by
  have htake : z.take t = (.matched, t) := by
    rw [take, Stream.skip, Stream.next?_of_atEnd _ hend]
    rfl
  induction n with
  | zero => rfl
  | succ n ih =>
    unfold operators guarded
    rw [if_neg (by simp [limitReached, hend])]
    dsimp only
    rw [hop]
    dsimp only
    rw [andThen_matched htake, andThen_matched hoperand]
    exact ih

theorem seq_endless {call : Bool → Rule → Step} {c : Bool} {e e' : Element} (hl : z.limitReached t = false)
    (h : (z.element call c e t).1 = .matched) (h' : (z.element call c e' (z.element call c e t).2).1 = .endless) :
    (z.element call c (.seq [e, e']) t).1 = .endless := by
  rw [element]
  refine guarded_endless hl ?_
  rw [row, row, andThen_matched (Prod.ext h rfl), andThen_broken (by rw [h']; nofun)]
  exact h'

/-- What goes on for ever behind an operand does so in a call. -/
theorem call_endless {n : Nat} {c : Bool} {r : Rule} {table : Table}
    (hm : t.memo.find? r (z.stream.settle t.pos) c = none) (htable : z.grammar.table? r = some table)
    (hoperand : z.alternatives (z.call n) (c || (z.grammar.definition r).comments) r t = (.matched, u))
    (h : (z.operators (z.call n) (c || (z.grammar.definition r).comments) r table z.rounds u).1 = .endless) :
    (z.call (n + 1) c r t).1 = .endless := by
  unfold call
  dsimp only
  rw [hm]
  dsimp only
  unfold body
  rw [htable]
  dsimp only
  rwa [andThen_matched hoperand]

end Recognizer

end KermlText
