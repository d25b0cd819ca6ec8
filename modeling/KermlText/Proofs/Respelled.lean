import KermlText.Proofs.Completeness
import KermlText.Proofs.Likeness
import KermlText.Proofs.Spelled

/-! Forms of a respelled text. What is made of the one text away from the spelling is made of the other one
in the same way. The other text is looked at from its end: a choice is made there like here because what
stands behind it, spelled either way, keeps the choices apart. -/

namespace KermlText

open Grammar Rules Rules.Phrase

namespace Grammar

/-- Tokens are read off an element, given what it means to read them off a rule. What is left out cannot be
read. -/
inductive Makes (g : Grammar) (M : Manner) (P : Rule → List Token → Builder → List Token → Builder → Prop) :
    Element → List Token → Builder → List Token → Builder → Prop
  | eof {b} : Makes g M P (.token .eof) [] b [] b
  | token {k t w b} (ht : t.kind = k) (hk : k ≠ .eof) (hm : M.takes none (t :: w)) :
      Makes g M P (.token k) (t :: w) b w (b.pushToken t)
  | relation {k r t w b} (ht : t.kind = k) (hk : k ≠ .eof) (hm : M.takes (some r) (t :: w)) :
      Makes g M P (.relation k r) (t :: w) b w (b.pushToken t)
  | oneOf {ks t w b} (h : ks.contains t.kind = true) (hk : t.kind ≠ .eof) (hc : t.kind ≠ .blockComment)
      (hm : M.takes none (t :: w)) : Makes g M P (.oneOf ks) (t :: w) b w (b.pushToken t)
  | rule {r w b v c} (h : P r w b v c) : Makes g M P (.rule r) w b v c
  | present {e w b v c} (h : Makes g M P e w b v c) : Makes g M P (.optional e) w b v c
  | absent {e w b} (h : g.Greedy (.element (.optional e)) (kinds w) (kinds w)) :
      Makes g M P (.optional e) w b w b
  | again {e least resync w b v c u d} (h1 : Makes g M P e w b v c)
      (h2 : Makes g M P (.repeated e (least - 1) resync) v c u d) :
      Makes g M P (.repeated e least resync) w b u d
  | none {e resync w b} (h : ¬ g.Opens e.pattern (kinds w)) : Makes g M P (.repeated e 0 resync) w b w b
  | nil {w b} : Makes g M P (.seq []) w b w b
  | cons {e es w b v c u d} (h1 : Makes g M P e w b v c) (h2 : Makes g M P (.seq es) v c u d) :
      Makes g M P (.seq (e :: es)) w b u d
  | labeled {name many e w b v c} (h : Makes g M P e w b v c) :
      Makes g M P (.labeled name many e) w b v (c.label name many b.size e.catchesTokens e.relation?)

variable {M : Manner} {e : Element} {w v : List Token} {b c : Builder}

theorem Forms.spans (h : kerml.Forms M (.element e) w b v c) : kerml.Spans e.pattern (kinds w) (kinds v) :=
  Greedy.spans (h.greedy fun _ _ _ _ _ => table?_node_kerml)

end Grammar

/-- Whether no relation is spelled in the element. -/
def Element.isPlain : Element → Bool
  | .relation _ _ => false
  | _ => true

/-- An operator of `a` that stands next stands next in the other text as well. -/
def Agrees (a : Option Rule) (v v' : List Token) : Prop :=
  ∀ q t tier n, a = some q → kerml.table? q = some t → t.lookup (nextKind (kinds v')) = some (tier, n) →
    nextKind (kinds v') = nextKind (kinds v)

theorem agrees_of_nextKind {v v' : List Token} (h : nextKind (kinds v') = nextKind (kinds v))
    (a : Option Rule) : Agrees a v v' :=
  fun _ _ _ _ _ _ _ => h

namespace Respelling

variable (ρ : Respelling)

/-- There is a form of the other text, of the same place on and whatever is to be added to, that comes out
as `p` says. -/
def Remakes (job : Job) (w v' : List Token) (p : Builder → Builder → Prop) : Prop :=
  ∃ w', ρ.Place w w' ∧ ∀ b', ∃ c', kerml.Forms .free job w' b' v' c' ∧ p b' c'

/-- A rule where it is mentioned has a form in the other text if what stands behind it there may do so. -/
def Calls (level : Nat) (r : Rule) (w : List Token) (b : Builder) (v : List Token) (c : Builder) : Prop :=
  ∀ v', ρ.Place v v' → Behind (kerml.follow r) (kinds v') → Agrees r.tail? v v' →
    ρ.Remakes (.call r level) w v' fun b' c' => b.Likens b' → b.Grows b' c c'

variable {ρ} {e : Element} {es : List Element} {w v v' : List Token} {b c : Builder} {ks : KindSet}
  {a : Option Rule} {ss : Stack} {r : Rule} {job : Job} {p q : Builder → Builder → Prop}

theorem Remakes.imp (h : ρ.Remakes job w v' p) (hq : ∀ b' c', p b' c' → q b' c') : ρ.Remakes job w v' q := by
  obtain ⟨w', hw, h⟩ := h
  refine ⟨w', hw, fun b' => ?_⟩
  obtain ⟨c', hc, hp⟩ := h b'
  exact ⟨c', hc, hq b' c' hp⟩

theorem Remakes.form {job' : Job} (h : ρ.Remakes job w v' p)
    (hj : ∀ {w' b' c'}, kerml.Forms .free job w' b' v' c' → kerml.Forms .free job' w' b' v' c') :
    ρ.Remakes job' w v' p := by
  obtain ⟨w', hw, h⟩ := h
  exact ⟨w', hw, fun b' => (h b').imp fun _ h => ⟨hj h.1, h.2⟩⟩

/-- A form in front of another one. The other one tells what stands behind. -/
theorem Remakes.andThen {e f k : Element} {u' : List Token} {d : Builder}
    (h2 : ρ.Remakes (.element f) v u' fun c' d' => c.Likens c' → c.Grows c' d d')
    (h1 : ∀ v' c' d', ρ.Place v v' → kerml.Forms .free (.element f) v' c' u' d' →
      ρ.Remakes (.element e) w v' fun b' c' => b.Likens b' → b.Grows b' c c')
    (hk : ∀ {w' b' v' c' d'}, kerml.Forms .free (.element e) w' b' v' c' →
      kerml.Forms .free (.element f) v' c' u' d' → kerml.Forms .free (.element k) w' b' u' d') :
    ρ.Remakes (.element k) w u' fun b' d' => b.Likens b' → b.Grows b' d d' := by
  obtain ⟨v', hv, h2⟩ := h2
  obtain ⟨d', hform, -⟩ := h2 b
  obtain ⟨w', hw, h1⟩ := h1 v' b d' hv hform
  refine ⟨w', hw, fun b' => ?_⟩
  obtain ⟨c', hc, hgrows⟩ := h1 b'
  obtain ⟨d', hd, hgrows'⟩ := h2 c'
  exact ⟨d', hk hc hd, fun h => (hgrows h).trans (hgrows' (hgrows h).likens)⟩

theorem Remakes.labeled (h : ρ.Remakes (.element e) w v' fun b' c' => b.Likens b' → b.Grows b' c c')
    (name : String) (many : Bool) : ρ.Remakes (.element (.labeled name many e)) w v' fun b' c' =>
      b.Likens b' → b.Grows b' (c.label name many b.size e.catchesTokens e.relation?) c' := by
  obtain ⟨w', hw, h⟩ := h
  refine ⟨w', hw, fun b' => ?_⟩
  obtain ⟨c', h, hgrows⟩ := h b'
  exact ⟨_, .labeled h, fun h => (hgrows h).label _ _ _ _⟩

/-- A token that spells nothing stands in the other text as well. -/
theorem Place.plain {t : Token} (h : ρ.Place v v') (hm : ρ.manner.takes none (t :: v)) :
    ∃ t', t'.face = t.face ∧ ρ.Place (t :: v) (t' :: v') :=
  (h.step hm.1).resolve_left fun hmark => by cases hm.2 hmark

theorem agrees_of_mentionSettled (hs : kerml.mentionSettled ks a r ss = true)
    (hm : kerml.Matches (Behind ks) ss (kinds v')) (ha : ss = [] → Agrees a v v') : Agrees r.tail? v v' := by
  intro q t tier n hq ht hl
  simp only [mentionSettled, hq, Bool.and_eq_true, Bool.or_eq_true, Bool.not_eq_true', List.isEmpty_iff,
    beq_iff_eq] at hs
  rcases hs.2 with hno | ⟨hss, hq'⟩
  · have hk := KindSet.not_contains_of_not_intersects hno (hm.front closed_kerml)
    rw [operatorKinds, ht, Table.contains_operators hl] at hk
    cases hk
  · exact ha hss q t tier n hq' ht hl

end Respelling

/-! ### Elements -/

namespace Grammar

open Respelling

variable {ρ : Respelling} {e : Element} {es fs : List Element} {w v v' : List Token} {b c : Builder} {ks : KindSet}
  {a : Option Rule} {ss : Stack}

/-- What is made of an element where no relation is spelled is made of the other text. -/
theorem Makes.respell (h : kerml.Makes ρ.manner (ρ.Calls 0) e w b v c)
    (he : e.all Element.isPlain = true) (hs : kerml.settled ks a e ss = true) (hv : ρ.Place v v')
    (hm : kerml.Matches (Behind ks) ss (kinds v')) (ha : ss = [] → Agrees a v v') :
    ρ.Remakes (.element e) w v' fun b' c' => b.Likens b' → b.Grows b' c c' := by
  induction h generalizing ss v' with
  | eof =>
    obtain rfl := hv.of_nil
    exact ⟨[], hv, fun b' => ⟨b', .eof, .refl⟩⟩
  | token ht hk htake =>
    obtain ⟨t', hface, hplace⟩ := hv.plain htake
    exact ⟨_, hplace, fun b' => ⟨_, .token ((congrArg Prod.fst hface).trans ht) hk trivial,
      fun h => h.pushToken hface⟩⟩
  | relation => simp [Element.all, Element.isPlain] at he
  | @oneOf _ t _ _ h hk hc htake =>
    obtain ⟨t', hface, hplace⟩ := hv.plain htake
    have hkind : t'.kind = t.kind := congrArg Prod.fst hface
    rw [← hkind] at h hk hc
    exact ⟨_, hplace, fun b' => ⟨_, .oneOf h hk hc trivial, fun h => h.pushToken hface⟩⟩
  | rule h =>
    exact h v' hv (behind_of_mentionSettled closed_kerml hs hm) (agrees_of_mentionSettled hs hm ha) |>.form
      .rule
  | present h ih =>
    simp only [settled, Element.all, Element.isPlain, Bool.true_and, Bool.and_eq_true] at hs he
    exact (ih he hs.2 hv hm ha).form .present
  | absent h =>
    simp only [settled, Bool.and_eq_true] at hs
    refine ⟨v', hv, fun b' => ⟨b', .absent (.absent fun ho => ?_), .refl⟩⟩
    exact apart_of_apart closed_kerml hs.1 ho.matches hm
  | again h1 h2 ih1 ih2 =>
    refine (ih2 he hs hv hm ha).andThen (fun v' _ _ hv' h => ?_) .again
    simp only [settled, Element.all, Element.isPlain, Bool.true_and, Bool.and_eq_true] at hs he
    exact ih1 he hs.2 hv' (h.spans.of_times.cons hm) fun h => by cases h
  | none h =>
    simp only [settled, Bool.and_eq_true] at hs
    refine ⟨v', hv, fun b' => ⟨b', .none fun ho => ?_, .refl⟩⟩
    exact apart_of_apart closed_kerml hs.1 ho.matches hm
  | nil => exact ⟨v', hv, fun b' => ⟨b', .nil, .refl⟩⟩
  | @cons e es _ _ _ _ _ _ h1 h2 ih1 ih2 =>
    simp only [Element.all, Element.isPlain, rowAll, Bool.true_and, Bool.and_eq_true] at he ih1 ih2
    cases es with
    | nil =>
      cases h2
      exact (ih1 he.1 hs hv hm ha).form fun h => .cons h .nil
    | cons e' es =>
      simp only [settled, rowSettled, Bool.and_eq_true] at hs
      refine (ih2 he.2 hs.2 hv hm ha).andThen (fun v' _ _ hv' h => ?_) .cons
      exact ih1 he.1 hs.1 hv' (h.spans.cons hm) fun h => by cases h
  | labeled h ih =>
    simp only [settled, Element.all, Element.isPlain, Bool.true_and] at hs he
    exact (ih he hs hv hm ha).labeled _ _

/-! ### Rows -/

theorem rowSettled_cons {g : Grammar} (hn : es ≠ []) :
    g.rowSettled ks a (e :: es) ss = (g.settled ks a e (rowPattern es :: ss) && g.rowSettled ks a es ss) := by
  cases es with
  | nil => exact absurd rfl hn
  | cons e' es => rfl

theorem rowSettled_append {g : Grammar} (h : g.rowSettled ks a (es ++ fs) ss = true) :
    g.rowSettled ks a fs ss = true := by
  induction es with
  | nil => exact h
  | cons e es ih =>
    by_cases hn : es ++ fs = []
    · rw [(List.append_eq_nil_iff.1 hn).2]
      rfl
    · rw [List.cons_append, rowSettled_cons hn, Bool.and_eq_true] at h
      exact ih h.2

theorem Forms.spans_append {M : Manner} {u : List Kind} (h : kerml.Forms M (.element (.seq es)) w b v c)
    (hf : kerml.Spans (rowPattern fs) (kinds v) u) : kerml.Spans (rowPattern (es ++ fs)) (kinds w) u := by
  induction es generalizing w b with
  | nil =>
    cases h
    exact hf
  | cons e es ih =>
    cases h with
    | cons h1 h2 => exact h1.spans.both (ih h2)

/-- What is made of the front of a row, in front of what can be read off the rest of it. -/
theorem Makes.respell_front (h : kerml.Makes ρ.manner (ρ.Calls 0) (.seq es) w b v c)
    (he : rowAll Element.isPlain es = true) (hs : kerml.rowSettled ks a (es ++ fs) ss = true) (hn : fs ≠ [])
    (hv : ρ.Place v v') {u : List Kind} (hf : kerml.Spans (rowPattern fs) (kinds v') u)
    (hm : kerml.Matches (Behind ks) ss u) :
    ρ.Remakes (.element (.seq es)) w v' fun b' c' => b.Likens b' → b.Grows b' c c' := by
  induction es generalizing w b with
  | nil =>
    cases h
    exact ⟨v', hv, fun b' => ⟨b', .nil, .refl⟩⟩
  | cons e es ih =>
    rw [List.cons_append, rowSettled_cons (by simp [hn]), Bool.and_eq_true] at hs
    simp only [rowAll, Bool.and_eq_true] at he
    cases h with
    | cons h1 h2 =>
      refine (ih h2 he.2 hs.2).andThen (fun v'' _ _ hv'' h => ?_) .cons
      exact h1.respell he.1 hs.1 hv'' ((h.spans_append hf).cons hm) fun h => by cases h

theorem Forms.append {g : Grammar} {M : Manner} {u : List Token} {d : Builder}
    (h1 : g.Forms M (.element (.seq es)) w b v c) (h2 : g.Forms M (.element (.seq fs)) v c u d) :
    g.Forms M (.element (.seq (es ++ fs))) w b u d := by
  induction es generalizing w b with
  | nil =>
    cases h1
    exact h2
  | cons e es ih =>
    cases h1 with
    | cons h h1 => exact .cons h (ih h1)

theorem Makes.of_append {g : Grammar} {M : Manner} {P : Rule → List Token → Builder → List Token → Builder → Prop}
    (h : g.Makes M P (.seq (es ++ fs)) w b v c) :
    ∃ u d, g.Makes M P (.seq es) w b u d ∧ g.Makes M P (.seq fs) u d v c := by
  induction es generalizing w b with
  | nil => exact ⟨w, b, .nil, h⟩
  | cons e es ih =>
    cases h with
    | cons h1 h2 =>
      obtain ⟨u, d, h2, h3⟩ := ih h2
      exact ⟨u, d, .cons h1 h2, h3⟩

/-- An alternative is the first that can be read where what stands behind it settles this. -/
theorem Forms.foremost {M : Manner} {r : Rule} {i : Nat} {f : Alternative}
    (hs : kerml.choicesSettled r = true) (hf : (kerml.alternatives r)[i]? = some f) (hl : f.leftRecursive = false)
    (h : kerml.Forms M (.element (.seq f.elements)) w b v c) (hb : Behind (kerml.follow r) (kinds v)) :
    kerml.Foremost r i (kinds w) := by
  simp only [choicesSettled, List.all_eq_true, Bool.or_eq_true] at hs
  refine foremost_of_choiceSettled closed_kerml ?_ (h.spans.cons (.nil hb))
  exact (hs (f, i) (List.mem_zipIdx_iff_getElem?.2 hf)).resolve_left (by simp [hl])

end Grammar

end KermlText
