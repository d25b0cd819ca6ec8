import KermlText.Proofs.Wordings

/-! Each job that reads the one text reads the other one, and makes of it what shows the same. Two rules have
choices that the text does not settle. For the tail of a feature the two texts are compared in front of its
second part, and of an arrow it is known that no brace and no arguments stand behind it where it is bare. -/

namespace KermlText

open Grammar Respelling Rules Rules.Phrase

namespace Grammar

variable {g : Grammar} {M : Manner} {P Q : Rule → List Token → Builder → List Token → Builder → Prop}
  {e : Element} {resync : Bool} {w v : List Token} {b c : Builder}

theorem Makes.imp (h : g.Makes M P e w b v c) (hq : ∀ r w b v c, P r w b v c → Q r w b v c) :
    g.Makes M Q e w b v c := by
  induction h with
  | eof => exact .eof
  | token ht hk hm => exact .token ht hk hm
  | relation ht hk hm => exact .relation ht hk hm
  | oneOf h hk hc hm => exact .oneOf h hk hc hm
  | rule h => exact .rule (hq _ _ _ _ _ h)
  | present _ ih => exact .present ih
  | absent h => exact .absent h
  | again _ _ ih1 ih2 => exact .again ih1 ih2
  | none h => exact .none h
  | nil => exact .nil
  | cons _ _ ih1 ih2 => exact .cons ih1 ih2
  | labeled _ ih => exact .labeled ih

theorem Makes.form (h : g.Makes M (fun r w b v c => g.Forms M (.call r 0) w b v c) e w b v c) :
    g.Forms M (.element e) w b v c := by
  induction h with
  | eof => exact .eof
  | token ht hk hm => exact .token ht hk hm
  | relation ht hk hm => exact .relation ht hk hm
  | oneOf h hk hc hm => exact .oneOf h hk hc hm
  | rule h => exact .rule h
  | present _ ih => exact .present ih
  | absent h => exact .absent h
  | again _ _ ih1 ih2 => exact .again ih1 ih2
  | none h => exact .none h
  | nil => exact .nil
  | cons _ _ ih1 ih2 => exact .cons ih1 ih2
  | labeled _ ih => exact .labeled ih

theorem opens_of_nextKind {ks : KindSet} {x : List Kind} (h : ks.contains (nextKind x) = true)
    (he : ks.contains .eof = false) : g.Opens (.one ks) x := by
  cases x with
  | nil =>
    rw [nextKind_nil, he] at h
    cases h
  | cons k x => exact ⟨x, spans_one h x⟩

/-- Behind a list stands no item of it. -/
theorem Makes.not_opens (h : g.Makes M P (.repeated e 0 resync) w b v c) : ¬ g.Opens e.pattern (kinds v) := by
  generalize hq : Element.repeated e 0 resync = q at h
  induction h with
  | none h =>
    cases hq
    exact h
  | again _ _ _ ih =>
    cases hq
    exact ih rfl
  | eof | token | relation | oneOf | rule | present | absent | nil | cons | labeled => cases hq

end Grammar

/-! ### What stands next -/

theorem agrees_none (v v' : List Token) : Agrees none v v' :=
  fun _ _ _ _ h => nomatch h

namespace Respelling

variable {ρ : Respelling} {v v' : List Token} {ks : KindSet}

theorem exists_nextKind_of_spells {r : Relation} {ts : List Token} (h : r.Spells ts) (us : List Token) :
    ∃ s ∈ r.spellings, nextKind (kinds (ts ++ us)) = s.1 := by
  obtain ⟨s, hs, hk⟩ := h
  exact ⟨s, hs, by rw [kinds_append, hk, List.cons_append, nextKind_cons]⟩

/-- Of kinds that start no spelling one stands next in both texts or in neither. -/
theorem Place.contains_nextKind (h : ρ.Place v v')
    (hk : ∀ r ∈ Relation.all, ∀ s ∈ r.spellings, ks.contains s.1 = false) :
    ks.contains (KermlText.nextKind (kinds v')) = ks.contains (KermlText.nextKind (kinds v)) := by
  have hno : ∀ {ts}, ρ.relation.Spells ts → ∀ us, ks.contains (KermlText.nextKind (kinds (ts ++ us))) = false := by
    intro ts hts us
    obtain ⟨s, hs, hnext⟩ := exists_nextKind_of_spells hts us
    rw [hnext]
    exact hk _ (by cases ρ.relation <;> decide) s hs
  rcases h.nextKind with rfl | heq
  · obtain rfl := h.of_mark
    exact (hno ρ.respelled _).trans (hno ρ.spelled _).symm
  · rw [heq]

end Respelling

/-! ### Jobs -/

namespace Respelling

variable (ρ : Respelling)

/-- A rule where it is mentioned, with what is known of it in both texts. -/
def Mentions (r : Rule) (w : List Token) (b : Builder) (v : List Token) (c : Builder) : Prop :=
  kerml.Forms ρ.manner (.call r 0) w b v c ∧ ρ.Calls 0 r w b v c

/-- An alternative of a rule has a form in the other text if what stands behind it there may do so. If the
rule spells a relation it gets children of its own. -/
def Bodies (r : Rule) (w : List Token) (b : Builder) (v : List Token) (c : Builder) : Prop :=
  ∀ v', ρ.Place v v' → Behind (kerml.follow r) (kinds v') → Agrees r.tail? v v' →
    ρ.Remakes (.body r) w v' fun b' c' => b.Likens b' → c.Likens c' ∧ (r.wording? = none → b.Grows b' c c')

/-- Operators have a form in the other text behind what shows the same as `left`. -/
def Operations (r : Rule) (level : Nat) (left : Node) (w : List Token) (b : Builder) (v : List Token)
    (c : Builder) : Prop :=
  ∀ v', ρ.Place v v' → Behind (kerml.follow r) (kinds v') → Agrees (some r) v v' →
    ∃ w', ρ.Place w w' ∧ Behind (kerml.follow r) (kinds w') ∧ Agrees (some r) w w' ∧
      ∀ left' : Node, left'.shape = left.shape → ∀ b', ∃ c',
        kerml.Forms .free (.operators r level left') w' b' v' c' ∧ (b.Likens b' → b.Grows b' c c')

/-- What a job makes of the one text it makes of the other one. -/
def JobRemakes (w : List Token) (b : Builder) (v : List Token) (c : Builder) : Job → Prop
  | .element e => kerml.Makes ρ.manner ρ.Mentions e w b v c
  | .body r => ρ.Bodies r w b v c
  | .call r level => ρ.Calls level r w b v c
  | .operators r level left => ρ.Operations r level left w b v c

end Respelling

/-! ### The tail of a feature -/

namespace FeatureTail

variable {ρ : Respelling} {x z : List Kind} {w v v' : List Token} {b c : Builder}

/-- What is known of the sets around the second part of a tail. -/
theorem checked_back :
    kerml.firstOfRow back ∪ (behindFront ∪ (.single .lBracket ∪ .ofList orderings)) =
        behindFront ∪ (.single .lBracket ∪ .ofList orderings) ∧
      (kerml.firstOf (ref .featureRelationship)).contains .lBracket = false ∧
      kerml.isNullable (ref .featureRelationship) = false ∧
      (kerml.firstOfRow [ordering, field "value" (opt (ref .featureValue))]).contains .lBracket = false ∧
      (kerml.follow .featureTail).contains .lBracket = false ∧ kerml.solid .multiplicity = true := by
  decide +kernel

/-- What the second part may start with. -/
theorem nextKind_of_back (h : kerml.Spans (rowPattern back) x z)
    (hz : (kerml.follow .featureTail).contains (nextKind z) = true) :
    behindFront.contains (nextKind x) = true ∨ nextKind x = .lBracket ∨
      (KindSet.ofList orderings).contains (nextKind x) = true := by
  rcases Spans.row_starts closed_kerml h with hk | ⟨-, rfl⟩
  · have hk := KindSet.contains_of_union_eq checked_back.1 hk
    simp only [KindSet.contains_union, KindSet.contains_single, Bool.or_eq_true, decide_eq_true_eq] at hk
    exact hk.imp_right (.imp_left Eq.symm)
  · simp [behindFront, hz]

/-- Where a bracket stands that is no multiplicity, the second part is empty. -/
theorem eq_of_back (h : kerml.Greedy (.element (.seq back)) x z) (hx : nextKind x = .lBracket)
    (hm : ¬ kerml.Opens (.call .multiplicity) x) : x = z := by
  obtain ⟨-, hrelationship, hnullable, hrest, -⟩ := checked_back
  cases h with | cons hr h => cases h with | cons hm2 h =>
  cases hr with | labeled hr => cases hr with
  | again hr _ =>
    rcases Spans.element_starts closed_kerml hr.spans with hk | ⟨hn, -⟩
    · rw [hx, hrelationship] at hk
      cases hk
    · rw [hnullable] at hn
      cases hn
  | none => cases hm2 with | labeled hm2 => cases hm2 with
    | present hm2 => exact absurd hm2.opens hm
    | absent =>
      rcases Spans.row_starts closed_kerml h.spans with hk | ⟨-, rfl⟩
      · rw [hx, hrest] at hk
        cases hk
      · rfl

/-- A multiplicity that is left out is not to be read. -/
theorem not_opens_of_absent (h : kerml.Greedy (.element (.optional (ref .multiplicity))) x x) :
    ¬ kerml.Opens (.call .multiplicity) x := by
  obtain ⟨-, -, -, -, -, hsolid⟩ := checked_back
  cases h with
  | absent h => exact h
  | present h => exact absurd (h.length_lt founded_kerml hsolid) (Nat.lt_irrefl _)

/-- No spelling starts with a bracket. -/
theorem bracket_iff (h : ρ.Place v v') : nextKind (kinds v') = .lBracket ↔ nextKind (kinds v) = .lBracket := by
  have hk : (KindSet.single .lBracket).contains (nextKind (kinds v')) = _ := h.contains_nextKind (by decide)
  rw [KindSet.contains_single, KindSet.contains_single, decide_eq_decide] at hk
  rw [eq_comm, hk, eq_comm]

/-- The tail of a feature has a form in the other text. Where its second part could be read as its first one
there, it could be so here. -/
theorem remakes (hf : Facts) (h : kerml.Makes ρ.manner ρ.Mentions (.seq (front ++ back)) w b v c)
    (hv : ρ.Place v v') (hb : Behind (kerml.follow .featureTail) (kinds v')) :
    ρ.Remakes (.element (.seq (front ++ back))) w v' fun b' c' => b.Likens b' → b.Grows b' c c' := by
  obtain ⟨u, d, hfront, hback⟩ := h.of_append
  have hcalls : ∀ {e w b v c}, kerml.Makes ρ.manner ρ.Mentions e w b v c →
      kerml.Makes ρ.manner (ρ.Calls 0) e w b v c := fun h => h.imp fun _ _ _ _ _ => And.right
  have hlast := (hcalls hback).respell rfl hf.back hv (.nil hb) fun _ => agrees_none _ _
  refine hlast.andThen (fun u' _ _ hu hform => ?_) Forms.append
  by_cases hn : behindFront.contains (nextKind (kinds u')) = true
  · exact (hcalls hfront).respell rfl hf.front hu (.nil (behind_of_contains hn hf.name)) fun _ =>
      agrees_none _ _
  cases hfront with | cons hm1 h => cases h with | cons ho1 h => cases h with | nil =>
  cases hm1 with | labeled hm1 => cases ho1 with | labeled ho1 =>
  -- no word on order is left to the second part
  have hbracket' : nextKind (kinds u') = .lBracket := by
    rcases (nextKind_of_back hform.spans hb.next).resolve_left hn with hk | hk
    · exact hk
    · rw [hu.contains_nextKind (by decide)] at hk
      exact absurd (opens_of_nextKind hk (by decide)) ho1.not_opens
  have hbracket := (bracket_iff hu).1 hbracket'
  have hb' : Behind (.single .lBracket) (kinds u') := behind_of_contains (by simp [hbracket']) (by simp)
  have hs := hf.counted
  simp only [rowSettled, Bool.and_eq_true] at hs
  have hordering := (hcalls (.labeled ho1)).respell rfl hs.2 hu (.nil hb') fun _ => agrees_none _ _
  refine (hordering.form fun h => .cons h .nil).andThen (fun x' _ _ hx hform => ?_) .cons
  cases hm1 with
  | present hm1 =>
    have hcount := (hcalls hm1).respell rfl hs.1 hx (hform.spans.cons (.nil hb')) fun _ => agrees_none _ _
    exact (hcount.form .present).labeled _ _
  | absent habsent =>
    refine Remakes.labeled ⟨x', hx, fun b' => ⟨b', .absent (.absent ?_), .refl⟩⟩ _ _
    cases ho1 with
    | again ho1 _ => cases ho1 with | oneOf hk _ _ _ =>
      exact not_opens_multiplicity hf ((hx.contains_nextKind (by decide)).trans hk)
    | none _ =>
      -- the bracket would be left to what stands behind the tail
      have hgreedy := ((hback.imp fun _ _ _ _ _ => And.left).form).greedy fun _ _ _ _ _ => table?_node_kerml
      have heq := eq_of_back hgreedy hbracket (not_opens_of_absent habsent)
      have hnext := hb.next
      rw [(bracket_iff hv).2 (heq ▸ hbracket), checked_back.2.2.2.2.1] at hnext
      cases hnext

end FeatureTail

/-! ### Alternatives -/

namespace Respelling

variable {ρ : Respelling} {r : Rule} {i : Nat} {a : Alternative} {job : Job} {w v v' : List Token} {b c : Builder}

/-- An alternative that is read again, as the first that can be. -/
theorem Remakes.chosen (ha : (kerml.alternatives r)[i]? = some a) (hl : a.leftRecursive = false)
    (h : ρ.Remakes (.element (.seq a.elements)) w v' fun b' c' => b.Likens b' → b.Grows b' c c')
    (hi : ∀ {w' b' c'}, kerml.Forms .free (.element (.seq a.elements)) w' b' v' c' →
      kerml.Foremost r i (kinds w')) :
    ρ.Remakes (.body r) w v' fun b' c' => b.Likens b' → c.Likens c' ∧ (r.wording? = none → b.Grows b' c c') := by
  refine (h.form fun h => .chosen ha hl (hi h) trivial h).imp ?_
  intro b' c' h hb
  exact ⟨(h hb).likens, fun _ => h hb⟩

theorem foremost_of_only {x : List Kind} {only : Alternative} (h : kerml.alternatives r = [only])
    (ha : (kerml.alternatives r)[i]? = some a) : kerml.Foremost r i x := by
  intro j hj
  have hlt := (List.getElem?_eq_some_iff.1 ha).1
  rw [h, List.length_singleton] at hlt
  omega

/-- A whole text is read again to its end. -/
theorem remakes_text (h : kerml.Makes ρ.manner (ρ.Calls 0) (.seq [textMembers, tok .eof]) w b v c)
    (hv : ρ.Place v v') :
    ρ.Remakes (.element (.seq [textMembers, tok .eof])) w v' fun b' c' => b.Likens b' → b.Grows b' c c' := by
  cases h with | cons hmembers h => cases h with | cons hend h => cases h with | nil =>
  generalize he : tok .eof = e at hend
  cases hend with
  | eof =>
    obtain rfl := hv.of_nil
    have hmembers := hmembers.respell rfl checked_kerml.2.2.2.2.2 hv behind_members fun _ => agrees_none _ _
    exact hmembers.form fun h => .cons h (.cons .eof .nil)
  | token _ hk => exact absurd (Element.token.inj he).symm hk
  | _ => cases he

/-- What an alternative makes of the one text it makes of the other one, though perhaps with another
spelling. -/
theorem bodies_of_makes (ha : (kerml.alternatives r)[i]? = some a) (hl : a.leftRecursive = false)
    (hm : ρ.manner.ends r i v) (h : kerml.Makes ρ.manner ρ.Mentions (.seq a.elements) w b v c) :
    ρ.Bodies r w b v c := by
  intro v' hv hb hagrees
  have hmem := List.mem_of_getElem? ha
  have hcalls := h.imp fun _ _ _ _ _ => And.right
  rcases Option.eq_none_or_eq_some r.wording? with hp | ⟨p, hp⟩
  · by_cases hroot : r = .rootNamespace
    · subst hroot
      obtain rfl := List.mem_singleton.1 (alternatives_rootNamespace ▸ hmem)
      exact (remakes_text hcalls hv).chosen ha hl fun _ => foremost_of_only alternatives_rootNamespace ha
    by_cases htail : r = .featureTail
    · subst htail
      obtain rfl := List.mem_singleton.1 (FeatureTail.alternatives_eq ▸ hmem)
      exact (FeatureTail.remakes checked_kerml.2.1 h hv hb).chosen ha hl fun _ =>
        foremost_of_only FeatureTail.alternatives_eq ha
    have hsettled := rowsSettled_kerml hroot htail
    simp only [rowsSettled, List.all_eq_true, Bool.or_eq_true] at hsettled
    have hrow := hcalls.respell (by simpa [Element.all, Element.isPlain] using isPlain_of_wording_none hp hmem)
      ((hsettled a hmem).resolve_left (by simp [hl])) hv (.nil hb) fun _ => hagrees
    by_cases harrow : r = .arrowInvocationExpression
    · subst harrow
      refine hrow.chosen ha hl fun hform => Arrow.foremost checked_kerml.2.2.1 ha (fun hi => ?_) hform.spans hb
      have hno : ∀ x, (KindSet.ofList [.lBrace, .lParen]).contains (nextKind x) = false ↔
          nextKind x ≠ .lBrace ∧ nextKind x ≠ .lParen := fun x => by
        rw [Bool.eq_false_iff, Ne, KindSet.contains_ofList]
        simp
      rw [← hno, hv.contains_nextKind (by decide), hno]
      exact hm rfl hi
    · exact hrow.chosen ha hl fun hform => hform.foremost (choicesSettled_kerml hroot harrow) ha hl hb
  · rw [alternatives_of_wording hp] at hmem
    obtain ⟨s, hs, rfl⟩ := List.mem_map.1 hmem
    refine (hcalls.respell_wording hp hs hv hb hagrees).imp ?_
    intro b' c' h hb
    exact ⟨h hb, fun hn => by cases hp.symm.trans hn⟩

/-! ### Operators -/

theorem behind_operator {table : Table} {k : Kind} {tier : Tier} {q : Rule} (ht : kerml.table? r = some table)
    (hl : table.lookup k = some (tier, q)) (x : List Kind) : Behind (kerml.follow r) (k :: x) := by
  obtain ⟨htier, ho⟩ := Table.mem_tiers_of_lookup hl
  obtain ⟨hfollow, hname⟩ := (coherent_kerml ht).follow tier htier _ ho
  exact ⟨hfollow, fun x hx => hname (List.cons.inj hx).1⟩

/-- What a job makes of the one text it makes of the other one. -/
theorem remakes_of_forms (h : kerml.Forms ρ.manner job w b v c) : ρ.JobRemakes w b v c job := by
  induction h with
  | eof => exact Makes.eof
  | token ht hk hm => exact Makes.token ht hk hm
  | relation ht hk hm => exact Makes.relation ht hk hm
  | oneOf h hk hc hm => exact Makes.oneOf h hk hc hm
  | rule h ih => exact Makes.rule ⟨h, ih⟩
  | present _ ih => exact Makes.present ih
  | absent h => exact Makes.absent h
  | again _ _ ih1 ih2 => exact Makes.again ih1 ih2
  | none h => exact Makes.none h
  | nil => exact Makes.nil
  | cons _ _ ih1 ih2 => exact Makes.cons ih1 ih2
  | labeled _ ih => exact Makes.labeled ih
  | chosen ha hl _ hm _ ih => exact bodies_of_makes ha hl hm ih
  | @inlined r _ _ _ _ _ ht hi _ ih =>
    intro v' hv hb ha
    have hp : r.wording? = none := by
      rcases Option.eq_none_or_eq_some r.wording? with hp | ⟨p, hp⟩
      · exact hp
      · rw [inline_of_wording hp] at hi
        cases hi
    refine ((ih v' hv hb ha).form (.inlined ht hi)).imp ?_
    intro b' c' h hb
    exact (h hb).2 hp
  | @wrapped r _ _ _ _ _ ht hi _ ih =>
    intro v' hv hb ha
    obtain ⟨w', hw, h⟩ := ih v' hv hb ha
    obtain ⟨c', hform, hlikens⟩ := h (.start r)
    have hshape := (hlikens (Builder.likens_start r)).1.finish
    exact ⟨w', hw, fun b' => ⟨_, .wrapped ht hi hform, fun hb => hb.pushNode hshape⟩⟩
  | @climbed r _ _ _ _ _ _ _ _ ht _ _ ih1 ih2 =>
    intro v' hv hb ha
    have htail := (coherent_kerml ht).tail
    obtain ⟨u', hu, hbehind, hagrees, hops⟩ := ih2 v' hv hb (htail ▸ ha)
    obtain ⟨w', hw, h⟩ := ih1 u' hu hbehind (htail.symm ▸ hagrees)
    obtain ⟨c', hform, hlikens⟩ := h (.start r)
    refine ⟨w', hw, fun b' => ?_⟩
    obtain ⟨d', hd, hgrows⟩ := hops _ (hlikens (Builder.likens_start r)).1.operand b'
    exact ⟨d', .climbed ht hform hd, hgrows⟩
  | done ht hl =>
    intro v' hv hb ha
    refine ⟨v', hv, hb, ha, fun left' hleft b' => ⟨_, .done ht fun tier q hl' => ?_, fun h => h.pushNode hleft⟩⟩
    rw [ha _ _ _ _ rfl ht hl'] at hl'
    exact hl tier q hl'
  | @binary r table level left tier q t w _ _ _ _ _ ht hl hle hf hm _ _ ih1 ih2 =>
    intro v' hv hb ha
    have htail := (coherent_kerml ht).tail
    obtain ⟨u', hu, hbehind, hagrees, hops⟩ := ih2 v' hv hb ha
    obtain ⟨x', hx, hright⟩ := ih1 u' hu hbehind (htail.symm ▸ hagrees)
    obtain ⟨t', hface, hplace⟩ := hx.plain hm
    have hkind : t'.kind = t.kind := congrArg Prod.fst hface
    have hnext : nextKind (kinds (t' :: x')) = nextKind (kinds (t :: w)) := hkind
    rw [← hkind] at hl
    refine ⟨t' :: x', hplace, behind_operator ht hl _, agrees_of_nextKind hnext _, fun left' hleft b' => ?_⟩
    obtain ⟨c', hc, hgrows⟩ := hright (.operator q left' t')
    have hnode := (hgrows (Builder.likens_operator q hleft hface)).label "right" false false none
    obtain ⟨d', hd, hgrows'⟩ := hops _ hnode.likens.finish b'
    exact ⟨d', .binary ht hl hle hf trivial hc hd, hgrows'⟩
  | @suffix r table level left tier q t w _ u _ _ _ ht hl hle hf hm _ _ ih1 ih2 =>
    intro v' hv hb ha
    obtain ⟨u', hu, hbehind, hagrees, hops⟩ := ih2 v' hv hb ha
    obtain ⟨htier, ho⟩ := Table.mem_tiers_of_lookup hl
    obtain ⟨hsub, htail⟩ := (coherent_kerml ht).nodes tier htier hf _ ho
    have hbehind' : Behind (kerml.follow q) (kinds u') :=
      ⟨KindSet.contains_of_union_eq hsub hbehind.next, hbehind.name⟩
    have hagrees' : Agrees q.tail? u u' := by
      rcases htail with htail | htail
      · exact htail ▸ agrees_none _ _
      · exact htail ▸ hagrees
    obtain ⟨x', hx, hbody⟩ := ih1 u' hu hbehind' hagrees'
    obtain ⟨t', hface, hplace⟩ := hx.plain hm
    have hkind : t'.kind = t.kind := congrArg Prod.fst hface
    have hnext : nextKind (kinds (t' :: x')) = nextKind (kinds (t :: w)) := hkind
    rw [← hkind] at hl
    refine ⟨t' :: x', hplace, behind_operator ht hl _, agrees_of_nextKind hnext _, fun left' hleft b' => ?_⟩
    obtain ⟨c', hc, hlikens⟩ := hbody (.operator q left' t')
    have hnode := (hlikens (Builder.likens_operator q hleft hface)).1
    obtain ⟨d', hd, hgrows⟩ := hops _ hnode.finish b'
    exact ⟨d', .suffix ht hl hle hf trivial hc hd, hgrows⟩

end Respelling

end KermlText
