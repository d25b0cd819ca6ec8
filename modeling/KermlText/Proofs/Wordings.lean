import KermlText.Proofs.Respelled

/-! Rules that spell a relation. Their alternatives differ in the spelling only, so where the one text has
the old spelling, the other one has the new spelling, and the same stands in front of it and behind it. -/

namespace KermlText

open Grammar Rules Rules.Phrase

/-- What a rule has in front of its relation and behind it. -/
structure Wording where
  front : List Element
  relation : Relation
  back : List Element

namespace Wording

/-- The alternative for one of the spellings. -/
def row (p : Wording) (s : Kind × List Kind) : List Element :=
  p.front ++ field "relation" (.relation s.1 p.relation) :: (s.2.map tok ++ p.back)

end Wording

/-- The wording of a rule that spells a relation. -/
def Rule.wording? : Rule → Option Wording
  | .specializationPart => some ⟨[], .specializes, [separated "targets" .qualifiedName]⟩
  | .conjugationPart => some ⟨[], .conjugates, [nameField "target"]⟩
  | .subclassificationDeclaration =>
    some ⟨[optSpecialization, field "keyword" (oneOf [.kwSubclassifier, .kwSubtype]), nameField "specific"],
      .specializes, [nameField "general", body]⟩
  | .conjugationDeclaration =>
    some ⟨[optNamed .kwConjugation, tok .kwConjugate, nameField "conjugate"], .conjugates,
      [nameField "original", body]⟩
  | .featureTypingDeclaration =>
    some ⟨[optSpecialization, tok .kwTyping, nameField "typed"], .typing, [nameField "type", body]⟩
  | .subsettingDeclaration =>
    some ⟨[optSpecialization, tok .kwSubset, nameField "subsetting"], .subsets, [nameField "subsetted", body]⟩
  | .redefinitionDeclaration =>
    some ⟨[optSpecialization, tok .kwRedefinition, nameField "redefining"], .redefines,
      [nameField "redefined", body]⟩
  | .featureTyping => some ⟨[], .typing, [separated "types" .qualifiedName]⟩
  | .subsetting => some ⟨[], .subsets, [separated "targets" .qualifiedName]⟩
  | .redefinition => some ⟨[], .redefines, [separated "targets" .qualifiedName]⟩
  | .referenceSubsetting => some ⟨[], .references, [field "target" (ref .featureChain)]⟩
  | .crossSubsetting => some ⟨[], .crosses, [field "target" (ref .featureChain)]⟩
  | .metadataFeature =>
    some ⟨[], .annotates, [field "declaration" (opt (ref .metadataTyping)), nameField "type",
      opt (ref .aboutClause), body]⟩
  | .metadataTyping => some ⟨[field "identification" (ref .identification)], .typing, []⟩
  | _ => none

variable {r : Rule} {p : Wording}

theorem alternatives_of_wording (h : r.wording? = some p) :
    kerml.alternatives r = p.relation.spellings.map fun s => ⟨p.row s, false⟩ := by
  unfold Rule.wording? at h
  split at h <;> cases h <;> rfl

theorem inline_of_wording (h : r.wording? = some p) : (kerml.definition r).inline = false := by
  unfold Rule.wording? at h
  split at h <;> cases h <;> rfl

theorem isPlain_of_wording (h : r.wording? = some p) :
    rowAll Element.isPlain p.front = true ∧ rowAll Element.isPlain p.back = true := by
  unfold Rule.wording? at h
  split at h <;> cases h <;> exact ⟨rfl, rfl⟩

/-- The choices of a rule that spells a relation are settled. -/
theorem settled_of_wording (h : r.wording? = some p) :
    kerml.rowsSettled r = true ∧ kerml.choicesSettled r = true := by
  have hr : r ≠ .rootNamespace ∧ r ≠ .featureTail ∧ r ≠ .arrowInvocationExpression := by
    refine ⟨?_, ?_, ?_⟩ <;> rintro rfl <;> cases h
  exact ⟨rowsSettled_kerml hr.1 hr.2.1, choicesSettled_kerml hr.1 hr.2.2⟩

/-- Other rules spell no relation. -/
theorem isPlain_of_wording_none (h : r.wording? = none) {a : Alternative} (ha : a ∈ kerml.alternatives r) :
    rowAll Element.isPlain a.elements = true := by
  have hall : ∀ r ∈ Rule.all, r.wording?.isSome = true ∨ ∀ a ∈ kerml.alternatives r,
      rowAll Element.isPlain a.elements = true := by decide +kernel
  exact (hall r (Rule.mem_all r)).resolve_left (by simp [h]) a ha

/-- A spelling is told by its first token. -/
theorem Relation.spelling_eq {r : Relation} {s s' : Kind × List Kind} (h : s ∈ r.spellings)
    (h' : s' ∈ r.spellings) (hk : s.1 = s'.1) : s = s' := by
  have hall : ∀ r ∈ Relation.all, ∀ s ∈ r.spellings, ∀ s' ∈ r.spellings, s.1 = s'.1 → s = s' := by decide
  exact hall r (by cases r <;> decide) s h s' h' hk

theorem Relation.not_eof_mem_spelling {r : Relation} {s : Kind × List Kind} (h : s ∈ r.spellings) :
    .eof ∉ s.1 :: s.2 := by
  have hall : ∀ r ∈ Relation.all, ∀ s ∈ r.spellings, .eof ∉ s.1 :: s.2 := by decide
  exact hall r (by cases r <;> decide) s h

/-! ### The words of a spelling -/

namespace Grammar

open Respelling

variable {M : Manner} {P : Rule → List Token → Builder → List Token → Builder → Prop} {ks : List Kind}
  {w v u : List Token} {b c d : Builder}

theorem isPlain_words {es : List Element} (ks : List Kind) (h : rowAll Element.isPlain es = true) :
    rowAll Element.isPlain (ks.map tok ++ es) = true := by
  induction ks with
  | nil => exact h
  | cons k ks ih => simpa [rowAll, Element.all, tok, Element.isPlain] using ih

/-- Words are read off as they are. -/
theorem Makes.words {g : Grammar} (h : g.Makes M P (.seq (ks.map tok)) w b v c) (hk : .eof ∉ ks) :
    ∃ ts, w = ts ++ v ∧ kinds ts = ks ∧ c = b.pushTokens ts := by
  induction ks generalizing w b with
  | nil =>
    cases h
    exact ⟨[], rfl, rfl, by simp⟩
  | cons k ks ih =>
    simp only [List.mem_cons, not_or] at hk
    cases h with
    | cons h1 h2 =>
      generalize he : tok k = e at h1
      cases h1 with
      | token ht _ _ =>
        obtain rfl := Element.token.inj he
        obtain ⟨ts, rfl, hts, rfl⟩ := ih h2 hk.2
        exact ⟨_ :: ts, rfl, by rw [kinds_cons, ht, hts], by simp⟩
      | eof => exact absurd (Element.token.inj he).symm hk.1
      | _ => cases he

theorem forms_words {g : Grammar} (ts v : List Token) (b : Builder) (hk : .eof ∉ kinds ts) :
    g.Forms .free (.element (.seq ((kinds ts).map tok))) (ts ++ v) b v (b.pushTokens ts) := by
  induction ts generalizing b with
  | nil => simpa using Forms.nil
  | cons t ts ih =>
    simp only [kinds_cons, List.mem_cons, not_or] at hk
    rw [Builder.pushTokens_cons]
    exact .cons (.token rfl (fun h => hk.1 h.symm) trivial) (ih _ hk.2)

end Grammar

/-! ### The place of a spelling -/

theorem exists_cons_of_kinds {ts : List Token} {k : Kind} {ks : List Kind} (h : kinds ts = k :: ks) :
    ∃ t us, ts = t :: us ∧ t.kind = k ∧ kinds us = ks := by
  obtain ⟨t, us, rfl, hk, hks⟩ := List.map_eq_cons_iff.1 h
  exact ⟨t, us, rfl, hk, hks⟩

namespace Respelling

variable {ρ : Respelling}

theorem place_mark : ρ.Place ρ.mark (ρ.new ++ ρ.back.map Prod.snd) := .front List.nil_suffix

end Respelling

namespace Grammar

open Respelling

variable {ρ : Respelling} {s : Kind × List Kind} {i : Nat} {w v v' : List Token} {b c : Builder}

/-- Away from the mark a relation is spelled alike in both texts. -/
theorem respell_elsewhere {t : Token} {d : Builder} {es : List Element} (ht : t.kind = s.1) (hk : s.1 ≠ .eof)
    (hw : t :: w <:+ ρ.source) (hne : t :: w ≠ ρ.mark) {q : Relation}
    (h : ρ.Remakes (.element (.seq es)) w v' fun b' c' => d.Likens b' → d.Grows b' c c')
    (hd : d = (b.pushToken t).label "relation" false b.size true (some q)) :
    ρ.Remakes (.element (.seq (field "relation" (.relation s.1 q) :: es))) (t :: w) v' fun b' c' =>
      b.Likens b' → c.Likens c' := by
  obtain ⟨w', hplace, h⟩ := h
  obtain ⟨t', hface, hplace⟩ := (hplace.step hw).resolve_left hne
  refine ⟨_, hplace, fun b' => ?_⟩
  obtain ⟨c', h, hgrows⟩ := h ((b'.pushToken t').label "relation" false b'.size true (some q))
  refine ⟨c', .cons (.labeled (.relation ((congrArg Prod.fst hface).trans ht) hk trivial)) h, fun hlikens => ?_⟩
  have hlabel := (hlikens.pushToken hface).label "relation" false true (some q)
  rw [← hd] at hlabel
  exact (hgrows hlabel.likens).likens

/-- At the mark the one text has the old spelling and the other one has the new one. -/
theorem Makes.respell_mark {q : Relation} {t : Token} {d : Builder} {es : List Element}
    (hs : s ∈ q.spellings) (ht : t.kind = s.1) (hw : t :: w = ρ.mark) (hq : q = ρ.relation)
    (h : kerml.Makes ρ.manner (ρ.Calls 0) (.seq (s.2.map tok ++ es)) w d v c)
    (hd : d = (b.pushToken t).label "relation" false b.size true (some q))
    (hes : ∀ u d, kerml.Makes ρ.manner (ρ.Calls 0) (.seq es) u d v c →
      ρ.Remakes (.element (.seq es)) u v' fun d' c' => d.Likens d' → d.Grows d' c c') :
    ∃ s' ∈ q.spellings, ρ.Remakes
      (.element (.seq (field "relation" (.relation s'.1 q) :: (s'.2.map tok ++ es)))) (t :: w) v'
      fun b' c' => b.Likens b' → c.Likens c' := by
  subst hq hd
  -- the old spelling is the one that is read
  obtain ⟨s0, hs0, hold⟩ := ρ.spelled
  obtain ⟨o, old, ho, hkind, hkinds⟩ := exists_cons_of_kinds hold
  rw [mark, ho, List.cons_append, List.cons_eq_cons] at hw
  obtain ⟨rfl, rfl⟩ := hw
  obtain rfl := Relation.spelling_eq hs0 hs (hkind.symm.trans ht)
  obtain ⟨u, d, hwords, h⟩ := h.of_append
  obtain ⟨ts, hts, hkinds', rfl⟩ := hwords.words fun he => Relation.not_eof_mem_spelling hs (.tail _ he)
  obtain ⟨rfl, rfl⟩ := List.append_inj hts (by
    simpa [kinds] using congrArg List.length (hkinds.trans hkinds'.symm))
  -- the new one stands in its place
  obtain ⟨u', hplace, h⟩ := hes _ _ h
  obtain rfl := hplace.of_back
  obtain ⟨⟨k, ks⟩, hs', hnew⟩ := ρ.respelled
  obtain ⟨t', new, hn, rfl, rfl⟩ := exists_cons_of_kinds hnew
  have heof := Relation.not_eof_mem_spelling hs'
  simp only [List.mem_cons, not_or] at heof
  have hmark : ρ.Place (t :: (old ++ ρ.back.map Prod.fst)) (t' :: (new ++ ρ.back.map Prod.snd)) := by
    have h := ρ.place_mark
    rwa [mark, ho, hn] at h
  refine ⟨_, hs', _, hmark, fun b' => ?_⟩
  obtain ⟨c', h, hgrows⟩ :=
    h (((b'.pushToken t').label "relation" false b'.size true (some ρ.relation)).pushTokens new)
  refine ⟨c', .cons (.labeled (.relation rfl (Ne.symm heof.1) trivial))
    ((forms_words new _ _ heof.2).append h), fun hlikens => ?_⟩
  obtain ⟨hrelation, hfields⟩ := hlikens.relation t t' "relation" ρ.relation
  exact (hgrows (hrelation.pushTokens hfields old new)).likens

/-- A rule that spells a relation is read again with the spelling that the other text has. -/
theorem Makes.respell_wording (hp : r.wording? = some p) (hs : s ∈ p.relation.spellings)
    (h : kerml.Makes ρ.manner (ρ.Calls 0) (.seq (p.row s)) w b v c) (hv : ρ.Place v v')
    (hb : Behind (kerml.follow r) (kinds v')) (ha : Agrees r.tail? v v') :
    ρ.Remakes (.body r) w v' fun b' c' => b.Likens b' → c.Likens c' := by
  obtain ⟨hrows, hchoices⟩ := settled_of_wording hp
  obtain ⟨hfront, hback⟩ := isPlain_of_wording hp
  have hm : ∀ s ∈ p.relation.spellings, ⟨p.row s, false⟩ ∈ kerml.alternatives r := fun s hs => by
    rw [alternatives_of_wording hp]
    exact List.mem_map_of_mem hs
  have hrow : ∀ s ∈ p.relation.spellings,
      kerml.rowSettled (kerml.follow r) r.tail? (p.row s) [] = true := fun s hs => by
    simp only [rowsSettled, List.all_eq_true, Bool.or_eq_true] at hrows
    simpa using hrows _ (hm s hs)
  have hrest : kerml.rowSettled (kerml.follow r) r.tail? (s.2.map tok ++ p.back) [] = true := by
    have h : kerml.rowSettled (kerml.follow r) r.tail? (p.front ++ _ :: (s.2.map tok ++ p.back)) [] = true :=
      hrow s hs
    rw [List.append_cons] at h
    exact rowSettled_append h
  obtain ⟨w1, b1, h1, h⟩ := h.of_append
  cases h with | cons h2 h3 =>
  cases h2 with | labeled h2 =>
  cases h2 with | relation ht hk htake =>
  rename_i w2 t
  -- from the relation on
  have hspelled : ∃ s' ∈ p.relation.spellings, ρ.Remakes
      (.element (.seq (field "relation" (.relation s'.1 p.relation) :: (s'.2.map tok ++ p.back)))) (t :: w2) v'
      fun b' c' => b1.Likens b' → c.Likens c' := by
    by_cases hmark : t :: w2 = ρ.mark
    · refine h3.respell_mark hs ht hmark (Option.some.inj (htake.2 hmark)) rfl fun u d h => ?_
      exact h.respell (by simpa [Element.all, Element.isPlain] using hback) (rowSettled_append hrest) hv (.nil hb)
        fun _ => ha
    · refine ⟨s, hs, respell_elsewhere ht hk htake.1 hmark (h3.respell ?_ hrest hv (.nil hb) fun _ => ha) rfl⟩
      simpa [Element.all, Element.isPlain] using isPlain_words s.2 hback
  obtain ⟨s', hs', u', hu, h⟩ := hspelled
  obtain ⟨_, hform, -⟩ := h b
  obtain ⟨w', hw, h1⟩ := h1.respell_front hfront (hrow s' hs') (by simp) hu hform.spans (.nil hb)
  obtain ⟨i, hi⟩ := List.mem_iff_getElem?.1 (hm s' hs')
  refine ⟨w', hw, fun b' => ?_⟩
  obtain ⟨d', h1, hgrows⟩ := h1 b'
  obtain ⟨c', h, hlikens⟩ := h d'
  have hrow' : kerml.Forms .free (.element (.seq (p.row s'))) w' b' v' c' := h1.append h
  exact ⟨c', .chosen hi rfl (hrow'.foremost hchoices hi rfl hb) trivial hrow',
    fun hb => hlikens (hgrows hb).likens⟩

end Grammar

end KermlText
