import KermlText.Proofs.LeastSets
import KermlText.Proofs.Remade

/-! Synonyms. A relation may be spelled in more than one way, and a text that is accepted with one spelling is
accepted with another one, for a tree of the same shape. Arrows are the exception: what may be the body of a
bare arrow in one of the two texts may not be one in the other, so no bare arrow stands in front of a brace. -/

namespace KermlText

open Grammar Rules

/-- What is taken for the node of a whole text. -/
theorem Builder.finish_unwrapped (b : Builder) : b.unwrapped.finish = b.single?.getD b.finish := by
  unfold unwrapped
  rcases b.single? with _ | n
  · rfl
  · exact finish_reopen n

theorem Parse.ok_eq_true {p : Parse} : p.ok = true ↔ p.errors = [] := by
  rw [ok, List.isEmpty_iff]

theorem stretch_ofTokens (ts : List Token) : (Stream.ofTokens ts).stretch 0 (Stream.ofTokens ts).size = ts :=
  (Stream.ofTokens ts).stretch_all

theorem rest_ofTokens (ts : List Token) :
    (Stream.ofTokens ts).rest 0 = ts.filter fun t => t.channel = .default := by
  rw [Stream.rest, stretch_ofTokens]

namespace Respelling

variable {ρ : Respelling} {b : Builder} {n : Node} {t : Token} {vs : List Token}

/-- Where a tree says that the spelling spells its relation, what it tells of the text agrees with the
respelling. -/
theorem told_of_points (h : n.Points ρ.relation (ρ.front.map Prod.fst) t vs) : ρ.Told n.spelled ρ.source := by
  intro i hi m hm
  have hlength := congrArg List.length hi
  have hmark := ρ.length_mark
  obtain rfl : i = (ρ.front.map Prod.fst).length := by
    simp only [source, mark, List.length_drop, List.length_append, List.length_map] at hlength hmark ⊢
    omega
  rw [h.spelled] at hm
  exact (Option.some.inj hm).symm

/-- The form of a text takes the spelling for what it spells. -/
theorem forms_manner (hd : ∀ t ∈ ρ.source, t.channel = .default)
    (h : kerml.Forms .free (.call .rootNamespace 0) ρ.source (.start .rootNamespace) [] b)
    (hp : b.unwrapped.finish.Points ρ.relation (ρ.front.map Prod.fst) t vs)
    (ha : b.unwrapped.finish.ClosesArrows []) :
    kerml.Forms ρ.manner (.call .rootNamespace 0) ρ.source (.start .rootNamespace) [] b := by
  rw [Builder.finish_unwrapped] at hp ha
  obtain ⟨cs, hadds, hform⟩ := tells_of_forms hd h (by decide)
  obtain rfl : b.children = cs := hadds.children
  refine hform (Builder.pointed_start _) List.suffix_rfl ?_ (Builder.closesArrows_operand ha).2
  have htold := told_of_points hp
  rwa [b.spelled_operand.2] at htold

/-- The other text has a form as well, and the same is made of it. -/
theorem forms_target
    (h : kerml.Forms ρ.manner (.call .rootNamespace 0) ρ.source (.start .rootNamespace) [] b) :
    ∃ b', kerml.Forms .free (.call .rootNamespace 0) ρ.target (.start .rootNamespace) [] b' ∧
      b'.unwrapped.finish.shape = b.unwrapped.finish.shape := by
  have hend : Behind (kerml.follow .rootNamespace) [] :=
    ⟨(contains_follow Rules.all [operatorTable, suffixTable]).2 (.inl rfl), by simp⟩
  obtain ⟨w', hw, h⟩ := remakes_of_forms h [] (.back List.nil_suffix) hend (agrees_none _ _)
  obtain rfl := hw.of_source
  obtain ⟨b', hform, hgrows⟩ := h (.start .rootNamespace)
  refine ⟨b', hform, ?_⟩
  rw [Builder.finish_unwrapped, Builder.finish_unwrapped]
  exact (hgrows (Builder.likens_start _)).likens.operand

/-- The other spelling has proper tokens. -/
theorem kind_ne_error_of_target (h : ∀ t ∈ ρ.source, t.kind ≠ .error) : ∀ t ∈ ρ.target, t.kind ≠ .error := by
  have hsame : ∀ z, z ∈ ρ.front ∨ z ∈ ρ.back → z.2.kind ≠ .error := fun z hz => by
    rw [show z.2.kind = z.1.kind from congrArg Prod.fst (face_of_mem hz)]
    refine h z.1 ?_
    simp only [source, List.mem_append, List.mem_map]
    exact hz.imp (fun hz => ⟨z, hz, rfl⟩) fun hz => .inr ⟨z, hz, rfl⟩
  intro t ht
  simp only [target, List.mem_append, List.mem_map] at ht
  rcases ht with ⟨z, hz, rfl⟩ | ht | ⟨z, hz, rfl⟩
  · exact hsame z (.inl hz)
  · obtain ⟨s, hs, hk⟩ := ρ.respelled
    have hmem : t.kind ∈ s.1 :: s.2 := hk ▸ List.mem_map_of_mem ht
    have hall : ∀ r ∈ Relation.all, ∀ s ∈ r.spellings, .error ∉ s.1 :: s.2 := by decide
    exact fun he => hall _ (by cases ρ.relation <;> decide) s hs (he ▸ hmem)
  · exact hsame z (.inr hz)

end Respelling

/-! ### Parses of forms -/

/-- No optional element of the grammar may be there without taking a token. -/
theorem optionTakes_kerml {r : Rule} {a : Alternative} (ha : a ∈ kerml.alternatives r) :
    rowAll (Element.optionTakes kerml.solid) a.elements = true := by
  have h : (Rule.all.all fun r => (kerml.alternatives r).all fun a =>
      rowAll (Element.optionTakes kerml.solid) a.elements) = true := by decide +kernel
  simp only [List.all_eq_true] at h
  exact h r (Rule.mem_all r) a ha

section

variable {r : Rule} {ts : List Token} {settings : Settings} {p : Parse} (hm : settings.maxErrors ≠ some 0)
  (hp : (parseTokens r ts settings).1 = .ok p)
include hm hp

/-- The tree of a text that is accepted is read off the text, and leaves out none of its tokens but comments. -/
theorem derives_of_parseTokens (hok : p.ok = true) :
    kerml.Derives (.rule r) p.root.tokens ∧ p.root.tokens.Sublist ts ∧
      (p.root.tokens.filter fun t => t.channel = .default) = ts.filter (fun t => t.channel = .default) ∧
      ∀ m ∈ p.root.descendants, kerml.Accounts m := by
  obtain ⟨hr, he⟩ := rooted_last hp
  have hnil := he.symm.trans (Parse.ok_eq_true.1 hok)
  obtain ⟨hderives, hkept, haccounts⟩ := hr.reads (regular_ofTokens ts settings) readable_kerml hm hnil
  have hall := stretch_ofTokens ts
  exact ⟨hderives, hall ▸ hkept.sublist, hall ▸ hkept.default, haccounts⟩

/-- A text that is read greedily to its end is accepted and has a form, and its tree is made of that. -/
theorem forms_of_greedy (hc : ∀ t ∈ ts, t.channel ≠ .comment)
    (hproper : ∀ t ∈ ts.filter (fun t => t.channel = .default), t.kind ≠ .error)
    (hl : ts.length ≤ settings.lookahead) (hu : Setup.Unhindered ((Setup.ofTokens ts settings).last r))
    (hg : kerml.Greedy (.element (.rule r)) (kindsOf ts) []) :
    p.ok = true ∧ ∃ b, p.root = b.unwrapped.finish ∧
      kerml.Forms .free (.call r 0) (ts.filter fun t => t.channel = .default) (.start r) [] b := by
  obtain ⟨hr, he⟩ := rooted_last hp
  have hopen : (Setup.ofTokens ts settings).Open := open_ofTokens hc
    (fun t ht hd => hproper t (List.mem_filter.2 ⟨ht, by simpa using hd⟩)) hm
  rw [← Stream.ahead_ofTokens] at hg
  obtain ⟨hnil, b, hb, hform⟩ := hr.forms hopen hl hu hg
  rw [show (Setup.ofTokens ts settings).stream.rest 0 = _ from rest_ofTokens ts] at hform
  exact ⟨Parse.ok_eq_true.2 (he.trans hnil), b, hb, hform⟩

end

section

variable {ts : List Token} {settings : Settings} (hc : ∀ t ∈ ts, t.channel ≠ .comment)
  (hm : settings.maxErrors ≠ some 0) (hl : ts.length ≤ settings.lookahead)
  (hu : Setup.Unhindered ((Setup.ofTokens ts settings).last .rootNamespace))
include hc hm hl hu

/-- A text that is accepted has a form, and its tree is made of that. -/
theorem forms_of_parseTokens {p : Parse} (hp : (parseTokens .rootNamespace ts settings).1 = .ok p)
    (hok : p.ok = true) (ha : p.root.ClosesArrows []) :
    (∀ t ∈ ts.filter (fun t => t.channel = .default), t.kind ≠ .error) ∧
      ∃ b, p.root = b.unwrapped.finish ∧ kerml.Forms .free (.call .rootNamespace 0)
        (ts.filter fun t => t.channel = .default) (.start .rootNamespace) [] b := by
  obtain ⟨hr, he⟩ := rooted_last hp
  have hnil := he.symm.trans (Parse.ok_eq_true.1 hok)
  obtain ⟨-, hsublist, hsame, -⟩ := derives_of_parseTokens hm hp hok
  have hmembers := members_of_derives (hr.closes rfl (regular_ofTokens ts settings) hm hnil ha)
  have hproper : ∀ t ∈ ts.filter (fun t => t.channel = .default), t.kind ≠ .error := by
    intro t ht
    rw [← hsame, List.mem_filter] at ht
    exact kind_ne_error_of_derives hmembers.derives (by decide) t ht.1 (by simpa using ht.2)
  have hgreedy := greedy_of_members hmembers fun t ht => hc t (hsublist.subset ht)
  rw [show kindsOf p.root.tokens = kindsOf ts from congrArg (List.map Token.kind) hsame] at hgreedy
  exact ⟨hproper, (forms_of_greedy hm hp hc hproper hl hu hgreedy).2⟩

/-- A text that has a form is accepted, and its tree is made of that. -/
theorem parseTokens_of_forms (hcancel : settings.cancel = none)
    (hproper : ∀ t ∈ ts.filter (fun t => t.channel = .default), t.kind ≠ .error) {b : Builder}
    (h : kerml.Forms .free (.call .rootNamespace 0) (ts.filter fun t => t.channel = .default)
      (.start .rootNamespace) [] b) :
    ∃ p, (parseTokens .rootNamespace ts settings).1 = .ok p ∧ p.ok = true ∧ p.root = b.unwrapped.finish := by
  obtain ⟨p, hp⟩ := parseTokens_answers .rootNamespace ts hcancel
  have hgreedy := (h.greedy fun _ _ _ _ _ => table?_node_kerml).1 [] (.plain rfl)
  obtain ⟨hok, b', hb, hform⟩ := forms_of_greedy hm hp hc hproper hl hu hgreedy
  obtain ⟨-, rfl⟩ := h.unique founded_kerml (fun _ _ _ _ _ => table?_node_kerml) (fun _ _ => optionTakes_kerml)
    hform trivial
  exact ⟨p, hp, hok, hb⟩

end

/-- Two texts that differ in the spelling of one relation are accepted together, with trees of one shape. The
relation is one that the tree of the first records, and no bare arrow of this tree stands in front of a
brace. -/
theorem parseTokens_respelled (ρ : Respelling) {ts ts' : List Token} {settings : Settings} {p : Parse}
    {t : Token} {vs : List Token}
    (hs : ts.filter (fun t => t.channel = .default) = ρ.source)
    (ht : ts'.filter (fun t => t.channel = .default) = ρ.target)
    (hc : ∀ t ∈ ts ++ ts', t.channel ≠ .comment)
    (hm : settings.maxErrors ≠ some 0) (hcancel : settings.cancel = none)
    (hl : ts.length ≤ settings.lookahead) (hl' : ts'.length ≤ settings.lookahead)
    (hu : Setup.Unhindered ((Setup.ofTokens ts settings).last .rootNamespace))
    (hu' : Setup.Unhindered ((Setup.ofTokens ts' settings).last .rootNamespace))
    (hp : (parseTokens .rootNamespace ts settings).1 = .ok p) (hok : p.ok = true)
    (hr : p.root.Points ρ.relation (ρ.front.map Prod.fst) t vs) (ha : p.root.ClosesArrows []) :
    ∃ p', (parseTokens .rootNamespace ts' settings).1 = .ok p' ∧ p'.ok = true ∧
      p'.root.shape = p.root.shape := by
  obtain ⟨hproper, b, hb, hform⟩ := forms_of_parseTokens (fun t ht => hc t (List.mem_append_left _ ht)) hm hl hu
    hp hok ha
  rw [hs] at hproper hform
  rw [hb] at hr ha
  have hd : ∀ t ∈ ρ.source, t.channel = .default := by
    intro t ht
    rw [← hs, List.mem_filter] at ht
    simpa using ht.2
  obtain ⟨b', htarget, hshape⟩ := Respelling.forms_target (Respelling.forms_manner hd hform hr ha)
  rw [← ht] at htarget
  obtain ⟨p', hp', hok', hroot⟩ := parseTokens_of_forms (fun t ht => hc t (List.mem_append_right _ ht)) hm hl' hu'
    hcancel (ht ▸ Respelling.kind_ne_error_of_target hproper) htarget
  exact ⟨p', hp', hok', by rw [hroot, hb, hshape]⟩

/-- A feature that is typed by a sign or by words. -/
def typedFeature : Respelling where
  relation := .typing
  front := [(.make .kwFeature "feature" 0 ⟨0, 0⟩, .make .kwFeature "feature" 0 ⟨0, 0⟩),
    (.make .ident "f" 8 ⟨0, 8⟩, .make .ident "f" 8 ⟨0, 8⟩)]
  old := [.make .colon ":" 10 ⟨0, 10⟩]
  new := [.make .kwTyped "typed" 10 ⟨0, 10⟩, .make .kwBy "by" 16 ⟨0, 16⟩]
  back := [(.make .ident "T" 12 ⟨0, 12⟩, .make .ident "T" 19 ⟨0, 19⟩),
    (.make .semicolon ";" 13 ⟨0, 13⟩, .make .semicolon ";" 20 ⟨0, 20⟩)]
  same := by decide
  spelled := ⟨(.colon, []), by decide, rfl⟩
  respelled := ⟨(.kwTyped, [.kwBy]), by decide, rfl⟩

theorem checked_typedFeature :
    ((scan "feature f : T;").filter fun t => t.channel = .default) = typedFeature.source ∧
      ((scan "feature f typed by T;").filter fun t => t.channel = .default) = typedFeature.target ∧
      (∀ t ∈ scan "feature f : T;" ++ scan "feature f typed by T;", t.channel ≠ .comment) ∧
      ((Setup.ofTokens (scan "feature f : T;") .standard).last .rootNamespace).resolver.cut = false ∧
      ((Setup.ofTokens (scan "feature f typed by T;") .standard).last .rootNamespace).resolver.cut = false ∧
      ((Setup.ofTokens (scan "feature f : T;") .standard).last .rootNamespace).errors = [] ∧
      ((Setup.ofTokens (scan "feature f typed by T;") .standard).last .rootNamespace).errors = [] ∧
      (parseTokens .rootNamespace (scan "feature f : T;") .standard).1.toOption.any (fun p =>
        p.root.tokens == typedFeature.source && p.root.spelled[2]? == some (some .typing) &&
          p.root.descendants.all fun m => !m.isBareArrow) = true := by
  decide +kernel

/-- Both texts are accepted, and the words make the tree that the sign makes. -/
theorem parseTokens_respelled_typed :
    ∃ p p', (parseTokens .rootNamespace (scan "feature f : T;") .standard).1 = .ok p ∧ p.ok = true ∧
      (∃ t vs, p.root.Points .typing (typedFeature.front.map Prod.fst) t vs) ∧ p.root.ClosesArrows [] ∧
      (parseTokens .rootNamespace (scan "feature f typed by T;") .standard).1 = .ok p' ∧ p'.ok = true ∧
      p'.root.shape = p.root.shape := by
  obtain ⟨hs, ht, hc, hcut, hcut', hnil, hnil', h⟩ := checked_typedFeature
  obtain ⟨p, hp⟩ := parseTokens_answers .rootNamespace (scan "feature f : T;")
    (rfl : Settings.standard.cancel = none)
  have hok : p.ok = true := Parse.ok_eq_true.2 ((rooted_last hp).2.trans hnil)
  rw [hp] at h
  simp only [Except.toOption, Option.any_some, Bool.and_eq_true, beq_iff_eq, List.all_eq_true,
    Bool.not_eq_true'] at h
  obtain ⟨⟨htokens, hspelled⟩, hbare⟩ := h
  obtain ⟨us, t, vs, hlen, hr⟩ := Node.exists_points_of_spelled p.root 2 hspelled
  obtain ⟨rfl, -⟩ := List.append_inj (hr.tokens.symm.trans htokens) hlen
  have ha := Node.closesArrows_of_not_bare [] p.root hbare
  obtain ⟨p', hp', hok', hshape⟩ := parseTokens_respelled typedFeature hs ht hc (by decide) rfl
    (by decide +kernel) (by decide +kernel) ⟨hcut, by simp [hnil]⟩ ⟨hcut', by simp [hnil']⟩ hp hok hr ha
  exact ⟨p, p', hp, hok, ⟨t, vs, hr⟩, ha, hp', hok', hshape⟩

/-- A function whose one member annotates it by a feature that has a bare arrow in front of a brace. -/
def annotatedFunction (spelling : String) : List Token :=
  scan ("function F \x7b " ++ spelling ++ " T \x7b x = a->f \x7b\x7d \x7d \x7d")

theorem checked_annotatedFunction :
    (parseTokens .rootNamespace (annotatedFunction "metadata") .standard).1.toOption.any
        (fun p => p.ok && p.root.spelled[3]? == some (some .annotates)) = true ∧
      (parseTokens .rootNamespace (annotatedFunction "@") .standard).1.toOption.any (fun p => !p.ok) = true ∧
      ∀ spelling ∈ ["metadata", "@"],
        (annotatedFunction spelling).length < Settings.standard.lookahead ∧
          ((Setup.ofTokens (annotatedFunction spelling) .standard).last .rootNamespace).resolver.cut = false ∧
          ∀ e ∈ ((Setup.ofTokens (annotatedFunction spelling) .standard).last .rootNamespace).errors,
            e.code ≠ .nestingTooDeep := by
  decide +kernel

/-- The word can only start an annotation, so nothing is tried there. The sign might start the result of the
function as well, and in a trial the arrow takes the body of the feature, so that the annotation cannot be read
to its end and the sign is taken for the result. Both texts are within all limits. -/
theorem parseTokens_not_respelled :
    (∀ spelling ∈ ["metadata", "@"], (annotatedFunction spelling).length < Settings.standard.lookahead ∧
        Setup.Unhindered ((Setup.ofTokens (annotatedFunction spelling) .standard).last .rootNamespace)) ∧
      ∃ p p', (parseTokens .rootNamespace (annotatedFunction "metadata") .standard).1 = .ok p ∧ p.ok = true ∧
        (∃ us t vs, us.length = 3 ∧ p.root.Points .annotates us t vs) ∧
        (parseTokens .rootNamespace (annotatedFunction "@") .standard).1 = .ok p' ∧ p'.ok = false := by
  obtain ⟨p, hp⟩ := parseTokens_answers .rootNamespace (annotatedFunction "metadata")
    (rfl : Settings.standard.cancel = none)
  obtain ⟨p', hp'⟩ := parseTokens_answers .rootNamespace (annotatedFunction "@")
    (rfl : Settings.standard.cancel = none)
  obtain ⟨h, h', hlimits⟩ := checked_annotatedFunction
  rw [hp] at h
  rw [hp'] at h'
  simp only [Except.toOption, Option.any_some, Bool.and_eq_true, beq_iff_eq, Bool.not_eq_true'] at h h'
  obtain ⟨hok, hspelled⟩ := h
  refine ⟨fun spelling hs => ?_, p, p', hp, hok, Node.exists_points_of_spelled p.root 3 hspelled, hp', h'⟩
  obtain ⟨hl, hcut, hdepth⟩ := hlimits spelling hs
  exact ⟨hl, hcut, hdepth⟩

end KermlText
