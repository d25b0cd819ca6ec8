import KermlText.Proofs.Settled
import KermlText.Proofs.Smooth

/-! Parses of well-formed texts. A text that can be derived has a greedy reading, and a parse follows it.
Two things are in the way. An arrow with neither arguments nor a body, in front of a brace, is read with
the brace as its body. And a text so deep that a trial is cut may be taken for another. -/

namespace KermlText

open Grammar Rules Rules.Phrase

/-- The alternatives that stand for operators are those of the table. -/
theorem tierRows_of_leftRecursive {r : Rule} {a : Alternative} (ha : a ∈ kerml.alternatives r)
    (hl : a.leftRecursive = true) :
    ∃ t tier, kerml.table? r = some t ∧ tier ∈ t.tiers ∧ a.elements ∈ t.tierRows tier := by
  have hone : ∀ t ∈ [operatorTable, suffixTable], ∀ t' ∈ [operatorTable, suffixTable],
      t.rule = t'.rule → t = t' := by
    intro t ht t' ht' h
    simp only [List.mem_cons, List.not_mem_nil, or_false] at ht ht'
    rcases ht with rfl | rfl <;> rcases ht' with rfl | rfl <;> first | rfl | cases h
  obtain ⟨t, ht, -, hmem⟩ := leftRecursive_build (by decide +kernel) hone ha hl
  obtain ⟨tier, htier, hrow⟩ := Table.mem_tiers_of_mem_alternatives hmem
  exact ⟨t, tier, ht, htier, hrow⟩

/-! ### From derivations to greedy readings -/

/-- An arrow is bare where it has neither arguments nor a body. It is not meant to be bare in front of a
brace. -/
def closesArrows (r : Rule) (i : Nat) (rest : List Token) : Prop :=
  r = .arrowInvocationExpression → i = 2 → nextKind (kindsOf rest) ≠ .lBrace

theorem kindsOf_singleton {t : Token} (h : t.channel = .default) (ts : List Token) :
    kindsOf [t] ++ kindsOf ts = t.kind :: kindsOf ts := by
  simp [kindsOf, h]

/-- A rule that is spelled out by texts that can be read again can be read again. -/
theorem rereads_of_spells {r : Rule} {i : Nat} {a : Alternative} {w v : List Kind}
    (hr : r ≠ .rootNamespace) (ha : (kerml.alternatives r)[i]? = some a)
    (hbrace : r = .arrowInvocationExpression → i = 2 → nextKind v ≠ .lBrace)
    (h : Spells kerml.Rereads (.seq a.elements) w v) : kerml.Rereads r w v := by
  have hm := List.mem_of_getElem? ha
  rcases hl : a.leftRecursive with _ | _
  · have hs := spans_operand hm hl (h.spans fun _ _ _ h => h.1)
    refine rereads_of_operand (fun t ht => coherent_kerml ht) hs fun hb ps z hy hz => ?_
    by_cases htail : r = .featureTail
    · subst htail
      exact FeatureTail.operand checked_kerml.2.1 ha h hb hz
    by_cases harrow : r = .arrowInvocationExpression
    · subst harrow
      exact Arrow.operand checked_kerml.2.2.1 ha (hbrace rfl) h hb hy hz
    exact h.operand closed_kerml (rowsSettled_kerml hr htail) ha hl
      (h.foremost closed_kerml (choicesSettled_kerml hr harrow) ha hl hb) hb hy hz
  · obtain ⟨t, tier, ht, htier, hrow⟩ := tierRows_of_leftRecursive hm hl
    exact h.leftRecursive (coherent_kerml ht) ht htier hrow

/-- What is derived without comments is spelled out by texts that can be read again. -/
theorem spells_of_derives {e : Element} {ts rest : List Token}
    (h : kerml.DerivesBefore closesArrows e ts rest) (he : e.all Element.isInner = true)
    (hc : ∀ t ∈ ts, t.channel ≠ .comment) :
    Spells kerml.Rereads e (kindsOf ts ++ kindsOf rest) (kindsOf rest) := by
  induction h with
  | eof => simp [Element.all, Element.isInner] at he
  | token h hk => rw [kindsOf_singleton h]; exact .token hk
  | relation h hk => rw [kindsOf_singleton h]; exact .relation hk
  | oneOf h hk => rw [kindsOf_singleton h]; exact .oneOf hk
  | comment h => exact absurd h (hc _ (by simp))
  | @rule r _ _ _ _ ha hr _ ih =>
    have hne : r ≠ .rootNamespace := by simpa [Element.all, Element.isInner] using he
    have hinner := rowAll_isInner hne (List.mem_of_getElem? ha)
    exact .rule (rereads_of_spells hne ha hr (ih (by simpa [Element.all, Element.isInner] using hinner) hc))
  | ruleAt _ ih =>
    have hs := ih (by simpa [Element.all, Element.isInner] using he) hc
    cases hs with
    | rule h => exact .ruleAt h
  | absent => exact .absent
  | present _ ih => exact .present (ih (by simpa [Element.all, Element.isInner] using he) hc)
  | nil => exact .nil
  | cons _ _ ih1 ih2 =>
    simp only [Element.all, Element.isInner, rowAll, Bool.true_and, Bool.and_eq_true] at he ih1 ih2
    have h1 := ih1 he.1 fun t ht => hc t (List.mem_append_left _ ht)
    rw [kindsOf_append] at h1 ⊢
    rw [List.append_assoc]
    exact .cons h1 (ih2 he.2 fun t ht => hc t (List.mem_append_right _ ht))
  | none => exact .none
  | again _ _ ih1 ih2 =>
    have h1 := ih1 (by simp_all [Element.all, Element.isInner]) fun t ht => hc t (List.mem_append_left _ ht)
    rw [kindsOf_append] at h1 ⊢
    rw [List.append_assoc]
    exact .again h1 (ih2 (by simpa [Element.all, Element.isInner] using he)
      fun t ht => hc t (List.mem_append_right _ ht))
  | labeled _ ih => exact .labeled (ih (by simpa [Element.all, Element.isInner] using he) hc)

/-- A text is a list of members. -/
theorem members_of_derives {ts : List Token}
    (h : kerml.DerivesBefore closesArrows (.rule .rootNamespace) ts []) :
    kerml.DerivesBefore closesArrows textMembers ts [] := by
  cases h with | rule ha _ h =>
  rw [alternatives_rootNamespace, List.getElem?_singleton] at ha
  split at ha
  · cases ha
    cases h with | cons hmembers h => cases h with | cons hend h => cases h with | nil =>
    generalize he : tok .eof = e at hend
    cases hend with
    | eof => simpa using hmembers
    | token _ hk => exact absurd (Element.token.inj he).symm hk
    | _ => cases he
  · cases ha

/-- Behind the members of a text stands its end. -/
theorem behind_members : kerml.Matches (Behind (.single .eof)) [rowPattern [tok .eof]] [] :=
  .both (.finish (.empty (.nil ⟨by simp, by simp⟩)))

/-- A text that can be derived has a greedy reading. -/
theorem greedy_of_members {ts : List Token} (h : kerml.DerivesBefore closesArrows textMembers ts [])
    (hc : ∀ t ∈ ts, t.channel ≠ .comment) :
    kerml.Greedy (.element (.rule .rootNamespace)) (kindsOf ts) [] := by
  have hs : Spells kerml.Rereads textMembers (kindsOf ts) [] := by
    simpa [kindsOf] using spells_of_derives h (by decide) hc
  have hend : kerml.GreedyAll [.element (.seq [tok .eof])] [] [] := ⟨[], .cons .eof .nil, rfl⟩
  obtain ⟨u, hu, v, hv, rfl⟩ :=
    hs.greedy closed_kerml checked_kerml.2.2.2.2.2 behind_members (fun h => by cases h) hend
  refine .rule (.operand (i := 0) rfl rfl (fun j hj => absurd hj (Nat.not_lt_zero j)) (.cons hu hv)) ?_
  exact .plain rfl

/-- No token of a text is a bad one. -/
theorem kind_ne_error_of_derives {e : Element} {ts : List Token} (h : kerml.Derives e ts)
    (he : e.all Element.isInner = true) : ∀ t ∈ ts, t.channel = .default → t.kind ≠ .error := by
  induction h with
  | eof | absent | nil | none => simp
  | token _ _ | relation _ _ => simp_all [Element.all, Element.isInner]
  | @oneOf ks t h hk =>
    intro t' ht' _ hkind
    obtain rfl : t' = t := by simpa using ht'
    simp [Element.all, Element.isInner, ← hkind, hk] at he
  | comment h => simp [h]
  | @rule r _ _ ha _ ih =>
    have hne : r ≠ .rootNamespace := by simpa [Element.all, Element.isInner] using he
    exact ih (by simpa [Element.all, Element.isInner] using rowAll_isInner hne ha)
  | ruleAt _ ih | present _ ih | labeled _ ih =>
    exact ih (by simpa [Element.all, Element.isInner] using he)
  | cons _ _ ih1 ih2 =>
    simp only [Element.all, Element.isInner, rowAll, Bool.true_and, Bool.and_eq_true] at he ih1 ih2
    exact fun t ht => (List.mem_append.1 ht).elim (ih1 he.1 t) (ih2 he.2 t)
  | again _ _ ih1 ih2 =>
    have hitem := ih1 (by simp_all [Element.all, Element.isInner])
    have hrest := ih2 (by simpa [Element.all, Element.isInner] using he)
    exact fun t ht => (List.mem_append.1 ht).elim (hitem t) (hrest t)

/-! ### The parse -/

namespace Setup

/-- A parse of a text that is read greedily to its end has no error, and its tree is the form of the
text. -/
theorem Rooted.forms {u : Setup} (hu : u.Open) {r : Rule} {n : Node} {x : Session}
    (h : u.Rooted r n x) (hl : u.stream.size ≤ u.settings.lookahead) (hend : Unhindered x)
    (hg : u.grammar.Greedy (.element (.rule r)) (u.stream.ahead 0) []) :
    x.errors = [] ∧ ∃ b, n = b.unwrapped.finish ∧
      u.grammar.Forms .free (.call r 0) (u.stream.rest 0) (.start r) [] b := by
  obtain ⟨y, b, c, hrun, he, rfl⟩ := h
  have hx : u.Steady (.start u.settings) := ⟨fit_start u, rfl, rfl, Resolver.sees_make hl _⟩
  have hy := (hrun.advances hu.regular hx.fit).fit
  obtain ⟨hsteady, ⟨hleft, hlevel⟩, hform⟩ := hrun.steady hu hx
    (hend.before ((Advances.refl hy).expectEnd he)) trivial hg (by simp [Task.scope, rootScope, endKinds])
  have hatEnd := Stream.atEnd_iff_ahead.2 (hleft.eq_of_level hlevel)
  rw [expectEnd_eq, if_pos hatEnd] at he
  cases he
  rw [Stream.rest_of_atEnd hatEnd] at hform
  exact ⟨hsteady.errors, b, rfl, hform⟩

theorem Rooted.steady {u : Setup} (hu : u.Open) {r : Rule} {n : Node} {x : Session}
    (h : u.Rooted r n x) (hl : u.stream.size ≤ u.settings.lookahead) (hend : Unhindered x)
    (hg : u.grammar.Greedy (.element (.rule r)) (u.stream.ahead 0) []) : x.errors = [] :=
  (h.forms hu hl hend hg).1

end Setup

/-- What stands behind an operator has no operators of its own. -/
theorem table?_node_kerml {r q : Rule} {t : Table} {k : Kind} {tier : Tier} (ht : kerml.table? r = some t)
    (hl : t.lookup k = some (tier, q)) (hf : tier.form ≠ .binary) : kerml.table? q = none := by
  obtain ⟨htier, ho⟩ := Table.mem_tiers_of_lookup hl
  have hall : ∀ t ∈ [operatorTable, suffixTable], ∀ tier ∈ t.tiers, tier.form ≠ .binary →
      ∀ o ∈ tier.operators, (kerml.table? o.2).isNone = true := by decide +kernel
  have hmem : t ∈ [operatorTable, suffixTable] := by
    rcases table_kerml ht with ⟨-, rfl⟩ | ⟨-, rfl⟩ <;> simp
  exact Option.isNone_iff_eq_none.1 (hall t hmem tier htier hf _ ho)

theorem open_ofTokens {ts : List Token} {settings : Settings} (hc : ∀ t ∈ ts, t.channel ≠ .comment)
    (hk : ∀ t ∈ ts, t.channel = .default → t.kind ≠ .error) (hm : settings.maxErrors ≠ some 0) :
    (Setup.ofTokens ts settings).Open where
  regular := regular_ofTokens ts settings
  closed := closed_kerml
  silent := hc
  clean := by
    intro i he
    have heof := Stream.kind_eof_ofTokens ts
    rw [Setup.ofTokens, Stream.kind_eq_nextKind heof] at he
    rcases hw : (Stream.ofTokens ts).ahead i with _ | ⟨k, w⟩
    · rw [hw] at he
      cases he
    · obtain ⟨t, ht, hd, hkind⟩ := Stream.mem_ahead (hw ▸ List.mem_cons_self : k ∈ (Stream.ofTokens ts).ahead i)
      rw [hw, nextKind_cons, ← hkind] at he
      exact hk t ht hd he
  nodes := fun _ _ _ _ _ => table?_node_kerml
  reports := hm

/-- Where no error may be reported none is. -/
theorem Setup.Rooted.mute {u : Setup} (hu : u.Regular) {r : Rule} {n : Node} {x : Session}
    (h : u.Rooted r n x) (hm : u.settings.maxErrors = some 0) : x.errors = [] := by
  obtain ⟨y, b, c, hrun, he, rfl⟩ := h
  have hy := hrun.advances hu (Setup.fit_start u)
  exact (hy.expectEnd he).mute hm

/-- The tokens count, and these are their kinds. -/
def Shows (ts : List Token) (ks : List Kind) : Prop :=
  (∀ t ∈ ts, t.channel = .default) ∧ ts.map (·.kind) = ks

namespace Shows

variable {ts us : List Token} {ks ls : List Kind}

theorem kindsOf (h : Shows ts ks) : kindsOf ts = ks := by
  rw [KermlText.kindsOf, List.filter_eq_self.2 (by simpa using h.1), h.2]

theorem append (h1 : Shows ts ks) (h2 : Shows us ls) : Shows (ts ++ us) (ks ++ ls) :=
  ⟨fun t ht => (List.mem_append.1 ht).elim (h1.1 t) (h2.1 t), by rw [List.map_append, h1.2, h2.2]⟩

theorem split (h : Shows ts (ks ++ ls)) : ∃ us vs, ts = us ++ vs ∧ Shows us ks ∧ Shows vs ls := by
  obtain ⟨us, vs, rfl, hk, hl⟩ := List.map_eq_append_iff.1 h.2
  exact ⟨us, vs, rfl, ⟨fun t ht => h.1 t (List.mem_append_left _ ht), hk⟩,
    fun t ht => h.1 t (List.mem_append_right _ ht), hl⟩

theorem eq_nil (h : Shows ts []) : ts = [] := List.map_eq_nil_iff.1 h.2

theorem eq_singleton {k : Kind} (h : Shows ts [k]) : ∃ t, ts = [t] ∧ t.kind = k ∧ t.channel = .default := by
  obtain ⟨t, rfl, hk⟩ := List.map_eq_singleton_iff.1 h.2
  exact ⟨t, rfl, hk, h.1 t (by simp)⟩

end Shows

/-- The kinds `w` can be read off the element so that `v` is left, and so can tokens of these kinds. -/
def Writes (allowed : Rule → Nat → List Token → Prop) (e : Element) (w v : List Kind) : Prop :=
  ∃ ks, w = ks ++ v ∧ ∀ ts rest, Shows ts ks → Shows rest v → kerml.DerivesBefore allowed e ts rest

namespace Writes

variable {allowed : Rule → Nat → List Token → Prop} {e : Element} {es : List Element} {w v u : List Kind}

theorem derives (h : Writes allowed e w []) {ts : List Token} (ht : Shows ts w) :
    kerml.DerivesBefore allowed e ts [] := by
  obtain ⟨ks, rfl, h⟩ := h
  exact h ts [] (by simpa using ht) ⟨by simp, rfl⟩

theorem token {k : Kind} (hk : k ≠ .eof) : Writes allowed (.token k) (k :: w) w := by
  refine ⟨[k], rfl, fun ts rest ht _ => ?_⟩
  obtain ⟨t, rfl, rfl, hc⟩ := ht.eq_singleton
  exact .token hc hk

theorem oneOf {s : KindSet} {k : Kind} (hk : s.contains k = true) : Writes allowed (.oneOf s) (k :: w) w := by
  refine ⟨[k], rfl, fun ts rest ht _ => ?_⟩
  obtain ⟨t, rfl, rfl, hc⟩ := ht.eq_singleton
  exact .oneOf hc hk

theorem eof : Writes allowed (.token .eof) w w := ⟨[], rfl, fun _ _ ht _ => ht.eq_nil ▸ .eof⟩

theorem absent : Writes allowed (.optional e) w w := ⟨[], rfl, fun _ _ ht _ => ht.eq_nil ▸ .absent⟩

theorem none {resync : Bool} : Writes allowed (.repeated e 0 resync) w w :=
  ⟨[], rfl, fun _ _ ht _ => ht.eq_nil ▸ .none⟩

theorem nil : Writes allowed (.seq []) w w := ⟨[], rfl, fun _ _ ht _ => ht.eq_nil ▸ .nil⟩

theorem imp {d : Element} (h : Writes allowed e w v)
    (hd : ∀ ts rest, Shows rest v → kerml.DerivesBefore allowed e ts rest →
      kerml.DerivesBefore allowed d ts rest) : Writes allowed d w v := by
  obtain ⟨ks, rfl, h⟩ := h
  exact ⟨ks, rfl, fun ts rest ht hs => hd ts rest hs (h ts rest ht hs)⟩

theorem rule {r : Rule} (i : Nat) {a : Alternative} (ha : (kerml.alternatives r)[i]? = some a)
    (hr : ∀ rest, Shows rest v → allowed r i rest) (h : Writes allowed (.seq a.elements) w v) :
    Writes allowed (.rule r) w v :=
  h.imp fun _ rest hs => .rule ha (hr rest hs)

theorem present (h : Writes allowed e w v) : Writes allowed (.optional e) w v :=
  h.imp fun _ _ _ => .present

theorem labeled {name : String} {many : Bool} (h : Writes allowed e w v) :
    Writes allowed (.labeled name many e) w v :=
  h.imp fun _ _ _ => .labeled

theorem cons (h1 : Writes allowed e w u) (h2 : Writes allowed (.seq es) u v) :
    Writes allowed (.seq (e :: es)) w v := by
  obtain ⟨ls, rfl, h2⟩ := h2
  obtain ⟨ks, rfl, h1⟩ := h1
  refine ⟨ks ++ ls, by simp, fun ts rest ht hs => ?_⟩
  obtain ⟨us, vs, rfl, hu, hv⟩ := ht.split
  exact .cons (h1 us _ hu (hv.append hs)) (h2 vs rest hv hs)

theorem again {least : Nat} {resync : Bool} (h1 : Writes allowed e w u)
    (h2 : Writes allowed (.repeated e (least - 1) resync) u v) :
    Writes allowed (.repeated e least resync) w v := by
  obtain ⟨ls, rfl, h2⟩ := h2
  obtain ⟨ks, rfl, h1⟩ := h1
  refine ⟨ks ++ ls, by simp, fun ts rest ht hs => ?_⟩
  obtain ⟨us, vs, rfl, hu, hv⟩ := ht.split
  exact .again (h1 us _ hu (hv.append hs)) (h2 vs rest hv hs)

variable (hr : ∀ r i rest, r ≠ .arrowInvocationExpression → allowed r i rest)
include hr

theorem plain {r : Rule} (i : Nat) {a : Alternative} (ha : (kerml.alternatives r)[i]? = some a)
    (hne : r ≠ .arrowInvocationExpression) (h : Writes allowed (.seq a.elements) w v) :
    Writes allowed (ref r) w v :=
  h.rule i ha fun _ _ => hr r i _ hne

theorem name : Writes allowed (ref .qualifiedName) (.ident :: w) w :=
  plain hr 0 rfl (by decide) (cons (labeled (token (by decide))) (cons none nil))

theorem identified : Writes allowed (ref .identification) (.ident :: w) w :=
  plain hr 1 rfl (by decide) (cons (labeled (token (by decide))) nil)

/-- A feature without its word that has an expression with a bare arrow as its value. -/
theorem feature (harrow : ∀ rest, Shows rest w → allowed .arrowInvocationExpression 2 rest)
    (hbody : Writes allowed (ref .namespaceBody) w v) :
    Writes allowed (ref .namespaceMember) (.ident :: .eq :: .ident :: .arrow :: .ident :: w) v := by
  have hleft : Writes allowed (ref .primaryExpression) (.ident :: .arrow :: .ident :: w)
      (.arrow :: .ident :: w) :=
    plain hr 5 rfl (by decide) (cons (plain hr 0 rfl (by decide) (cons (labeled (name hr)) nil)) nil)
  have hright : Writes allowed (ref .arrowInvocationExpression) (.ident :: w) w :=
    rule 2 rfl harrow (cons (labeled (name hr)) nil)
  have hprimary : Writes allowed (ref .primaryExpression) (.ident :: .arrow :: .ident :: w) w :=
    plain hr 9 rfl (by decide) (cons hleft (cons (token (by decide)) (cons hright nil)))
  have hexpression : Writes allowed (ref .ownedExpression) (.ident :: .arrow :: .ident :: w) w :=
    plain hr 3 rfl (by decide) (cons hprimary nil)
  have hvalue : Writes allowed (ref .featureValue) (.eq :: .ident :: .arrow :: .ident :: w) w :=
    plain hr 0 rfl (by decide)
      (cons (labeled (oneOf (by decide))) (cons (labeled hexpression) nil))
  have htail : Writes allowed (ref .featureTail) (.eq :: .ident :: .arrow :: .ident :: w) w :=
    plain hr 0 rfl (by decide)
      (cons (labeled absent) (cons (labeled none) (cons (labeled none) (cons (labeled absent)
        (cons (labeled none) (cons (labeled (present hvalue)) nil))))))
  have hmodifiers : ∀ w, Writes allowed (ref .featurePrefix) w w := fun w =>
    plain hr 0 rfl (by decide) (cons (labeled absent) (cons (labeled none) nil))
  have hfeature : Writes allowed (ref .feature) (.ident :: .eq :: .ident :: .arrow :: .ident :: w) v :=
    plain hr 1 rfl (by decide)
      (cons (hmodifiers _) (cons (labeled (identified hr)) (cons htail (cons hbody nil))))
  have helement : Writes allowed (ref .featureElement) (.ident :: .eq :: .ident :: .arrow :: .ident :: w) v :=
    plain hr 0 rfl (by decide) (cons hfeature nil)
  have hmember : Writes allowed (ref .featureMember) (.ident :: .eq :: .ident :: .arrow :: .ident :: w) v :=
    plain hr 0 rfl (by decide) (cons (labeled absent) (cons (labeled helement) nil))
  exact plain hr 4 rfl (by decide) (cons hmember nil)

/-- A text of one member. -/
theorem text (h : Writes allowed (ref .namespaceMember) w []) :
    Writes allowed (ref .rootNamespace) w [] :=
  plain hr 0 rfl (by decide) (cons (labeled (again h none)) (cons eof nil))

end Writes

end KermlText
