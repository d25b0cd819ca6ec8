import KermlText.Proofs.Paths

/-! Derivations: which rows of tokens a grammar allows, without any say on how they are found. Lookahead,
inlining, levels of operators and the shape of the tree play no part here. Left-recursive alternatives
are alternatives like all others. -/

namespace KermlText

namespace Grammar

/-- The tokens `ts` can be read off the element. -/
inductive Derives (g : Grammar) : Element → List Token → Prop
  | eof : Derives g (.token .eof) []
  | token {t} (h : t.channel = .default) (hk : t.kind ≠ .eof) : Derives g (.token t.kind) [t]
  | relation {t r} (h : t.channel = .default) (hk : t.kind ≠ .eof) : Derives g (.relation t.kind r) [t]
  | oneOf {ks t} (h : t.channel = .default) (hk : ks.contains t.kind = true) : Derives g (.oneOf ks) [t]
  | comment {t} (h : t.channel = .comment) : Derives g .comment [t]
  | rule {r a ts} (ha : a ∈ g.alternatives r) (h : Derives g (.seq a.elements) ts) :
      Derives g (.rule r) ts
  | ruleAt {r level ts} (h : Derives g (.rule r) ts) : Derives g (.ruleAt r level) ts
  | absent {e} : Derives g (.optional e) []
  | present {e ts} (h : Derives g e ts) : Derives g (.optional e) ts
  | nil : Derives g (.seq []) []
  | cons {e es ts us} (h1 : Derives g e ts) (h2 : Derives g (.seq es) us) :
      Derives g (.seq (e :: es)) (ts ++ us)
  | none {e resync} : Derives g (.repeated e 0 resync) []
  | again {e least resync ts us} (h1 : Derives g e ts)
      (h2 : Derives g (.repeated e (least - 1) resync) us) :
      Derives g (.repeated e least resync) (ts ++ us)
  | labeled {name many e ts} (h : Derives g e ts) : Derives g (.labeled name many e) ts

variable {g : Grammar}

/-- An item that may be empty makes up for all that are missing. -/
theorem Derives.repeated_nil {e : Element} (h : g.Derives e []) (least : Nat) (resync : Bool) :
    g.Derives (.repeated e least resync) [] := by
  induction least with
  | zero => exact .none
  | succ n ih => exact .again h ih

/-- The tokens `ts` can be read off the element in front of `rest`, with alternatives that are allowed in
front of what stands behind them. -/
inductive DerivesBefore (g : Grammar) (allowed : Rule → Nat → List Token → Prop) :
    Element → List Token → List Token → Prop
  | eof {rest} : DerivesBefore g allowed (.token .eof) [] rest
  | token {t rest} (h : t.channel = .default) (hk : t.kind ≠ .eof) :
      DerivesBefore g allowed (.token t.kind) [t] rest
  | relation {t r rest} (h : t.channel = .default) (hk : t.kind ≠ .eof) :
      DerivesBefore g allowed (.relation t.kind r) [t] rest
  | oneOf {ks t rest} (h : t.channel = .default) (hk : ks.contains t.kind = true) :
      DerivesBefore g allowed (.oneOf ks) [t] rest
  | comment {t rest} (h : t.channel = .comment) : DerivesBefore g allowed .comment [t] rest
  | rule {r i a ts rest} (ha : (g.alternatives r)[i]? = some a) (hr : allowed r i rest)
      (h : DerivesBefore g allowed (.seq a.elements) ts rest) : DerivesBefore g allowed (.rule r) ts rest
  | ruleAt {r level ts rest} (h : DerivesBefore g allowed (.rule r) ts rest) :
      DerivesBefore g allowed (.ruleAt r level) ts rest
  | absent {e rest} : DerivesBefore g allowed (.optional e) [] rest
  | present {e ts rest} (h : DerivesBefore g allowed e ts rest) :
      DerivesBefore g allowed (.optional e) ts rest
  | nil {rest} : DerivesBefore g allowed (.seq []) [] rest
  | cons {e es ts us rest} (h1 : DerivesBefore g allowed e ts (us ++ rest))
      (h2 : DerivesBefore g allowed (.seq es) us rest) :
      DerivesBefore g allowed (.seq (e :: es)) (ts ++ us) rest
  | none {e resync rest} : DerivesBefore g allowed (.repeated e 0 resync) [] rest
  | again {e least resync ts us rest} (h1 : DerivesBefore g allowed e ts (us ++ rest))
      (h2 : DerivesBefore g allowed (.repeated e (least - 1) resync) us rest) :
      DerivesBefore g allowed (.repeated e least resync) (ts ++ us) rest
  | labeled {name many e ts rest} (h : DerivesBefore g allowed e ts rest) :
      DerivesBefore g allowed (.labeled name many e) ts rest

theorem DerivesBefore.derives {allowed : Rule → Nat → List Token → Prop} {e : Element}
    {ts rest : List Token} (h : g.DerivesBefore allowed e ts rest) : g.Derives e ts := by
  induction h with
  | eof => exact .eof
  | token h hk => exact .token h hk
  | relation h hk => exact .relation h hk
  | oneOf h hk => exact .oneOf h hk
  | comment h => exact .comment h
  | rule ha _ _ ih => exact .rule (List.mem_of_getElem? ha) ih
  | ruleAt _ ih => exact .ruleAt ih
  | absent => exact .absent
  | present _ ih => exact .present ih
  | nil => exact .nil
  | cons _ _ ih1 ih2 => exact .cons ih1 ih2
  | none => exact .none
  | again _ _ ih1 ih2 => exact .again ih1 ih2
  | labeled _ ih => exact .labeled ih

theorem Derives.before {allowed : Rule → Nat → List Token → Prop} (ha : ∀ r i us, allowed r i us)
    {e : Element} {ts : List Token} (h : g.Derives e ts) (rest : List Token) :
    g.DerivesBefore allowed e ts rest := by
  induction h generalizing rest with
  | eof => exact .eof
  | token h hk => exact .token h hk
  | relation h hk => exact .relation h hk
  | oneOf h hk => exact .oneOf h hk
  | comment h => exact .comment h
  | rule hm _ ih =>
    obtain ⟨i, hi⟩ := List.mem_iff_getElem?.1 hm
    exact .rule hi (ha _ i rest) (ih rest)
  | ruleAt _ ih => exact .ruleAt (ih rest)
  | absent => exact .absent
  | present _ ih => exact .present (ih rest)
  | nil => exact .nil
  | cons _ _ ih1 ih2 => exact .cons (ih1 _) (ih2 rest)
  | none => exact .none
  | again _ _ ih1 ih2 => exact .again (ih1 _) (ih2 rest)
  | labeled _ ih => exact .labeled (ih rest)

/-- Where all alternatives are allowed everywhere, what stands behind makes no difference. -/
theorem derivesBefore_iff {e : Element} {ts rest : List Token} :
    g.DerivesBefore (fun _ _ _ => True) e ts rest ↔ g.Derives e ts :=
  ⟨DerivesBefore.derives, fun h => h.before (fun _ _ _ => trivial) rest⟩

/-! ### Operators -/

/-- Left-recursive alternatives are those of a table. -/
theorem leftRecursive_build {defs : List Definition} {tables : List Table} {r : Rule} {a : Alternative}
    (hd : ∀ d ∈ defs, ∀ b ∈ d.alternatives, b.leftRecursive = false)
    (ht : ∀ t ∈ tables, ∀ t' ∈ tables, t.rule = t'.rule → t = t')
    (ha : a ∈ (build defs tables).alternatives r) (hl : a.leftRecursive = true) :
    ∃ t, (build defs tables).table? r = some t ∧ t ∈ tables ∧ a ∈ t.alternatives := by
  simp only [alternatives, definition, build, RuleMap.get_tabulate, List.mem_append,
    List.mem_flatMap, List.mem_filter, decide_eq_true_eq] at ha
  rcases ha with ha | ⟨t, ⟨hm, rfl⟩, ha⟩
  · rcases hf : defs.reverse.find? (fun d => d.rule = r) with _ | d
    · simp [hf, Definition.blank] at ha
    · have hmem : d ∈ defs := by simpa using List.mem_of_find?_eq_some hf
      rw [hf, Option.getD_some] at ha
      rw [hd d hmem a ha] at hl
      cases hl
  · refine ⟨t, ?_, hm, ha⟩
    simp only [table?, build, RuleMap.get_tabulate]
    rcases hf : tables.reverse.find? (fun t' => t'.rule = t.rule) with _ | t'
    · have hno := List.find?_eq_none.1 hf t (by simpa using hm)
      simp at hno
    · have hr : t'.rule = t.rule := by simpa using List.find?_some hf
      have hm' : t' ∈ tables := by simpa using List.mem_of_find?_eq_some hf
      exact hf.trans (congrArg some (ht t' hm' t hm hr))

theorem table?_build {defs : List Definition} {tables : List Table} {r : Rule} {t : Table}
    (h : (build defs tables).table? r = some t) :
    t.rule = r ∧ ∀ a ∈ t.alternatives, a ∈ (build defs tables).alternatives r := by
  simp only [table?, build, RuleMap.get_tabulate] at h
  have hr : t.rule = r := by simpa using List.find?_some h
  have hm : t ∈ tables := by simpa using List.mem_of_find?_eq_some h
  refine ⟨hr, fun a ha => ?_⟩
  simp only [alternatives, definition, build, RuleMap.get_tabulate, List.mem_append,
    List.mem_flatMap, List.mem_filter]
  exact .inr ⟨t, ⟨hm, by simpa using hr⟩, ha⟩

end Grammar

namespace Table

theorem mem_tiers_of_lookup {table : Table} {k : Kind} {tier : Tier} {r : Rule}
    (h : table.lookup k = some (tier, r)) : tier ∈ table.tiers ∧ (k, r) ∈ tier.operators := by
  obtain ⟨t, ht, hk⟩ := List.exists_of_findSome?_eq_some h
  obtain ⟨q, hq, he⟩ := Option.map_eq_some_iff.1 hk
  obtain ⟨rfl, rfl⟩ := Prod.mk.inj he
  refine ⟨ht, ?_⟩
  obtain ⟨o, ho, rfl⟩ := Option.map_eq_some_iff.1 hq
  have hm := List.mem_of_find?_eq_some ho
  have hk : o.1 = k := by simpa using List.find?_some ho
  exact hk ▸ hm

theorem mem_tierRows {t : Table} {tier : Tier} {es : List Element} :
    es ∈ t.tierRows tier ↔
      (tier.form = .binary ∧ es = [.rule t.rule, .oneOf tier.tokens, .ruleAt t.rule tier.operandLevel]) ∨
      (tier.form ≠ .binary ∧ ∃ o ∈ tier.operators, es = [.rule t.rule, .token o.1, .rule o.2]) := by
  unfold tierRows
  split
  · rename_i h; simp [h]
  · rename_i h; simp [h, eq_comm]
  · rename_i h; simp [h, eq_comm]

theorem mem_tiers_of_mem_alternatives {t : Table} {a : Alternative} (h : a ∈ t.alternatives) :
    ∃ tier ∈ t.tiers, a.elements ∈ t.tierRows tier := by
  simp only [alternatives, List.mem_map, List.mem_flatMap] at h
  obtain ⟨es, ⟨tier, htier, hes⟩, rfl⟩ := h
  exact ⟨tier, htier, hes⟩

theorem mem_alternatives {t : Table} {tier : Tier} (h : tier ∈ t.tiers) {es : List Element}
    (he : es ∈ t.tierRows tier) : ⟨es, true⟩ ∈ t.alternatives := by
  simp only [alternatives, List.mem_map, List.mem_flatMap]
  exact ⟨es, ⟨tier, h, he⟩, rfl⟩

end Table

theorem Tier.contains_tokens {tier : Tier} {k : Kind} {r : Rule} (h : (k, r) ∈ tier.operators) :
    tier.tokens.contains k = true := by
  rw [tokens, KindSet.contains_ofList]
  exact List.mem_map.2 ⟨_, h, rfl⟩

theorem Table.contains_operators_iff {t : Table} {k : Kind} :
    t.operators.contains k = true ↔ ∃ tier ∈ t.tiers, tier.tokens.contains k = true := by
  suffices ∀ (ts : List Tier) (s : KindSet),
      (ts.foldl (fun s tier => s ∪ tier.tokens) s).contains k = true ↔
        s.contains k = true ∨ ∃ tier ∈ ts, tier.tokens.contains k = true by
    simpa [operators] using this t.tiers ∅
  intro ts
  induction ts with
  | nil => simp
  | cons tier ts ih =>
    intro s
    simp only [List.foldl_cons, ih, KindSet.contains_union, Bool.or_eq_true, List.mem_cons, exists_eq_or_imp,
      or_assoc]

theorem Table.contains_operators {t : Table} {k : Kind} {tier : Tier} {q : Rule}
    (h : t.lookup k = some (tier, q)) : t.operators.contains k = true := by
  obtain ⟨htier, ho⟩ := Table.mem_tiers_of_lookup h
  exact contains_operators_iff.2 ⟨tier, htier, Tier.contains_tokens ho⟩

namespace Grammar

variable {g : Grammar} {r q : Rule} {table : Table} {tier : Tier} {t : Token} {ts us : List Token}

section

variable (htable : table.rule = r) (ha : ∀ a ∈ table.alternatives, a ∈ g.alternatives r)
  (hl : table.lookup t.kind = some (tier, q)) (hc : t.channel = .default)
include htable ha hl hc

theorem Derives.binary (hf : tier.form = .binary) (h1 : g.Derives (.rule r) ts)
    (h2 : g.Derives (.rule r) us) : g.Derives (.rule r) (ts ++ t :: us) := by
  obtain ⟨htier, ho⟩ := Table.mem_tiers_of_lookup hl
  have hm := ha _ (Table.mem_alternatives htier
    (Table.mem_tierRows.2 (.inl ⟨hf, by rw [htable]⟩)))
  refine .rule hm ?_
  have h : g.Derives (.seq [.rule r, .oneOf tier.tokens, .ruleAt r tier.operandLevel])
      (ts ++ ([t] ++ (us ++ []))) :=
    .cons h1 (.cons (.oneOf hc (Tier.contains_tokens ho)) (.cons (.ruleAt h2) .nil))
  simpa using h

theorem Derives.suffix (hf : tier.form ≠ .binary) (hk : t.kind ≠ .eof) (h1 : g.Derives (.rule r) ts)
    (h2 : g.Derives (.rule q) us) : g.Derives (.rule r) (ts ++ t :: us) := by
  obtain ⟨htier, ho⟩ := Table.mem_tiers_of_lookup hl
  have hrow : [.rule r, .token t.kind, .rule q] ∈ table.tierRows tier :=
    Table.mem_tierRows.2 (.inr ⟨hf, _, ho, by rw [htable]⟩)
  refine .rule (ha _ (Table.mem_alternatives htier hrow)) ?_
  have h := Derives.cons h1 (.cons (.token hc hk) (.cons h2 .nil))
  simpa using h

end

end Grammar

/-- The grammar has two tables of operators. -/
theorem table_kerml {r : Rule} {t : Table} (h : kerml.table? r = some t) :
    r = .ownedExpression ∧ t = Rules.operatorTable ∨ r = .primaryExpression ∧ t = Rules.suffixTable := by
  simp only [Grammar.table?, kerml, Grammar.build, RuleMap.get_tabulate] at h
  have hr : t.rule = r := by simpa using List.find?_some h
  have hm := List.mem_of_find?_eq_some h
  simp only [List.mem_reverse, List.mem_cons, List.not_mem_nil, or_false] at hm
  rcases hm with rfl | rfl
  · exact .inl ⟨hr.symm, rfl⟩
  · exact .inr ⟨hr.symm, rfl⟩

end KermlText
