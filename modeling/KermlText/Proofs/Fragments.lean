import KermlText.Proofs.Excerpts
import KermlText.Proofs.Precedence

/-! Fragments. An expression that is parsed by itself makes the node that it makes as the value of a feature. It
is read greedily in both places: nothing in an expression goes on with a brace behind an arrow, and neither the
end of input nor a semicolon goes on with an expression. -/

namespace KermlText

open Grammar Rules Rules.Phrase

/-! ### Arrows inside expressions -/

/-- Whether a text of the rule may end with an arrow. -/
def Rule.trails : Rule → Bool
  | .ownedExpression | .operatorExpression | .conditionalExpression | .unaryExpression | .primaryExpression
  | .arrowInvocationExpression | .arguments | .argument | .namedArgument | .positionalArgument => true
  | _ => false

/-- The rules that expressions are made of. -/
def expressionRules : List Rule :=
  (names ++ expressions).map (·.rule) ++
    [.featureRelationship, .featureTyping, .subsetting, .redefinition, .referenceSubsetting, .crossSubsetting,
     .conjugationPart, .featureChaining, .featureInverting, .typeFeaturing, .disjoiningPart, .unioningPart,
     .intersectingPart, .differencingPart]

mutual

/-- Whether the element is part of an expression, and no arrow at the end of what it mentions comes to stand in
front of a brace. A brace may stand behind the element itself if `brace` says so. -/
def Element.sealed (brace : Bool) : Element → Bool
  | .token _ | .relation _ _ | .oneOf _ | .comment => true
  | .rule r | .ruleAt r _ => decide (r ∈ expressionRules) && !(brace && r.trails)
  | .optional e | .labeled _ _ e => e.sealed brace
  | .repeated e _ _ => e.sealed (brace || (kerml.firstOf e).contains .lBrace)
  | .seq es => rowSealed brace es

def rowSealed (brace : Bool) : List Element → Bool
  | [] => true
  | e :: es =>
    e.sealed ((kerml.firstOfRow es).contains .lBrace || kerml.rowNullable es && brace) && rowSealed brace es

end

/-- What is computed from the rules of expressions, and of what may stand behind one. -/
theorem checked_expressions :
    (∀ r ∈ expressionRules, r ≠ .rootNamespace ∧
      ∀ a ∈ kerml.alternatives r, rowSealed (!r.trails) a.elements = true) ∧
    (kerml.follow .ownedExpression).contains .semicolon = true ∧
    (kerml.follow .ownedExpression).contains .eof = true := by
  decide +kernel

/-- Where something is read that does not start with a brace none stands, unless it takes nothing. -/
theorem nextKind_of_derives {e : Element} {ts rest : List Token}
    (h : kerml.DerivesBefore closesArrows e ts rest) (he : e.all Element.isInner = true)
    (hc : ∀ t ∈ ts, t.channel ≠ .comment) (hf : (kerml.firstOf e).contains .lBrace = false)
    (hrest : kerml.isNullable e = true → nextKind (kindsOf rest) ≠ .lBrace) :
    nextKind (kindsOf (ts ++ rest)) ≠ .lBrace := by
  have hs := spells_of_derives h he hc
  rw [kindsOf_append]
  rcases Spans.element_starts closed_kerml (hs.spans fun _ _ _ h => h.1) with hk | ⟨hn, heq⟩
  · rintro heq
    rw [heq, hf] at hk
    cases hk
  · rw [heq]
    exact hrest hn

/-- A derivation of an expression, or of a part of one, leaves no bare arrow in front of a brace. -/
theorem closes_of_derives {e : Element} {ts : List Token} (h : kerml.Derives e ts)
    (he : e.all Element.isInner = true) (hc : ∀ t ∈ ts, t.channel ≠ .comment) {brace : Bool}
    (hs : e.sealed brace = true) {rest : List Token} (hrest : brace = false → nextKind (kindsOf rest) ≠ .lBrace) :
    kerml.DerivesBefore closesArrows e ts rest := by
  induction h generalizing brace rest with
  | eof => exact .eof
  | token h hk => exact .token h hk
  | relation h hk => exact .relation h hk
  | oneOf h hk => exact .oneOf h hk
  | comment h => exact .comment h
  | @rule r a ts ha h ih =>
    simp only [Element.sealed, Bool.and_eq_true, decide_eq_true_eq, Bool.not_eq_true'] at hs
    obtain ⟨hroot, hrows⟩ := checked_expressions.1 r hs.1
    obtain ⟨i, hi⟩ := List.mem_iff_getElem?.1 ha
    have hrest' : r.trails = true → nextKind (kindsOf rest) ≠ .lBrace := fun ht => hrest (by simpa [ht] using hs.2)
    refine .rule hi ?_ (ih ?_ hc (hrows a ha) (by simpa using hrest'))
    · rintro rfl _
      exact hrest' rfl
    · simpa [Element.all, Element.isInner] using rowAll_isInner hroot ha
  | ruleAt _ ih => exact .ruleAt (ih he hc hs hrest)
  | absent => exact .absent
  | present _ ih =>
    exact .present (ih (by simpa [Element.all, Element.isInner] using he) hc hs hrest)
  | nil => exact .nil
  | @cons e es ts us h1 h2 ih1 ih2 =>
    simp only [Element.all, Element.isInner, rowAll, Element.sealed, rowSealed, Bool.true_and,
      Bool.and_eq_true] at he hs ih2
    have hc2 : ∀ t ∈ us, t.channel ≠ .comment := fun t ht => hc t (List.mem_append_right _ ht)
    have hrow := ih2 he.2 hc2 hs.2 hrest
    refine .cons (ih1 he.1 (fun t ht => hc t (List.mem_append_left _ ht)) hs.1 fun hbrace => ?_) hrow
    simp only [Bool.or_eq_false_iff, Bool.and_eq_false_imp] at hbrace
    refine nextKind_of_derives hrow ?_ hc2 hbrace.1 fun hn => hrest (hbrace.2 hn)
    simpa [Element.all, Element.isInner] using he.2
  | none => exact .none
  | @again e least resync ts us h1 h2 ih1 ih2 =>
    have hc2 : ∀ t ∈ us, t.channel ≠ .comment := fun t ht => hc t (List.mem_append_right _ ht)
    have he' : e.all Element.isInner = true := by simpa [Element.all, Element.isInner] using he
    have hmore := ih2 (by simpa [Element.all, Element.isInner] using he') hc2 hs hrest
    refine .again (ih1 he' (fun t ht => hc t (List.mem_append_left _ ht)) hs fun hbrace => ?_) hmore
    rw [Bool.or_eq_false_iff] at hbrace
    exact nextKind_of_derives hmore (by simpa [Element.all, Element.isInner] using he') hc2 hbrace.2 fun _ =>
      hrest hbrace.1
  | labeled _ ih =>
    exact .labeled (ih (by simpa [Element.all, Element.isInner] using he) hc hs hrest)

/-! ### Expressions in front of what ends them -/

/-- What ends an expression: the end of input, or a semicolon. -/
def Ends (rest : List Token) : Prop := nextKind (kindsOf rest) = .eof ∨ nextKind (kindsOf rest) = .semicolon

/-- An expression is read greedily in front of what ends it. -/
theorem greedy_expression {ts rest : List Token} (h : kerml.Derives (.rule .ownedExpression) ts)
    (hc : ∀ t ∈ ts, t.channel ≠ .comment) (hr : Ends rest) :
    kerml.Greedy (.element (.rule .ownedExpression)) (kindsOf ts ++ kindsOf rest) (kindsOf rest) := by
  obtain ⟨-, hsemicolon, heof⟩ := checked_expressions
  have hbrace : nextKind (kindsOf rest) ≠ .lBrace := by rcases hr with h | h <;> simp [h]
  have hsealed : (Element.rule .ownedExpression).sealed false = true := by decide
  have hclosed := closes_of_derives h (by decide) hc hsealed fun _ => hbrace
  cases spells_of_derives hclosed (by decide) hc with | rule hreads =>
  have hbehind : Behind (kerml.follow .ownedExpression) (kindsOf rest) := by
    refine ⟨?_, fun v heq => ?_⟩
    · rcases hr with h | h <;> simp [h, heof, hsemicolon]
    · rcases hr with h | h <;> simp [heq] at h
  have hyields : kerml.Yields (Rule.tail? .ownedExpression) (kindsOf rest) [] := by
    intro q t tier n hq ht hl
    have hnone : t.lookup .eof = none ∧ t.lookup .semicolon = none := by
      rcases table_kerml ht with ⟨-, rfl⟩ | ⟨-, rfl⟩ <;> exact ⟨rfl, rfl⟩
    rcases hr with h | h <;> simp [h, hnone] at hl
  obtain ⟨u, hu, rfl⟩ := hreads.2 [] _ hbehind hyields rfl
  exact hu

theorem table?_ownedExpression : kerml.table? .ownedExpression = some operatorTable := rfl

/-- What is taken for a whole text that made one node is this node. -/
theorem Builder.finish_unwrapped_pushNode (r : Rule) (n : Node) :
    ((start r).pushNode n).unwrapped.finish = n := by
  rw [finish_unwrapped]
  rfl

section

variable {ts : List Token} {settings : Settings} {p : Parse} (hc : ∀ t ∈ ts, t.channel ≠ .comment)
  (hm : settings.maxErrors ≠ some 0) (hl : ts.length ≤ settings.lookahead)
  (hunhindered : Setup.Unhindered ((Setup.ofTokens ts settings).last .ownedExpression))
  (hp : (parseTokens .ownedExpression ts settings).1 = .ok p) (hok : p.ok = true)
include hc hm hp hok

/-- An expression that is accepted has proper tokens, a proper node, and a greedy reading in front of what ends
it. -/
theorem greedy_of_parseTokens :
    (∀ t ∈ ts.filter (fun t => t.channel = .default), t.kind ≠ .error) ∧ p.root.rule ≠ .error ∧
      ∀ rest, Ends rest → kerml.Greedy (.element (.rule .ownedExpression)) (kindsOf ts ++ kindsOf rest)
        (kindsOf rest) := by
  obtain ⟨hderives, hsublist, hsame, haccounts⟩ := derives_of_parseTokens hm hp hok
  refine ⟨fun t ht => ?_, (haccounts _ ?_).rule_ne readable_kerml, fun rest hrest => ?_⟩
  · rw [← hsame, List.mem_filter] at ht
    exact kind_ne_error_of_derives hderives (by decide) t ht.1 (by simpa using ht.2)
  · exact p.root.mem_descendants_self
  · have hgreedy := greedy_expression hderives (fun t ht => hc t (hsublist.subset ht)) hrest
    rwa [show kindsOf p.root.tokens = kindsOf ts from congrArg (List.map Token.kind) hsame] at hgreedy

include hl hunhindered

/-- The form of an expression that is accepted makes its root. -/
theorem forms_of_expression : kerml.Forms .free (.call .ownedExpression 0) (ts.filter fun t => t.channel = .default)
    (.start .ownedExpression) [] ((Builder.start .ownedExpression).pushNode p.root) := by
  obtain ⟨hproper, -, hgreedy⟩ := greedy_of_parseTokens hc hm hp hok
  have hwhole : kerml.Greedy (.element (.rule .ownedExpression)) (kindsOf ts) [] := by
    simpa [kindsOf] using hgreedy [] (.inl rfl)
  obtain ⟨-, b, hb, hform⟩ := forms_of_greedy hm hp hc hproper hl hunhindered hwhole
  obtain ⟨n, rfl, -⟩ := hform.pushes table?_ownedExpression
  rw [Builder.finish_unwrapped_pushNode] at hb
  exact hb ▸ hform

/-- In front of a semicolon the expression makes the same node. -/
theorem forms_value {stop : Token} (hstop : stop.kind = .semicolon) (hd : stop.channel = .default) (b : Builder) :
    kerml.Forms .free (.call .ownedExpression 0) (ts.filter (fun t => t.channel = .default) ++ [stop]) b [stop]
      (b.pushNode p.root) := by
  have hends : Ends [stop] := .inr (by simp [kindsOf, hd, hstop])
  have hgreedy := (greedy_of_parseTokens hc hm hp hok).2.2 [stop] hends
  have hkinds : kindsOf ts ++ kindsOf [stop] = kinds (ts.filter (fun t => t.channel = .default) ++ [stop]) := by
    simp [kindsOf, kinds, hd]
  rw [hkinds] at hgreedy
  obtain ⟨u, c, hu, hform⟩ := hgreedy.formed (fun _ _ _ _ _ => table?_node_kerml) b
  cases hform with | rule hform =>
  obtain rfl : u = [stop] := by
    obtain ⟨pre, hpre⟩ := hform.left_suffix
    refine List.append_inj_right' hpre ?_
    simpa [kinds, kindsOf, hd] using congrArg List.length hu
  -- without the semicolon the same form is that of the expression alone, so it makes the same node
  obtain ⟨n, rfl, hpush⟩ := hform.pushes table?_ownedExpression
  have hinner : JobInner (.call .ownedExpression 0) := show Rule.ownedExpression ≠ .rootNamespace by decide
  obtain ⟨z, hz, halone⟩ := (hpush (.start .ownedExpression)).alone hinner (x := []) rfl
  obtain rfl := List.append_cancel_right hz
  obtain ⟨-, heq⟩ := halone.unique founded_kerml (fun _ _ _ _ _ => table?_node_kerml)
    (fun _ _ => optionTakes_kerml) (forms_of_expression hc hm hl hunhindered hp hok) trivial
  obtain rfl : n = p.root := by simpa [Builder.pushNode, Builder.push] using heq
  exact hform

end

/-! ### A text of one feature -/

/-- Whether the element takes a token, and none of this kind. -/
def Element.shuns (e : Element) (k : Kind) : Bool := !(kerml.firstOf e).contains k && !kerml.isNullable e

/-- Whether no alternative in front of the `i`-th can be read where a token of this kind stands next. -/
def Rule.passes (r : Rule) (i : Nat) (k : Kind) : Bool :=
  ((kerml.alternatives r).take i).all fun a => (Element.seq a.elements).shuns k

section

variable {e : Element} {k : Kind} {x : List Kind}

theorem not_opens_of_shuns (hk : nextKind x = k) (h : e.shuns k = true) : ¬ kerml.Opens e.pattern x := by
  subst hk
  simp only [Element.shuns, Bool.and_eq_true, Bool.not_eq_true'] at h
  rintro ⟨v, hv⟩
  rcases Spans.element_starts closed_kerml hv with hk | ⟨hn, -⟩
  · rw [h.1] at hk
    cases hk
  · rw [h.2] at hn
    cases hn

theorem foremost_of_passes {r : Rule} {i : Nat} (hk : nextKind x = k) (h : r.passes i k = true) :
    kerml.Foremost r i x := by
  intro j hj a ha _
  simp only [Rule.passes, List.all_eq_true] at h
  apply not_opens_of_shuns (e := .seq a.elements) hk
  apply h a
  apply List.mem_of_getElem? (i := j)
  rwa [List.getElem?_take_of_lt hj]

theorem forms_absent {w : List Token} (hk : nextKind (kinds w) = k) (h : e.shuns k = true) (b : Builder) :
    kerml.Forms .free (.element (opt e)) w b w b :=
  .absent (.absent (not_opens_of_shuns hk h))

theorem forms_none {w : List Token} {resync : Bool} (hk : nextKind (kinds w) = k) (h : e.shuns k = true)
    (b : Builder) : kerml.Forms .free (.element (.repeated e 0 resync)) w b w b :=
  .none (not_opens_of_shuns hk h)

end

/-- What is made is worked out once it is read. -/
theorem forms_of_eq {job : Job} {w v : List Token} {b c c' : Builder} (h : kerml.Forms .free job w b v c)
    (hc : c = c') : kerml.Forms .free job w b v c' := hc ▸ h

/-- What may be left out of a feature with a name and a value, and what is chosen for it. -/
theorem checked_feature :
    Rule.namespaceMember.passes 4 .kwFeature = true ∧ (ref .namespaceMember).shuns .eof = true ∧
      (oneOf visibility).shuns .kwFeature = true ∧ (oneOf directions).shuns .kwFeature = true ∧
      (oneOf modifiers).shuns .kwFeature = true ∧ Rule.identification.passes 1 .ident = true ∧
      (ref .multiplicity).shuns .eq = true ∧ (oneOf orderings).shuns .eq = true ∧
      (ref .featureRelationship).shuns .eq = true := by
  decide +kernel

/-- The tokens of a feature with a name and a value. -/
structure Frame where
  word : Token
  name : Token
  sign : Token
  stop : Token
  word_kind : word.kind = .kwFeature
  name_kind : name.kind = .ident
  sign_kind : sign.kind = .eq
  stop_kind : stop.kind = .semicolon
  plain : ∀ t ∈ [word, name, sign, stop], t.channel = .default

namespace Frame

variable (f : Frame)

/-- The expression as the value of the feature. -/
def around (ts : List Token) : List Token := f.word :: f.name :: f.sign :: (ts ++ [f.stop])

theorem mem_around {ts : List Token} {t : Token} :
    t ∈ f.around ts ↔ t ∈ [f.word, f.name, f.sign, f.stop] ∨ t ∈ ts := by
  simp only [around, List.mem_cons, List.mem_append, List.not_mem_nil, or_false]
  tauto

theorem filter_around (ts : List Token) : (f.around ts).filter (fun t => t.channel = .default) =
    f.around (ts.filter fun t => t.channel = .default) := by
  have hplain := f.plain
  simp only [List.mem_cons, List.not_mem_nil, or_false, forall_eq_or_imp, forall_eq] at hplain
  simp [around, List.filter_append, hplain]

theorem kind_ne_error {t : Token} (ht : t ∈ [f.word, f.name, f.sign, f.stop]) : t.kind ≠ .error := by
  simp only [List.mem_cons, List.not_mem_nil, or_false] at ht
  rcases ht with rfl | rfl | rfl | rfl
  · simp [f.word_kind]
  · simp [f.name_kind]
  · simp [f.sign_kind]
  · simp [f.stop_kind]

def nameNode : Node := .mk .identification [.token f.name] [("name", .one 0)] false

def valueNode (n : Node) : Node :=
  .mk .featureValue [.token f.sign, .node n] [("operator", .one 0), ("value", .one 1)] false

def featureNode (n : Node) : Node :=
  .mk .feature [.token f.word, .node f.nameNode, .node (f.valueNode n), .token f.stop]
    [("modifiers", .many []), ("identification", .one 1), ("ordering", .many []), ("specializations", .many []),
     ("value", .one 2)] false

def memberNode (n : Node) : Node := .mk .featureMember [.node (f.featureNode n)] [("element", .one 0)] false

def textNode (n : Node) : Node := .mk .rootNamespace [.node (f.memberNode n)] [("members", .many [0])] false

theorem forms_name {w : List Token} (b : Builder) :
    kerml.Forms .free (.call .identification 0) (f.name :: w) b w (b.pushNode f.nameNode) := by
  obtain ⟨-, -, -, -, -, h, -⟩ := checked_feature
  have hrow : kerml.Forms .free (.body .identification) (f.name :: w) (.start .identification) w _ :=
    .chosen (i := 1) rfl rfl (foremost_of_passes f.name_kind h) trivial
      (.cons (.labeled (.token f.name_kind (by decide) trivial)) .nil)
  exact .wrapped rfl rfl hrow

variable {n : Node} {ts : List Token} (hn : n.rule ≠ .error)
  (hvalue : ∀ b, kerml.Forms .free (.call .ownedExpression 0) (ts ++ [f.stop]) b [f.stop] (b.pushNode n))
include hn hvalue

theorem forms_featureValue (b : Builder) :
    kerml.Forms .free (.call .featureValue 0) (f.sign :: (ts ++ [f.stop])) b [f.stop]
      (b.pushNode (f.valueNode n)) := by
  have hrow : kerml.Forms .free (.body .featureValue) (f.sign :: (ts ++ [f.stop])) (.start .featureValue)
      [f.stop] _ :=
    .chosen (i := 0) rfl rfl (foremost_of_passes rfl rfl) trivial
      (.cons (.labeled (.oneOf (by rw [f.sign_kind]; decide) (by simp [f.sign_kind]) (by simp [f.sign_kind]) trivial))
        (.cons (.labeled (.rule (hvalue _))) .nil))
  refine forms_of_eq (.wrapped rfl rfl hrow) ?_
  simp [Builder.label, Builder.caught, Builder.catches, Builder.fill, Builder.pushToken, Builder.pushNode,
    Builder.push, Builder.start, Builder.size, Builder.finish, Element.catchesTokens, Element.relation?, oneOf, ref,
    hn, valueNode]

theorem forms_feature (b : Builder) :
    kerml.Forms .free (.call .feature 0) (f.around ts) b [] (b.pushNode (f.featureNode n)) := by
  obtain ⟨-, -, -, hdirections, hmodifiers, -, hmultiplicity, horderings, hrelationships⟩ := checked_feature
  have hword : nextKind (kinds (f.around ts)) = .kwFeature := f.word_kind
  have hsign : nextKind (kinds (f.sign :: (ts ++ [f.stop]))) = .eq := f.sign_kind
  have hfront : ∀ b, kerml.Forms .free (.element (ref .featurePrefix)) (f.around ts) b (f.around ts) _ := fun b =>
    .rule (.inlined rfl rfl (.chosen (i := 0) rfl rfl (foremost_of_passes rfl rfl) trivial
      (.cons (.labeled (forms_absent hword hdirections _)) (.cons (.labeled (forms_none hword hmodifiers _)) .nil))))
  have htail : ∀ b, kerml.Forms .free (.element (ref .featureTail)) (f.sign :: (ts ++ [f.stop])) b [f.stop] _ :=
    fun b => .rule (.inlined rfl rfl (.chosen (i := 0) rfl rfl (foremost_of_passes rfl rfl) trivial
      (.cons (.labeled (forms_absent hsign hmultiplicity _)) (.cons (.labeled (forms_none hsign horderings _))
      (.cons (.labeled (forms_none hsign hrelationships _)) (.cons (.labeled (forms_absent hsign hmultiplicity _))
      (.cons (.labeled (forms_none hsign horderings _))
      (.cons (.labeled (.present (.rule (f.forms_featureValue hn hvalue _)))) .nil))))))))
  have hbody : ∀ b, kerml.Forms .free (.element (ref .namespaceBody)) [f.stop] b [] _ := fun b =>
    .rule (.inlined rfl rfl (.chosen (i := 0) rfl rfl (foremost_of_passes rfl rfl) trivial
      (.cons (.token f.stop_kind (by decide) trivial) .nil)))
  have hrow : kerml.Forms .free (.body .feature) (f.around ts) (.start .feature) [] _ :=
    .chosen (i := 0) rfl rfl (foremost_of_passes rfl rfl) trivial
      (.cons (hfront _) (.cons (.token f.word_kind (by decide) trivial)
        (.cons (.labeled (.present (.rule (f.forms_name _)))) (.cons (htail _) (.cons (hbody _) .nil)))))
  refine forms_of_eq (.wrapped rfl rfl hrow) ?_
  simp [Builder.label, Builder.caught, Builder.catches, Builder.fill, Builder.extend, Builder.pushToken, Builder.pushNode,
    Builder.push, Builder.start, Builder.size, Builder.finish, Element.catchesTokens, Element.relation?, oneOf, ref,
    opt, many, featureNode, valueNode, nameNode, Node.rule]

theorem forms_text (b : Builder) :
    kerml.Forms .free (.call .rootNamespace 0) (f.around ts) b [] (b.pushNode (f.textNode n)) := by
  obtain ⟨hmember, hend, hvisibility, -⟩ := checked_feature
  have hword : nextKind (kinds (f.around ts)) = .kwFeature := f.word_kind
  have helement : ∀ b, kerml.Forms .free (.element (ref .featureElement)) (f.around ts) b [] _ := fun b =>
    .rule (.inlined rfl rfl (.chosen (i := 0) rfl rfl (foremost_of_passes rfl rfl) trivial
      (.cons (.rule (f.forms_feature hn hvalue b)) .nil)))
  have hrow : kerml.Forms .free (.body .featureMember) (f.around ts) (.start .featureMember) [] _ :=
    .chosen (i := 0) rfl rfl (foremost_of_passes rfl rfl) trivial
      (.cons (.labeled (forms_absent hword hvisibility _)) (.cons (.labeled (helement _)) .nil))
  have hitem : ∀ b, kerml.Forms .free (.element (ref .namespaceMember)) (f.around ts) b [] _ := fun b =>
    .rule (.inlined rfl rfl (.chosen (i := 4) rfl rfl (foremost_of_passes hword hmember) trivial
      (.cons (.rule (.wrapped rfl rfl hrow)) .nil)))
  have htext : kerml.Forms .free (.body .rootNamespace) (f.around ts) (.start .rootNamespace) [] _ :=
    .chosen (i := 0) rfl rfl (foremost_of_passes rfl rfl) trivial
      (.cons (.labeled (.again (hitem _) (forms_none (w := []) nextKind_nil hend _))) (.cons .eof .nil))
  exact .wrapped rfl rfl htext

end Frame

/-! ### Parses -/

/-- An expression that is accepted by itself is accepted as the value of a feature, and the value is the root of
its own parse. -/
theorem parseTokens_embedded (f : Frame) {ts : List Token} {settings : Settings} {p : Parse}
    (hc : ∀ t ∈ ts, t.channel ≠ .comment) (hm : settings.maxErrors ≠ some 0) (hcancel : settings.cancel = none)
    (hl : (f.around ts).length ≤ settings.lookahead)
    (hu : Setup.Unhindered ((Setup.ofTokens ts settings).last .ownedExpression))
    (hu' : Setup.Unhindered ((Setup.ofTokens (f.around ts) settings).last .rootNamespace))
    (hp : (parseTokens .ownedExpression ts settings).1 = .ok p) (hok : p.ok = true) :
    ∃ p' member feature value, (parseTokens .rootNamespace (f.around ts) settings).1 = .ok p' ∧ p'.ok = true ∧
      p'.root.fieldAll "members" = [.node member] ∧ member.field? "element" = some (.node feature) ∧
      feature.field? "value" = some (.node value) ∧ value.rule = .featureValue ∧
      value.field? "value" = some (.node p.root) := by
  have hlength : ts.length ≤ settings.lookahead := by
    refine Nat.le_trans ?_ hl
    simp only [Frame.around, List.length_cons, List.length_append]
    omega
  obtain ⟨hproper, hn, -⟩ := greedy_of_parseTokens hc hm hp hok
  have hc' : ∀ t ∈ f.around ts, t.channel ≠ .comment := fun t ht =>
    (f.mem_around.1 ht).elim (fun h => by simp [f.plain t h]) (hc t)
  have hproper' : ∀ t ∈ (f.around ts).filter (fun t => t.channel = .default), t.kind ≠ .error := by
    intro t ht
    rw [f.filter_around] at ht
    exact (f.mem_around.1 ht).elim f.kind_ne_error (hproper t)
  have hform := f.forms_text hn (forms_value hc hm hlength hu hp hok f.stop_kind (f.plain _ (by simp)))
    (.start .rootNamespace)
  rw [← f.filter_around] at hform
  obtain ⟨p', hp', hok', hroot⟩ := parseTokens_of_forms hc' hm hl hu' hcancel hproper' hform
  rw [Builder.finish_unwrapped_pushNode] at hroot
  exact ⟨p', f.memberNode p.root, f.featureNode p.root, f.valueNode p.root, hp', hok', by rw [hroot]; rfl, rfl, rfl,
    rfl, rfl⟩

/-- A feature that is waiting for its value. -/
def openFeature : Frame where
  word := .make .kwFeature "feature" 0 ⟨0, 0⟩
  name := .make .ident "x" 8 ⟨0, 8⟩
  sign := .make .eq "=" 10 ⟨0, 10⟩
  stop := .make .semicolon ";" 20 ⟨0, 20⟩
  word_kind := rfl
  name_kind := rfl
  sign_kind := rfl
  stop_kind := rfl
  plain := by decide

/-- An expression with something left over behind it, for a parse that may report nothing. -/
def strayValue : List Token := [.make .integer "1" 12 ⟨0, 12⟩, .make .rParen ")" 14 ⟨0, 14⟩]

/-- Two expressions by themselves and as values, in one computation. -/
theorem checked_values :
    ((∀ t ∈ scan "a + b->f", t.channel ≠ .comment) ∧
      ((Setup.ofTokens (scan "a + b->f") .standard).last .ownedExpression).resolver.cut = false ∧
      ((Setup.ofTokens (scan "a + b->f") .standard).last .ownedExpression).errors = [] ∧
      ((Setup.ofTokens (openFeature.around (scan "a + b->f")) .standard).last .rootNamespace).resolver.cut = false ∧
      ((Setup.ofTokens (openFeature.around (scan "a + b->f")) .standard).last .rootNamespace).errors = []) ∧
    ((Setup.ofTokens strayValue (Settings.standard.withMaxErrors 0)).last .ownedExpression).resolver.cut = false ∧
    ((Setup.ofTokens (openFeature.around strayValue) (Settings.standard.withMaxErrors 0)).last
      .rootNamespace).resolver.cut = false ∧
    (parseTokens .ownedExpression strayValue (Settings.standard.withMaxErrors 0)).1.toOption.any (fun p =>
      p.ok && p.root.tokens.length == 2) = true ∧
    (parseTokens .rootNamespace (openFeature.around strayValue) (Settings.standard.withMaxErrors 0)).1.toOption.any
      (fun p => p.ok && p.root.descendants.all fun n => n.rule != .featureValue ||
        ((n.field? "value").bind Child.node?).any fun m => m.tokens.length == 1) = true := by
  decide +kernel

/-- A sum whose right operand ends with a bare arrow. -/
theorem parseTokens_embedded_arrow :
    ∃ p p' member feature value, (parseTokens .ownedExpression (scan "a + b->f") .standard).1 = .ok p ∧
      p.ok = true ∧
      (parseTokens .rootNamespace (openFeature.around (scan "a + b->f")) .standard).1 = .ok p' ∧ p'.ok = true ∧
      p'.root.fieldAll "members" = [.node member] ∧ member.field? "element" = some (.node feature) ∧
      feature.field? "value" = some (.node value) ∧ value.rule = .featureValue ∧
      value.field? "value" = some (.node p.root) := by
  obtain ⟨⟨hc, hcut, hnil, hcut', hnil'⟩, -⟩ := checked_values
  obtain ⟨p, hp⟩ := parseTokens_answers .ownedExpression (scan "a + b->f") (rfl : Settings.standard.cancel = none)
  have hok : p.ok = true := Parse.ok_eq_true.2 ((rooted_last hp).2.trans hnil)
  obtain ⟨p', member, feature, value, h⟩ := parseTokens_embedded openFeature hc (by decide) rfl (by decide +kernel)
    ⟨hcut, by simp [hnil]⟩ ⟨hcut', by simp [hnil']⟩ hp hok
  exact ⟨p, p', member, feature, value, hp, hok, h⟩

/-- A parse that may report nothing is never found wrong. By itself the expression takes what is left over into
its node, and as a value it goes without. -/
theorem parseTokens_not_embedded_mute :
    (∀ t ∈ strayValue, t.channel ≠ .comment) ∧
      (openFeature.around strayValue).length ≤ (Settings.standard.withMaxErrors 0).lookahead ∧
      Setup.Unhindered ((Setup.ofTokens strayValue (Settings.standard.withMaxErrors 0)).last .ownedExpression) ∧
      Setup.Unhindered ((Setup.ofTokens (openFeature.around strayValue) (Settings.standard.withMaxErrors 0)).last
        .rootNamespace) ∧
      ∃ p p', (parseTokens .ownedExpression strayValue (Settings.standard.withMaxErrors 0)).1 = .ok p ∧
        p.ok = true ∧
        (parseTokens .rootNamespace (openFeature.around strayValue) (Settings.standard.withMaxErrors 0)).1 = .ok p' ∧
        ∀ n ∈ p'.root.descendants, n.rule = .featureValue → n.field? "value" ≠ some (.node p.root) := by
  obtain ⟨-, hcut, hcut', h, h'⟩ := checked_values
  obtain ⟨p, hp⟩ := parseTokens_answers .ownedExpression strayValue
    (rfl : (Settings.standard.withMaxErrors 0).cancel = none)
  obtain ⟨p', hp'⟩ := parseTokens_answers .rootNamespace (openFeature.around strayValue)
    (rfl : (Settings.standard.withMaxErrors 0).cancel = none)
  rw [hp] at h
  rw [hp'] at h'
  simp only [Except.toOption, Option.any_some, Bool.and_eq_true, beq_iff_eq, List.all_eq_true, Bool.or_eq_true,
    bne_iff_ne, ne_eq] at h h'
  have hnil : p.errors = [] := Parse.ok_eq_true.1 h.1
  have hnil' : p'.errors = [] := Parse.ok_eq_true.1 h'.1
  refine ⟨by decide, by decide, ⟨hcut, ?_⟩, ⟨hcut', ?_⟩, p, p', hp, h.1, hp', fun n hn hrule hvalue => ?_⟩
  · simp [← (rooted_last hp).2, hnil]
  · simp [← (rooted_last hp').2, hnil']
  · have hone := (h'.2 n hn).resolve_left (by simp [hrule])
    simp [hvalue, Child.node?, h.2] at hone

end KermlText
