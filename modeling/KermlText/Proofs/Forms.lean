import KermlText.Proofs.Greedy
import KermlText.Tree.Builder

/-! Forms: greedy readings of tokens together with the nodes that they make. What a form says of a text is
what a greedy reading says of the kinds in it, so a text has one form at most. Operators are kept apart by
their levels here, as they are in the tree. -/

namespace KermlText

/-- The kinds of tokens. -/
def kinds (w : List Token) : List Kind := w.map (·.kind)

@[simp] theorem kinds_nil : kinds [] = [] := rfl

@[simp] theorem kinds_cons (t : Token) (w : List Token) : kinds (t :: w) = t.kind :: kinds w := rfl

@[simp] theorem kinds_append (w v : List Token) : kinds (w ++ v) = kinds w ++ kinds v :=
  List.map_append

namespace Stream

variable (s : Stream)

/-- The default-channel tokens from a place on. -/
def rest (pos : Nat) : List Token := (s.stretch pos s.size).filter fun t => t.channel = .default

theorem kinds_rest (pos : Nat) : kinds (s.rest pos) = s.ahead pos := rfl

variable {s}

/-- What is kept is what counts, so the rest is what was kept and what is left. -/
theorem Kept.rest {i j : Nat} {ts : List Token} (h : s.Kept i ts j) :
    s.rest i = ts.filter (fun t => t.channel = .default) ++ s.rest j := by
  unfold Stream.rest
  rw [← s.stretch_append h.le h.le_size, List.filter_append, h.default]

theorem rest_of_atEnd {i : Nat} (h : s.atEnd i = true) : s.rest i = [] := by
  have ha := ahead_of_atEnd h
  rwa [← kinds_rest, kinds, List.map_eq_nil_iff] at ha

theorem rest_of_not_atEnd {i : Nat} (hi : i ≤ s.size) (h : s.atEnd i = false) :
    s.rest i = s.current i :: s.rest (s.settle i + 1) := by
  have hc : (s.current i).channel = .default := s.channel_settle (s.settle_lt_of_not_atEnd h)
  rw [(Kept.current hi h).rest, List.filter_cons_of_pos (by simpa using hc)]
  rfl

end Stream

/-- What makes nodes. Operators are read behind `left`. -/
inductive Job where
  | element (e : Element)
  /-- An alternative of a rule, into the node of the rule. -/
  | body (r : Rule)
  /-- A rule where it is mentioned. -/
  | call (r : Rule) (level : Nat)
  | operators (r : Rule) (level : Nat) (left : Node)

/-- What is known of the places in a text: in front of which tokens one may be taken, as a token or for a
relation, and in front of which tokens an alternative may end. -/
structure Manner where
  takes : Option Relation → List Token → Prop
  ends : Rule → Nat → List Token → Prop

/-- Nothing is known. -/
def Manner.free : Manner := ⟨fun _ _ => True, fun _ _ _ => True⟩

/-- Whether an element that may be left out takes a token where it is not. -/
def Element.optionTakes (solid : Rule → Bool) : Element → Bool
  | .optional e => e.takes solid
  | _ => true

namespace Grammar

/-- By greedy choices the job reads tokens and leaves others, and makes a node in the making into another
one. -/
inductive Forms (g : Grammar) (M : Manner) :
    Job → List Token → Builder → List Token → Builder → Prop
  | eof {b} : Forms g M (.element (.token .eof)) [] b [] b
  | token {k t w b} (ht : t.kind = k) (hk : k ≠ .eof) (hm : M.takes none (t :: w)) :
      Forms g M (.element (.token k)) (t :: w) b w (b.pushToken t)
  | relation {k r t w b} (ht : t.kind = k) (hk : k ≠ .eof) (hm : M.takes (some r) (t :: w)) :
      Forms g M (.element (.relation k r)) (t :: w) b w (b.pushToken t)
  | oneOf {ks t w b} (h : ks.contains t.kind = true) (hk : t.kind ≠ .eof)
      (hc : t.kind ≠ .blockComment) (hm : M.takes none (t :: w)) :
      Forms g M (.element (.oneOf ks)) (t :: w) b w (b.pushToken t)
  | rule {r w b v c} (h : Forms g M (.call r 0) w b v c) : Forms g M (.element (.rule r)) w b v c
  | present {e w b v c} (h : Forms g M (.element e) w b v c) :
      Forms g M (.element (.optional e)) w b v c
  | absent {e w b} (h : g.Greedy (.element (.optional e)) (kinds w) (kinds w)) :
      Forms g M (.element (.optional e)) w b w b
  | again {e least resync w b v c u d} (h1 : Forms g M (.element e) w b v c)
      (h2 : Forms g M (.element (.repeated e (least - 1) resync)) v c u d) :
      Forms g M (.element (.repeated e least resync)) w b u d
  | none {e resync w b} (h : ¬ g.Opens e.pattern (kinds w)) :
      Forms g M (.element (.repeated e 0 resync)) w b w b
  | nil {w b} : Forms g M (.element (.seq [])) w b w b
  | cons {e es w b v c u d} (h1 : Forms g M (.element e) w b v c)
      (h2 : Forms g M (.element (.seq es)) v c u d) : Forms g M (.element (.seq (e :: es))) w b u d
  | labeled {name many e w b v c} (h : Forms g M (.element e) w b v c) :
      Forms g M (.element (.labeled name many e)) w b v
        (c.label name many b.size e.catchesTokens e.relation?)
  | chosen {r i a w b v c} (ha : (g.alternatives r)[i]? = some a) (hl : a.leftRecursive = false)
      (hi : g.Foremost r i (kinds w)) (hm : M.ends r i v)
      (h : Forms g M (.element (.seq a.elements)) w b v c) : Forms g M (.body r) w b v c
  | inlined {r level w b v c} (ht : g.table? r = Option.none)
      (hi : (g.definition r).inline = true) (h : Forms g M (.body r) w b v c) :
      Forms g M (.call r level) w b v c
  | wrapped {r level w b v c} (ht : g.table? r = Option.none)
      (hi : (g.definition r).inline = false) (h : Forms g M (.body r) w (.start r) v c) :
      Forms g M (.call r level) w b v (b.pushNode c.finish)
  | climbed {r table level w b v c u d} (ht : g.table? r = some table)
      (h1 : Forms g M (.body r) w (.start r) v c)
      (h2 : Forms g M (.operators r level (c.single?.getD c.finish)) v b u d) :
      Forms g M (.call r level) w b u d
  | done {r table level left w b} (ht : g.table? r = some table)
      (hl : ∀ tier q, table.lookup (nextKind (kinds w)) = some (tier, q) → tier.level < level) :
      Forms g M (.operators r level left) w b w (b.pushNode left)
  | binary {r table level left tier q t w b v c u d} (ht : g.table? r = some table)
      (hl : table.lookup t.kind = some (tier, q)) (hle : level ≤ tier.level)
      (hf : tier.form = .binary) (hm : M.takes none (t :: w))
      (h1 : Forms g M (.call r tier.operandLevel) w (.operator q left t) v c)
      (h2 : Forms g M (.operators r level
        (c.label "right" false (Builder.operator q left t).size false none).finish) v b u d) :
      Forms g M (.operators r level left) (t :: w) b u d
  | suffix {r table level left tier q t w b v c u d} (ht : g.table? r = some table)
      (hl : table.lookup t.kind = some (tier, q)) (hle : level ≤ tier.level)
      (hf : tier.form ≠ .binary) (hm : M.takes none (t :: w))
      (h1 : Forms g M (.body q) w (.operator q left t) v c)
      (h2 : Forms g M (.operators r level c.finish) v b u d) :
      Forms g M (.operators r level left) (t :: w) b u d

variable {g : Grammar} {M : Manner} {job : Job} {w v w' v' : List Token} {b c c' : Builder}

/-! ### Forms are greedy readings -/

/-- The kinds of a job are read greedily. Operators that bind too loosely are left, so what is read behind
those that are taken is read by the job as well. -/
def JobGreedy (g : Grammar) (w v : List Kind) : Job → Prop
  | .element e => g.Greedy (.element e) w v
  | .body r => g.Greedy (.operand r) w v
  | .call r level => (∀ u, g.Greedy (.operators r) v u → g.Greedy (.element (.rule r)) w u) ∧
      ∀ t tier q, g.table? r = some t → t.lookup (nextKind v) = some (tier, q) → tier.level < level
  | .operators r level _ => (∀ u, g.Greedy (.operators r) v u → g.Greedy (.operators r) w u) ∧
      ∀ t tier q, g.table? r = some t → t.lookup (nextKind v) = some (tier, q) → tier.level < level

/-- No operator binds more loosely than level 0, so none is left at that level. -/
theorem greedy_operators_of_level {r : Rule} {v : List Kind}
    (h : ∀ t tier q, g.table? r = some t → t.lookup (nextKind v) = some (tier, q) → tier.level < 0) :
    g.Greedy (.operators r) v v := by
  rcases ht : g.table? r with _ | t
  · exact .plain ht
  · refine .done ht ?_
    rcases hl : t.lookup (nextKind v) with _ | ⟨tier, q⟩
    · rfl
    · exact absurd (h t tier q ht hl) (Nat.not_lt_zero _)

theorem Forms.greedy
    (hn : ∀ r t k tier q, g.table? r = some t → t.lookup k = some (tier, q) → tier.form ≠ .binary →
      g.table? q = Option.none)
    (h : g.Forms M job w b v c) : g.JobGreedy (kinds w) (kinds v) job := by
  induction h with
  | eof => exact .eof
  | token ht hk _ =>
    subst ht
    exact .token hk
  | relation ht hk _ =>
    subst ht
    exact .relation hk
  | oneOf h hk hc _ => exact .oneOf h hk hc
  | rule _ ih => exact ih.1 _ (greedy_operators_of_level ih.2)
  | present _ ih => exact .present ih
  | absent h => exact h
  | again _ _ ih1 ih2 => exact .again ih1 ih2
  | none h => exact .none h
  | nil => exact .nil
  | cons _ _ ih1 ih2 => exact .cons ih1 ih2
  | labeled _ ih => exact .labeled ih
  | chosen ha hl hi _ _ ih => exact .operand ha hl hi ih
  | inlined ht _ _ ih | wrapped ht _ _ ih =>
    exact ⟨fun u hu => .rule ih hu, fun t _ _ ht' => by cases ht.symm.trans ht'⟩
  | climbed _ _ _ ih1 ih2 => exact ⟨fun u hu => .rule ih1 (ih2.1 u hu), ih2.2⟩
  | done ht hl =>
    refine ⟨fun u hu => hu, fun t tier q ht' h => hl tier q ?_⟩
    cases ht.symm.trans ht'
    exact h
  | binary ht hl _ hf _ _ _ ih1 ih2 =>
    exact ⟨fun u hu => .binary ht hl hf (ih1.1 u (ih2.1 u hu)), ih2.2⟩
  | suffix ht hl _ hf _ _ _ ih1 ih2 =>
    refine ⟨fun u hu => .suffix ht hl hf (.rule ih1 (.plain ?_)) (ih2.1 u hu), ih2.2⟩
    exact hn _ _ _ _ _ ht hl hf

/-! ### There is one form at most -/

/-- Where an element is left out or not is to be seen from what is left. -/
def JobSolid (g : Grammar) : Job → Prop
  | .element e => e.all (Element.optionTakes g.solid) = true
  | .body _ | .call _ _ | .operators _ _ _ => True

/-- What a job leaves and what it makes is settled by the text. -/
theorem Forms.unique {M' : Manner} (hg : g.Founded)
    (hn : ∀ r t k tier q, g.table? r = some t → t.lookup k = some (tier, q) → tier.form ≠ .binary →
      g.table? q = Option.none)
    (hs : ∀ r, ∀ a ∈ g.alternatives r, rowAll (Element.optionTakes g.solid) a.elements = true)
    (h : g.Forms M job w b v c) (h' : g.Forms M' job w b v' c') (hj : g.JobSolid job) :
    v = v' ∧ c = c' := by
  have hopens : ∀ {M e w b v c}, g.Forms M (.element e) w b v c → g.Opens e.pattern (kinds w) :=
    fun h => (h.greedy hn).opens
  -- what takes a token is not left out
  have hoption : ∀ {M e w b v c}, g.Forms M (.element e) w b v c → e.takes g.solid = true →
      ¬ g.Greedy (.element (.optional e)) (kinds w) (kinds w) := by
    intro M e w b v c h ht h'
    cases h' with
    | present h' => exact absurd (h'.length_lt hg ht) (Nat.lt_irrefl _)
    | absent h' => exact h' (hopens h)
  induction h generalizing v' c' with
  | eof => cases h' with
    | eof => exact ⟨rfl, rfl⟩
  | token => cases h' with
    | token => exact ⟨rfl, rfl⟩
  | relation => cases h' with
    | relation => exact ⟨rfl, rfl⟩
  | oneOf => cases h' with
    | oneOf => exact ⟨rfl, rfl⟩
  | rule _ ih => cases h' with
    | rule h' => exact ih h' trivial
  | present h ih =>
    simp only [JobSolid, Element.all, Element.optionTakes, Bool.and_eq_true] at hj
    cases h' with
    | present h' => exact ih h' hj.2
    | absent h' => exact absurd h' (hoption h hj.1)
  | absent h =>
    simp only [JobSolid, Element.all, Element.optionTakes, Bool.and_eq_true] at hj
    cases h' with
    | present h' => exact absurd h (hoption h' hj.1)
    | absent _ => exact ⟨rfl, rfl⟩
  | again h1 h2 ih1 ih2 =>
    have hj' := hj
    simp only [JobSolid, Element.all, Bool.and_eq_true] at hj
    cases h' with
    | again h1' h2' =>
      obtain ⟨rfl, rfl⟩ := ih1 h1' hj.2
      exact ih2 h2' hj'
    | none h' => exact absurd (hopens h1) h'
  | none h => cases h' with
    | again h1' _ => exact absurd (hopens h1') h
    | none _ => exact ⟨rfl, rfl⟩
  | nil => cases h' with
    | nil => exact ⟨rfl, rfl⟩
  | cons _ _ ih1 ih2 =>
    simp only [JobSolid, Element.all, rowAll, Bool.and_eq_true] at hj
    cases h' with
    | cons h1' h2' =>
      obtain ⟨rfl, rfl⟩ := ih1 h1' hj.2.1
      exact ih2 h2' (by simp [JobSolid, Element.all, Element.optionTakes, hj.2.2])
  | labeled _ ih =>
    simp only [JobSolid, Element.all, Bool.and_eq_true] at hj
    cases h' with
    | labeled h' =>
      obtain ⟨rfl, rfl⟩ := ih h' hj.2
      exact ⟨rfl, rfl⟩
  | @chosen r i a w _ _ _ ha hl hi _ h ih => cases h' with
    | @chosen _ j a' _ _ _ _ ha' hl' hi' _ h' =>
      -- each of the two alternatives can be read, so neither stands in front of the other
      rcases Nat.lt_trichotomy i j with hlt | rfl | hlt
      · exact absurd (hopens h) (hi' i hlt a ha hl)
      · rw [ha] at ha'
        cases ha'
        refine ih h' ?_
        simp [JobSolid, Element.all, Element.optionTakes, hs r a (List.mem_of_getElem? ha)]
      · exact absurd (hopens h') (hi j hlt a' ha' hl')
  | inlined ht hi _ ih => cases h' with
    | inlined _ _ h' => exact ih h' trivial
    | wrapped _ hi' _ => cases hi.symm.trans hi'
    | climbed ht' _ _ => cases ht.symm.trans ht'
  | wrapped ht hi _ ih => cases h' with
    | inlined _ hi' _ => cases hi.symm.trans hi'
    | wrapped _ _ h' =>
      obtain ⟨rfl, rfl⟩ := ih h' trivial
      exact ⟨rfl, rfl⟩
    | climbed ht' _ _ => cases ht.symm.trans ht'
  | climbed ht _ _ ih1 ih2 => cases h' with
    | inlined ht' _ _ => cases ht.symm.trans ht'
    | wrapped ht' _ _ => cases ht.symm.trans ht'
    | climbed _ h1' h2' =>
      obtain ⟨rfl, rfl⟩ := ih1 h1' trivial
      exact ih2 h2' trivial
  | done ht hl => cases h' with
    | done => exact ⟨rfl, rfl⟩
    | binary ht' hl' hle _ _ _ _ | suffix ht' hl' hle _ _ _ _ =>
      cases ht.symm.trans ht'
      exact absurd (hl _ _ hl') (Nat.not_lt.2 hle)
  | binary ht hl hle hf _ _ _ ih1 ih2 => cases h' with
    | done ht' hl' =>
      cases ht.symm.trans ht'
      exact absurd (hl' _ _ hl) (Nat.not_lt.2 hle)
    | binary ht' hl' _ _ _ h1' h2' =>
      cases ht.symm.trans ht'
      cases hl.symm.trans hl'
      obtain ⟨rfl, rfl⟩ := ih1 h1' trivial
      exact ih2 h2' trivial
    | suffix ht' hl' _ hf' _ _ _ =>
      cases ht.symm.trans ht'
      cases hl.symm.trans hl'
      exact absurd hf hf'
  | suffix ht hl hle hf _ _ _ ih1 ih2 => cases h' with
    | done ht' hl' =>
      cases ht.symm.trans ht'
      exact absurd (hl' _ _ hl) (Nat.not_lt.2 hle)
    | binary ht' hl' _ hf' _ _ _ =>
      cases ht.symm.trans ht'
      cases hl.symm.trans hl'
      exact absurd hf' hf
    | suffix ht' hl' _ _ _ h1' h2' =>
      cases ht.symm.trans ht'
      cases hl.symm.trans hl'
      obtain ⟨rfl, rfl⟩ := ih1 h1' trivial
      exact ih2 h2' trivial

end Grammar

end KermlText
