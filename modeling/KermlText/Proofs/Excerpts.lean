import KermlText.Proofs.Synonyms

/-! Excerpts. Whatever is read by greedy choices has a form, at each level that its operators may be asked for.
And the form of a text that stands in front of another text is its form where it stands alone: what cannot be
read in front of more tokens cannot be read at the end of input either. -/

namespace KermlText

open Grammar Rules

namespace Grammar

variable {g : Grammar} {M : Manner} {job : Job} {p : Part} {w v : List Token} {b c : Builder}

/-- What is left stands at the end of the text. -/
theorem Forms.left_suffix (h : g.Forms M job w b v c) : v <:+ w := by
  induction h with
  | eof | absent _ | none _ | nil | done _ _ => exact List.suffix_rfl
  | token _ _ _ | relation _ _ _ | oneOf _ _ _ _ => exact List.suffix_cons _ _
  | rule _ ih | present _ ih | labeled _ ih | chosen _ _ _ _ _ ih | inlined _ _ _ ih | wrapped _ _ _ ih =>
    exact ih
  | again _ _ ih1 ih2 | cons _ _ ih1 ih2 | climbed _ _ _ ih1 ih2 => exact ih2.trans ih1
  | binary _ _ _ _ _ _ _ ih1 ih2 | suffix _ _ _ _ _ _ _ ih1 ih2 =>
    exact (ih2.trans ih1).trans (List.suffix_cons _ _)

/-! ### Greedy readings have forms -/

theorem exists_cons_of_kinds_cons {w : List Token} {k : Kind} {ks : List Kind} (h : kinds w = k :: ks) :
    ∃ t u, w = t :: u ∧ t.kind = k ∧ kinds u = ks :=
  List.map_eq_cons_iff.1 h

/-- All operators are gone that bind as tightly as the level wants, and the others lead to `v`. -/
def Loosened (g : Grammar) (r : Rule) (level : Nat) (u v : List Kind) : Prop :=
  g.Greedy (.operators r) u v ∧ ∀ t tier q, g.table? r = some t →
    t.lookup (nextKind u) = some (tier, q) → tier.level < level

/-- The part makes a node of what it reads from `w` when it leaves `v`. -/
def Formed (g : Grammar) (w : List Token) (v : List Kind) : Part → Prop
  | .element e => ∀ b, ∃ u c, kinds u = v ∧ g.Forms .free (.element e) w b u c
  | .operand r => ∀ b, ∃ u c, kinds u = v ∧ g.Forms .free (.body r) w b u c
  | .operators r => ∀ table, g.table? r = some table → ∀ level left b, ∃ u c,
      g.Loosened r level (kinds u) v ∧ g.Forms .free (.operators r level left) w b u c

theorem formed_rule {r : Rule} {v x : List Kind} (h1 : g.Formed w x (.operand r))
    (h2 : g.Greedy (.operators r) x v) (h3 : ∀ u, kinds u = x → g.Formed u v (.operators r)) (level : Nat)
    (b : Builder) : ∃ u c, g.Loosened r level (kinds u) v ∧ g.Forms .free (.call r level) w b u c := by
  rcases ht : g.table? r with _ | table
  · have hloosened : g.Loosened r level x v := ⟨h2, fun t _ _ ht' => by cases ht.symm.trans ht'⟩
    rcases hi : (g.definition r).inline with _ | _
    · obtain ⟨u, c, rfl, hform⟩ := h1 (.start r)
      exact ⟨u, _, hloosened, .wrapped ht hi hform⟩
    · obtain ⟨u, c, rfl, hform⟩ := h1 b
      exact ⟨u, c, hloosened, .inlined ht hi hform⟩
  · obtain ⟨x, c, hx, hform⟩ := h1 (.start r)
    obtain ⟨u, d, hloosened, hops⟩ := h3 x hx table ht level (c.single?.getD c.finish) b
    exact ⟨u, d, hloosened, .climbed ht hform hops⟩

/-- Operators that bind too loosely are left alone. -/
theorem formed_done {r : Rule} {level : Nat} {table : Table} {v : List Kind} (ht : g.table? r = some table)
    (hl : ∀ tier q, table.lookup (nextKind (kinds w)) = some (tier, q) → tier.level < level)
    (h : g.Greedy (.operators r) (kinds w) v) (left : Node) (b : Builder) :
    ∃ u c, g.Loosened r level (kinds u) v ∧ g.Forms .free (.operators r level left) w b u c := by
  refine ⟨w, _, ⟨h, fun t tier q ht' => ?_⟩, .done ht hl⟩
  cases ht.symm.trans ht'
  exact hl tier q

/-- A greedy reading has a form, into whatever node in the making. -/
theorem Greedy.formed
    (hn : ∀ r t k tier q, g.table? r = some t → t.lookup k = some (tier, q) → tier.form ≠ .binary →
      g.table? q = Option.none)
    {v : List Kind} (h : g.Greedy p (kinds w) v) : g.Formed w v p := by
  induction hlen : w.length using Nat.strong_induction_on generalizing w v p with | _ n ih =>
  replace hlen : w.length ≤ n := Nat.le_of_eq hlen
  -- what is left of the text is no longer, and behind an operator it is shorter
  have hle : ∀ {p} {w u : List Token}, g.Greedy p (kinds w) (kinds u) → u.length ≤ w.length := by
    intro p w u h
    simpa [kinds] using h.length_le
  have hless : ∀ {p} {u : List Token} {v : List Kind}, g.Greedy p (kinds u) v → u.length < n → g.Formed u v p :=
    fun h hu => ih _ hu h rfl
  generalize hw : kinds w = ks at h
  induction h generalizing w with
  | eof =>
    obtain rfl : w = [] := List.map_eq_nil_iff.1 hw
    exact fun b => ⟨[], b, rfl, .eof⟩
  | token hk =>
    obtain ⟨t, u, rfl, ht, hu⟩ := exists_cons_of_kinds_cons hw
    exact fun b => ⟨u, _, hu, .token ht hk trivial⟩
  | relation hk =>
    obtain ⟨t, u, rfl, ht, hu⟩ := exists_cons_of_kinds_cons hw
    exact fun b => ⟨u, _, hu, .relation ht hk trivial⟩
  | oneOf h hk hc =>
    obtain ⟨t, u, rfl, rfl, hu⟩ := exists_cons_of_kinds_cons hw
    exact fun b => ⟨u, _, hu, .oneOf h hk hc trivial⟩
  | rule h1 h2 ih1 ih2 =>
    subst hw
    have hops : ∀ u, kinds u = _ → g.Formed u _ _ := fun u hu =>
      ih2 (Nat.le_trans (hle (hu.symm ▸ h1)) hlen) hu
    intro b
    obtain ⟨u, c, hloosened, hform⟩ := formed_rule (ih1 hlen rfl) h2 hops 0 b
    exact ⟨u, c, hloosened.1.eq_of_level hloosened.2, .rule hform⟩
  | operand ha hl hi h ih =>
    intro b
    obtain ⟨u, c, hu, hform⟩ := ih hlen hw b
    exact ⟨u, c, hu, .chosen ha hl (hw ▸ hi) trivial hform⟩
  | present _ ih =>
    intro b
    obtain ⟨u, c, hu, hform⟩ := ih hlen hw b
    exact ⟨u, c, hu, .present hform⟩
  | absent h => exact fun b => ⟨w, b, hw, .absent (hw ▸ .absent h)⟩
  | again h1 _ ih1 ih2 =>
    subst hw
    intro b
    obtain ⟨x, c, rfl, hform⟩ := ih1 hlen rfl b
    obtain ⟨u, d, hu, hrest⟩ := ih2 (Nat.le_trans (hle h1) hlen) rfl c
    exact ⟨u, d, hu, .again hform hrest⟩
  | none h => exact fun b => ⟨w, b, hw, .none (hw ▸ h)⟩
  | nil => exact fun b => ⟨w, b, hw, .nil⟩
  | cons h1 _ ih1 ih2 =>
    subst hw
    intro b
    obtain ⟨x, c, rfl, hform⟩ := ih1 hlen rfl b
    obtain ⟨u, d, hu, hrest⟩ := ih2 (Nat.le_trans (hle h1) hlen) rfl c
    exact ⟨u, d, hu, .cons hform hrest⟩
  | labeled _ ih =>
    intro b
    obtain ⟨u, c, hu, hform⟩ := ih hlen hw b
    exact ⟨u, _, hu, .labeled hform⟩
  | plain ht =>
    intro table ht'
    cases ht.symm.trans ht'
  | @done r table ks ht hl =>
    subst hw
    intro table' ht' level left b
    cases ht.symm.trans ht'
    exact formed_done ht (fun tier q h => by cases hl.symm.trans h) (.done ht hl) left b
  | @binary r table tier q k ks v ht hl hf h _ =>
    intro table' ht' level left b
    cases ht.symm.trans ht'
    obtain ⟨t, x, rfl, rfl, rfl⟩ := exists_cons_of_kinds_cons hw
    have hx : x.length < n := Nat.lt_of_lt_of_le (Nat.lt_succ_self _) hlen
    rcases Nat.lt_or_ge tier.level level with hlevel | hlevel
    · refine formed_done (w := t :: x) ht (fun tier' q' h' => ?_) (.binary ht hl hf h) left b
      cases hl.symm.trans h'
      exact hlevel
    cases h with | rule h1 h2 =>
    obtain ⟨u, c, ⟨hrest, -⟩, hright⟩ := formed_rule (hless h1 hx) h2
      (fun y hy => hless (hy.symm ▸ h2) (Nat.lt_of_le_of_lt (hle (hy.symm ▸ h1)) hx)) tier.operandLevel
      (.operator q left t)
    have hu : u.length < n := Nat.lt_of_le_of_lt hright.left_suffix.length_le hx
    obtain ⟨y, d, hloosened, hops⟩ := hless hrest hu table ht level
      (c.label "right" false (Builder.operator q left t).size false Option.none).finish b
    exact ⟨y, d, hloosened, .binary ht hl hlevel hf trivial hright hops⟩
  | @suffix r table tier q k ks x v ht hl hf h1 h2 _ _ =>
    intro table' ht' level left b
    cases ht.symm.trans ht'
    obtain ⟨t, w, rfl, rfl, rfl⟩ := exists_cons_of_kinds_cons hw
    have hw : w.length < n := Nat.lt_of_lt_of_le (Nat.lt_succ_self _) hlen
    rcases Nat.lt_or_ge tier.level level with hlevel | hlevel
    · refine formed_done (w := t :: w) ht (fun tier' q' h' => ?_) (.suffix ht hl hf h1 h2) left b
      cases hl.symm.trans h'
      exact hlevel
    cases h1 with | rule h1 h3 =>
    obtain rfl := h3.of_plain (hn _ _ _ _ _ ht hl hf)
    obtain ⟨u, c, rfl, hbody⟩ := hless h1 hw (.operator q left t)
    obtain ⟨y, d, hloosened, hops⟩ := hless h2 (Nat.lt_of_le_of_lt (hle h1) hw) table ht level c.finish b
    exact ⟨y, d, hloosened, .suffix ht hl hlevel hf trivial hbody hops⟩

/-! ### Nodes of operators -/

/-- Behind operators one node is added, the same to any node in the making. -/
theorem Forms.pushes_operators {r : Rule} {level : Nat} {left : Node}
    (h : g.Forms M (.operators r level left) w b v c) :
    ∃ n, c = b.pushNode n ∧ ∀ d, g.Forms M (.operators r level left) w d v (d.pushNode n) := by
  generalize hq : Job.operators r level left = job at h
  induction h generalizing left with
  | eof | token _ _ _ | relation _ _ _ | oneOf _ _ _ _ | rule _ | present _ | absent _ | again _ _ | none _
  | nil | cons _ _ | labeled _ | chosen _ _ _ _ _ | inlined _ _ _ | wrapped _ _ _ | climbed _ _ _ => cases hq
  | done ht hl =>
    cases hq
    exact ⟨_, rfl, fun d => .done ht hl⟩
  | binary ht hl hle hf hm h1 _ _ ih =>
    cases hq
    obtain ⟨n, hn, h⟩ := ih rfl
    exact ⟨n, hn, fun d => .binary ht hl hle hf hm h1 (h d)⟩
  | suffix ht hl hle hf hm h1 _ _ ih =>
    cases hq
    obtain ⟨n, hn, h⟩ := ih rfl
    exact ⟨n, hn, fun d => .suffix ht hl hle hf hm h1 (h d)⟩

/-- A rule with operators makes one node, wherever it is mentioned. -/
theorem Forms.pushes {r : Rule} {table : Table} {level : Nat} (ht : g.table? r = some table)
    (h : g.Forms M (.call r level) w b v c) :
    ∃ n, c = b.pushNode n ∧ ∀ d, g.Forms M (.call r level) w d v (d.pushNode n) := by
  cases h with
  | inlined ht' _ _ => cases ht.symm.trans ht'
  | wrapped ht' _ _ => cases ht.symm.trans ht'
  | climbed ht' h1 h2 =>
    obtain ⟨n, hn, h⟩ := h2.pushes_operators
    exact ⟨n, hn, fun d => .climbed ht' h1 (h d)⟩

end Grammar

/-! ### Texts that stand alone -/

/-- Whether the pattern stays inside a text: it asks neither for the end of input nor for a whole text. -/
def Pattern.isInner : Pattern → Bool
  | .never | .empty | .one _ => true
  | .finish => false
  | .either a b | .both a b => a.isInner && b.isInner
  | .many a => a.isInner
  | .call r => r != .rootNamespace

mutual

theorem Element.isInner_pattern : ∀ e : Element, e.all Element.isInner = true → e.pattern.isInner = true
  | .token k, h | .relation k _, h => by
    simp only [Element.all, Element.isInner, Bool.and_eq_true, bne_iff_ne] at h
    simp [Element.pattern, h.1, Pattern.isInner]
  | .oneOf _, _ | .comment, _ => rfl
  | .rule r, h | .ruleAt r _, h => by simpa [Element.all, Element.isInner, Element.pattern, Pattern.isInner] using h
  | .optional e, h => by
    simp only [Element.all, Element.isInner, Bool.true_and] at h
    simpa [Element.pattern, Pattern.isInner] using Element.isInner_pattern e h
  | .repeated e least _, h => by
    simp only [Element.all, Element.isInner, Bool.true_and] at h
    have hitem := Element.isInner_pattern e h
    unfold Element.pattern Pattern.times
    split <;> simp [Pattern.isInner, hitem]
  | .seq es, h => by
    simp only [Element.all, Element.isInner, Bool.true_and] at h
    exact isInner_rowPattern es h
  | .labeled _ _ e, h => by
    simp only [Element.all, Element.isInner, Bool.true_and] at h
    exact Element.isInner_pattern e h

theorem isInner_rowPattern : ∀ es : List Element, rowAll Element.isInner es = true →
    (rowPattern es).isInner = true
  | [], _ => rfl
  | e :: es, h => by
    simp only [rowAll, Bool.and_eq_true] at h
    simp [rowPattern, Pattern.isInner, Element.isInner_pattern e h.1, isInner_rowPattern es h.2]

end

theorem isInner_pattern {r : Rule} (hr : r ≠ .rootNamespace) : (kerml.pattern r).isInner = true := by
  have h : ∀ r ∈ Rule.all, (r == .rootNamespace || (kerml.pattern r).isInner) = true := by decide +kernel
  simpa [hr] using h r (Rule.mem_all r)

namespace Grammar

theorem Matches.longer {ss : List Pattern} {x z : List Kind} (h : kerml.Matches (· = z) ss x)
    (hs : ss.all Pattern.isInner = true) (y : List Kind) : kerml.Matches (· = z ++ y) ss (x ++ y) := by
  induction h with
  | nil h => exact .nil (congrArg (· ++ y) h)
  | empty _ ih => exact .empty (ih (by simpa [Pattern.isInner] using hs))
  | finish _ _ => simp [Pattern.isInner] at hs
  | one hk _ ih => exact .one hk (ih (by simpa [Pattern.isInner] using hs))
  | left _ ih => exact .left (ih (by simp_all [Pattern.isInner]))
  | right _ ih => exact .right (ih (by simp_all [Pattern.isInner]))
  | both _ ih => exact .both (ih (by simp_all [Pattern.isInner]))
  | stop _ ih => exact .stop (ih (by simp_all [Pattern.isInner]))
  | again _ ih => exact .again (ih (by simp_all [Pattern.isInner]))
  | @call r _ _ _ ih =>
    have hr : r ≠ .rootNamespace := by
      rintro rfl
      simp [Pattern.isInner] at hs
    exact .call (ih (by simp_all [Pattern.isInner, isInner_pattern hr]))

/-- What opens a text opens a longer one. -/
theorem Opens.longer {s : Pattern} {x : List Kind} (h : kerml.Opens s x) (hs : s.isInner = true)
    (y : List Kind) : kerml.Opens s (x ++ y) := by
  obtain ⟨z, h⟩ := h
  exact ⟨z ++ y, Matches.longer h (by simpa using hs) y⟩

/-- The job stays inside a text, and its optional elements are not there without a token. -/
def JobInner : Job → Prop
  | .element e => e.all Element.isInner = true ∧ e.all (Element.optionTakes kerml.solid) = true
  | .body r | .call r _ | .operators r _ _ => r ≠ .rootNamespace

/-- No operator asks for a whole text. -/
theorem ne_rootNamespace_of_lookup {r q : Rule} {table : Table} {k : Kind} {tier : Tier}
    (ht : kerml.table? r = some table) (hl : table.lookup k = some (tier, q)) : q ≠ .rootNamespace := by
  obtain ⟨htier, ho⟩ := Table.mem_tiers_of_lookup hl
  have hall : ∀ t ∈ [operatorTable, suffixTable], ∀ tier ∈ t.tiers, ∀ o ∈ tier.operators,
      o.2 ≠ .rootNamespace := by decide
  have hmem : table ∈ [operatorTable, suffixTable] := by
    rcases table_kerml ht with ⟨-, rfl⟩ | ⟨-, rfl⟩ <;> simp
  exact hall table hmem tier htier _ ho

/-- The form of a text that stands in front of another text is its form alone as well. -/
theorem Forms.alone (h : kerml.Forms .free job w b v c) (hj : JobInner job) {x y : List Token}
    (hv : v = x ++ y) : ∃ z, w = z ++ y ∧ kerml.Forms .free job z b x c := by
  have hopens : ∀ {e : Element} {z : List Token}, ¬ kerml.Opens e.pattern (kinds (z ++ y)) →
      e.all Element.isInner = true → ¬ kerml.Opens e.pattern (kinds z) := by
    intro e z h he ho
    rw [kinds_append] at h
    exact h (ho.longer (e.isInner_pattern he) (kinds y))
  induction h generalizing x with
  | eof =>
    obtain ⟨rfl, rfl⟩ := List.append_eq_nil_iff.1 hv.symm
    exact ⟨[], rfl, .eof⟩
  | @token _ t _ _ ht hk hm => exact ⟨t :: x, by simp [hv], .token ht hk trivial⟩
  | @relation _ _ t _ _ ht hk hm => exact ⟨t :: x, by simp [hv], .relation ht hk trivial⟩
  | @oneOf _ t _ _ h hk hc hm => exact ⟨t :: x, by simp [hv], .oneOf h hk hc trivial⟩
  | @rule r _ _ _ _ _ ih =>
    obtain ⟨z, rfl, h⟩ := ih (by simpa [JobInner, Element.all, Element.isInner, Element.optionTakes] using hj) hv
    exact ⟨z, rfl, .rule h⟩
  | present _ ih =>
    simp only [JobInner, Element.all, Bool.and_eq_true] at hj
    obtain ⟨z, rfl, h⟩ := ih ⟨hj.1.2, hj.2.2⟩ hv
    exact ⟨z, rfl, .present h⟩
  | @absent e _ _ h =>
    subst hv
    simp only [JobInner, Element.all, Element.optionTakes, Bool.and_eq_true] at hj
    refine ⟨x, rfl, .absent (.absent (hopens ?_ hj.1.2))⟩
    cases h with
    | present h => exact absurd (h.length_lt founded_kerml hj.2.1) (Nat.lt_irrefl _)
    | absent h => exact h
  | again _ _ ih1 ih2 =>
    have hj' := hj
    simp only [JobInner, Element.all, Bool.and_eq_true] at hj
    obtain ⟨u, hu, h2⟩ := ih2 hj' hv
    obtain ⟨z, rfl, h1⟩ := ih1 ⟨hj.1.2, hj.2.2⟩ hu
    exact ⟨z, rfl, .again h1 h2⟩
  | none h =>
    subst hv
    simp only [JobInner, Element.all, Bool.and_eq_true] at hj
    exact ⟨x, rfl, .none (hopens h hj.1.2)⟩
  | nil => exact ⟨x, hv, .nil⟩
  | cons _ _ ih1 ih2 =>
    simp only [JobInner, Element.all, rowAll, Element.isInner, Element.optionTakes, Bool.true_and,
      Bool.and_eq_true] at hj ih1 ih2
    obtain ⟨u, hu, h2⟩ := ih2 ⟨hj.1.2, hj.2.2⟩ hv
    obtain ⟨z, rfl, h1⟩ := ih1 ⟨hj.1.1, hj.2.1⟩ hu
    exact ⟨z, rfl, .cons h1 h2⟩
  | labeled _ ih =>
    simp only [JobInner, Element.all, Bool.and_eq_true] at hj
    obtain ⟨z, rfl, h⟩ := ih ⟨hj.1.2, hj.2.2⟩ hv
    exact ⟨z, rfl, .labeled h⟩
  | chosen ha hl hi hm _ ih =>
    have hmem := List.mem_of_getElem? ha
    obtain ⟨z, rfl, h⟩ := ih (by simp [JobInner, Element.all, Element.isInner, Element.optionTakes,
      rowAll_isInner hj hmem, optionTakes_kerml hmem]) hv
    refine ⟨z, rfl, .chosen ha hl (fun j hlt a' ha' hl' ho => hi j hlt a' ha' hl' ?_) trivial h⟩
    have hinner := isInner_rowPattern _ (rowAll_isInner hj (List.mem_of_getElem? ha'))
    rw [kinds_append]
    exact ho.longer hinner _
  | inlined ht hi _ ih =>
    obtain ⟨z, rfl, h⟩ := ih hj hv
    exact ⟨z, rfl, .inlined ht hi h⟩
  | wrapped ht hi _ ih =>
    obtain ⟨z, rfl, h⟩ := ih hj hv
    exact ⟨z, rfl, .wrapped ht hi h⟩
  | climbed ht _ _ ih1 ih2 =>
    obtain ⟨u, hu, h2⟩ := ih2 hj hv
    obtain ⟨z, rfl, h1⟩ := ih1 hj hu
    exact ⟨z, rfl, .climbed ht h1 h2⟩
  | @done r table level left _ _ ht hl =>
    subst hv
    refine ⟨x, rfl, .done ht fun tier q h => ?_⟩
    cases x with
    | nil => cases (founded_kerml.eof _ _ ht).symm.trans h
    | cons t x => exact hl tier q h
  | @binary _ _ _ _ _ _ t _ _ _ _ _ _ ht hl hle hf hm _ _ ih1 ih2 =>
    obtain ⟨u, hu, h2⟩ := ih2 hj hv
    obtain ⟨z, rfl, h1⟩ := ih1 hj hu
    exact ⟨t :: z, rfl, .binary ht hl hle hf trivial h1 h2⟩
  | @suffix _ _ _ _ _ q t _ _ _ _ _ _ ht hl hle hf hm _ _ ih1 ih2 =>
    obtain ⟨u, hu, h2⟩ := ih2 hj hv
    obtain ⟨z, rfl, h1⟩ := ih1 (ne_rootNamespace_of_lookup ht hl) hu
    exact ⟨t :: z, rfl, .suffix ht hl hle hf trivial h1 h2⟩

end Grammar

end KermlText
