import KermlText.Proofs.Invariants

/-! Every parse ends. No loop of the parser or of a trial uses up its rounds, so a parse gives a tree
unless it is called off. And a list that goes round once more has moved on: in the parser, also where
it recovers and also in a parse that is called off later, and in the trials ahead of it. -/

namespace KermlText

deriving instance DecidableEq for Event

/-! ### Lists that go round -/

/-- Every list that went round once more had moved on. -/
def Session.Ascends (x : Session) : Prop :=
  ∀ before after, Event.again before after ∈ x.journal → before < after

namespace Session.Ascends

variable {x : Session}

/-- Events of other kinds do not matter. -/
theorem noted (h : x.Ascends) {e : Event} (he : ∀ p q, e ≠ .again p q) : (x.noted e).Ascends := by
  intro p q hm
  rcases List.mem_cons.1 hm with hm | hm
  · exact absurd hm.symm (he p q)
  · exact h p q hm

theorem again (h : x.Ascends) {before after : Nat} (hlt : before < after) :
    (x.noted (.again before after)).Ascends := by
  intro p q hm
  rcases List.mem_cons.1 hm with he | hm
  · cases he
    exact hlt
  · exact h p q hm

theorem skippedOver (h : x.Ascends) (context : KindSet) (places : List Nat) :
    (x.skippedOver context places).Ascends := by
  unfold Session.skippedOver
  split
  · exact h
  · intro p q hm
    refine h p q ((List.mem_append.1 hm).resolve_left fun hs => ?_)
    simp at hs

theorem reported (h : x.Ascends) (u : Setup) (code : Code) (r : Rule) (expected : KindSet) :
    (u.reported code r expected x).Ascends := by
  unfold Setup.reported
  split
  · exact h.noted (by simp)
  · split
    · exact h
    · exact h.noted (e := .reported) (by simp)

end Session.Ascends

/-- Only `again` says that a list goes round, and it says so behind the place of the round before. -/
theorem Setup.keeps_ascends (u : Setup) : u.Keeps Session.Ascends where
  called h := h.noted (by simp)
  opened h := h.noted (by simp)
  asked h := h.noted (by simp)
  again hlt h := h.again hlt
  checked h := h
  decided _ h := h
  matched {_ place} _ _ h := h.noted (e := .matched place) (by simp)
  operated {_ place} _ _ h := h.noted (e := .matched place) (by simp)
  skipped context _ _ h := h.skippedOver context _
  reported code r expected h := h.reported u code r expected
  recovers h := h

theorem Setup.ascends_last {u : Setup} (hu : u.Regular) (r : Rule) : (u.last r).Ascends :=
  u.keeps_ascends.last hu (fun _ _ h => nomatch h) r

/-! ### Lists in trials -/

mutual

/-- The items of the lists in the element. -/
def Element.items : Element → List Element
  | .token _ | .oneOf _ | .relation _ _ | .comment | .rule _ | .ruleAt _ _ => []
  | .optional e | .labeled _ _ e => e.items
  | .repeated e _ _ => e :: e.items
  | .seq es => rowItems es

def rowItems : List Element → List Element
  | [] => []
  | e :: es => e.items ++ rowItems es

end

section

variable {solid : Rule → Bool} {item : Element}

mutual

theorem takes_of_mem_items : ∀ {e : Element}, e.founded solid = true → item ∈ e.items →
    item.takes solid = true ∧ item.founded solid = true
  | .token _, _, h | .oneOf _, _, h | .relation _ _, _, h | .comment, _, h | .rule _, _, h
  | .ruleAt _ _, _, h => by simp [Element.items] at h
  | .optional e, he, h | .labeled _ _ e, he, h => by
    simp only [Element.founded] at he
    simp only [Element.items] at h
    exact takes_of_mem_items he h
  | .repeated e _ _, he, h => by
    simp only [Element.founded, Bool.and_eq_true] at he
    simp only [Element.items, List.mem_cons] at h
    rcases h with rfl | h
    · exact he
    · exact takes_of_mem_items he.2 h
  | .seq es, he, h => by
    simp only [Element.founded] at he
    simp only [Element.items] at h
    exact takes_of_mem_rowItems he h

theorem takes_of_mem_rowItems : ∀ {es : List Element}, allFounded solid es = true →
    item ∈ rowItems es → item.takes solid = true ∧ item.founded solid = true
  | [], _, h => by simp [rowItems] at h
  | e :: es, he, h => by
    simp only [allFounded, Bool.and_eq_true] at he
    simp only [rowItems, List.mem_append] at h
    rcases h with h | h
    · exact takes_of_mem_items he.1 h
    · exact takes_of_mem_rowItems he.2 h

end

end

/-- An item of a list is a step onward wherever it matches, whatever is known of rules by then. -/
theorem Recognizer.lt_item {z : Recognizer} (hs : z.stream.eof.kind = .eof) (hg : z.grammar.Founded)
    {r : Rule} {a : Alternative} (ha : a ∈ z.grammar.alternatives r) {item : Element}
    (hi : item ∈ rowItems a.elements) (n : Nat) (c : Bool) {t : Trial} (ht : t.pos ≤ z.stream.size)
    (hm : t.memo.Holds z.Known) (ho : (z.element (z.call n) c item t).1 = .matched) :
    t.pos < (z.element (z.call n) c item t).2.pos := by
  obtain ⟨htakes, hfounded⟩ := takes_of_mem_rowItems (hg.rows r a ha) hi
  have hlands := sure_element hs (sure_call hs hg n) c item hfounded t ht hm
  have hlt := hlands.lt ho htakes
  exact Nat.lt_of_not_le fun hle => absurd hlt (Nat.not_lt.2 (z.stream.settle_mono hle ht))

/-- A parse gives a tree unless it is called off. A list goes round once more only from a place behind
the one before, whether its item was there or something was skipped, and so does a list in a trial. -/
theorem parseTokens_ends (r : Rule) (ts : List Token) (settings : Settings) :
    (∀ f, (parseTokens r ts settings).1 = .error f → f = .cancelled ∧ settings.cancel ≠ none) ∧
      (∀ before after, Event.again before after ∈ ((Setup.ofTokens ts settings).last r).journal →
        before < after) ∧
      ∀ horizon n c q, ∀ a ∈ kerml.alternatives q, ∀ item ∈ rowItems a.elements, ∀ t : Trial,
        let z : Recognizer := ⟨kerml, .ofTokens ts, horizon⟩
        t.pos ≤ z.stream.size → t.memo.Holds z.Known → (z.element (z.call n) c item t).1 = .matched →
          t.pos < (z.element (z.call n) c item t).2.pos :=
  ⟨fun _ => cancelled_of_parseTokens, Setup.ascends_last (regular_ofTokens ts settings) r,
    fun _ n c _ _ ha _ hi _ ht hm ho =>
      Recognizer.lt_item (Stream.kind_eof_ofTokens ts) founded_kerml ha hi n c ht hm ho⟩

/-- A bracket that no member can begin with is skipped, and the list of members goes round behind it. -/
theorem parseTokens_ends_recovering :
    Event.again 4 6 ∈ ((Setup.ofTokens (scan "class A; ] class B;") .standard).last .rootNamespace).journal ∧
      4 < 6 := by
  have h : Event.again 4 6 ∈
      ((Setup.ofTokens (scan "class A; ] class B;") .standard).last .rootNamespace).journal := by
    decide +kernel
  exact ⟨h, (parseTokens_ends _ _ _).2.1 _ _ h⟩

end KermlText
