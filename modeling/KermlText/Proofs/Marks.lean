import KermlText.Proofs.Lossless

/-! Errors and marks agree. Each report leaves a mark in the tree, or skipped tokens, whose node is
marked; and nothing is marked without a report. A report may be dropped, but then an earlier one was
not, so whether there is any error can still be read off the tree. -/

namespace KermlText

namespace Node

theorem anyErrors_append (cs ds : List Child) :
    anyErrors (cs ++ ds) = (anyErrors cs || anyErrors ds) := by
  induction cs with
  | nil => simp [anyErrors]
  | cons c cs ih => cases c <;> simp [anyErrors, ih, Bool.or_assoc]

end Node

namespace Builder

/-- Whether the node in the making has a mark in it. -/
def flawed (b : Builder) : Bool := b.finish.hasErrors

theorem flawed_eq (b : Builder) : b.flawed = (b.error || Node.anyErrors b.children) := by
  simp [flawed, finish, Node.hasErrors]

@[simp] theorem flawed_start (r : Rule) : (start r).flawed = false := by
  simp [flawed_eq, start, Node.anyErrors]

@[simp] theorem flawed_pushToken (b : Builder) (t : Token) : (b.pushToken t).flawed = b.flawed := by
  simp [flawed_eq, pushToken, push, Node.anyErrors_append, Node.anyErrors]

@[simp] theorem flawed_pushNode (b : Builder) (n : Node) :
    (b.pushNode n).flawed = (b.flawed || n.hasErrors) := by
  simp [flawed_eq, pushNode, push, Node.anyErrors_append, Node.anyErrors, Bool.or_assoc]

@[simp] theorem flawed_markError (b : Builder) : b.markError.flawed = true := by
  simp [flawed_eq, markError]

@[simp] theorem flawed_label (b : Builder) (name : String) (many : Bool) (start : Nat) (tokens : Bool)
    (relation : Option Relation) : (b.label name many start tokens relation).flawed = b.flawed := by
  simp [flawed_eq]

theorem flawed_of_single? {b : Builder} {n : Node} (h : b.single? = some n) :
    n.hasErrors = b.flawed := by
  obtain ⟨hc, -, he⟩ := children_of_single? h
  simp [flawed_eq, hc, he, Node.anyErrors]

@[simp] theorem flawed_unwrapped (b : Builder) : b.unwrapped.flawed = b.flawed := by
  unfold unwrapped
  split
  · rename_i n h
    rw [← flawed_of_single? h, flawed, finish_reopen]
  · rfl

end Builder

/-- At least one error may be reported. -/
def Settings.Reports (settings : Settings) : Prop := settings.maxErrors ≠ some 0

namespace Setup

variable {u : Setup}

theorem flawed_strays {b : Builder} {places : List Nat} :
    (b.pushNode? (u.strays places)).flawed = (b.flawed || !places.isEmpty) := by
  unfold strays
  split
  · rename_i h
    simp [h, Builder.pushNode?]
  · rename_i h
    simp [Builder.pushNode?, Node.hasErrors, h]

/-- While a parse recovers it has an error. -/
def Owns (x : Session) : Prop := x.recovering = true → x.errors ≠ []

/-- Behind a report there is an error. -/
theorem errors_reported_ne_nil (hu : u.settings.Reports) {x : Session} (hx : Owns x) (code : Code)
    (r : Rule) (expected : KindSet) : (u.reported code r expected x).errors ≠ [] := by
  unfold reported
  split
  · rename_i hr
    exact hx hr
  · split
    · rename_i hm
      intro he
      rcases hs : u.settings.maxErrors with _ | n
      · simp [hs] at hm
      · rw [he] at hm
        simp only [hs, Option.any_some, List.length_nil, Nat.le_zero_eq, decide_eq_true_eq] at hm
        exact hu (hm ▸ hs)
    · simp

/-- What a path does to errors and marks. -/
structure Agrees (x₀ : Session) (b₀ : Builder) (x : Session) (b : Builder) : Prop where
  owns : Owns x
  errors : x.errors = [] → x₀.errors = []
  marks : b₀.flawed = true → b.flawed = true
  /-- Up to the first error no mark is made, and then one is. -/
  first : x₀.errors = [] → b.flawed = (b₀.flawed || !x.errors.isEmpty)

namespace Agrees

variable {x₀ x y : Session} {b₀ b c : Builder}

theorem refl (h : Owns x) : Agrees x b x b :=
  ⟨h, id, id, fun he => by simp [he]⟩

/-- A step that reports nothing and marks nothing. -/
theorem still (h : Agrees x₀ b₀ x b) (he : y.errors = x.errors)
    (hr : y.recovering = true → x.recovering = true) (hb : c.flawed = b.flawed) :
    Agrees x₀ b₀ y c :=
  ⟨fun hy => he ▸ h.owns (hr hy), fun hy => h.errors (he ▸ hy), fun hm => hb ▸ h.marks hm,
    fun h0 => by rw [hb, he]; exact h.first h0⟩

/-- A step behind which there are an error and a mark. -/
theorem flaw (he : y.errors ≠ []) (hc : c.flawed = true) : Agrees x₀ b₀ y c :=
  ⟨fun _ => he, fun hy => absurd hy he, fun _ => hc, fun _ => by simp [hc, he]⟩

theorem trans (h1 : Agrees x₀ b₀ x b) (h2 : Agrees x b y c) : Agrees x₀ b₀ y c := by
  refine ⟨h2.owns, fun hy => h1.errors (h2.errors hy), fun hm => h2.marks (h1.marks hm), fun h0 => ?_⟩
  have hb := h1.first h0
  by_cases hx : x.errors = []
  · rw [h2.first hx, hb, hx]
    simp
  · have hy : y.errors ≠ [] := fun hy => hx (h2.errors hy)
    have hm : b.flawed = true := by simp [hb, hx]
    simp [h2.marks hm, hy]

end Agrees

theorem Path.agrees (hu : u.settings.Reports)
    (hno : ∀ i, u.stream.atEnd i = false → u.stream.kind i ≠ .eof) {x₀ x : Session}
    {b₀ b : Builder} (h : u.Path x₀ b₀ x b) (hx : Owns x₀) : Agrees x₀ b₀ x b := by
  induction h with
  | refl => exact .refl hx
  | quiet _ hy ih => exact (ih hx).still hy.errors (fun hr => hy.recovering ▸ hr) rfl
  | take _ _ _ he hr ih => exact (ih hx).still he hr (by simp)
  | takeComment _ _ _ ih => exact (ih hx).still rfl (fun hr => absurd hr Bool.false_ne_true) (by simp)
  | flaw _ code r expected context sync n recovering ih =>
    refine .flaw ?_ (by simp)
    simpa using errors_reported_ne_nil hu (ih hx).owns code r expected
  | @stray _ _ x b _ code r expected context sync n hne ih =>
    refine .flaw ?_ ?_
    · simpa using errors_reported_ne_nil hu (ih hx).owns code r expected
    · have hp : u.stream.placesUpTo sync n x.pos ≠ [] := fun hp =>
        hno _ (hne hp).2 (hne hp).1
      simp [flawed_strays, hp]
  | label _ _ _ _ _ _ ih => exact (ih hx).still rfl id (by simp)
  | @node _ _ x b y r c m _ _ hm ih1 ih2 =>
    have h2 := ih2 (ih1 hx).owns
    have hc : m.hasErrors = c.flawed := by
      rcases hm with rfl | hm
      · rfl
      · exact Builder.flawed_of_single? hm
    -- what is pushed has the marks that were made since the node was started
    refine (ih1 hx).trans ⟨h2.owns, h2.errors, fun hb => by simp [hb], fun hx => ?_⟩
    simp [hc, h2.first hx]

theorem Rooted.agrees (hu : u.Regular) (hg : u.grammar.placesComments = true)
    (hr : u.settings.Reports) (hno : ∀ i, u.stream.atEnd i = false → u.stream.kind i ≠ .eof)
    {r : Rule} {n : Node} {x : Session} (h : u.Rooted r n x) :
    n.hasErrors = !x.errors.isEmpty := by
  obtain ⟨y, b, c, hpath, he, rfl⟩ := h.path hu hg
  have h1 := hpath.agrees hr hno fun h => absurd h Bool.false_ne_true
  have h2 := (Path.refl.expectEnd he).agrees hr hno h1.owns
  have h3 : Agrees y b x c :=
    ⟨h2.owns, h2.errors, by simpa using h2.marks, by simpa using h2.first⟩
  have hf := (h1.trans h3).first rfl
  rwa [Builder.flawed_start, Bool.false_or] at hf

end Setup

/-- A parse has no errors exactly if its tree has no marks. -/
theorem parseTokens_ok_iff (r : Rule) (ts : List Token) (settings : Settings)
    (hts : ∀ t ∈ ts, t.channel = .default → t.kind ≠ .eof) (hc : settings.cancel = none)
    (hm : settings.maxErrors ≠ some 0) :
    ∃ p, (parseTokens r ts settings).1 = .ok p ∧ (p.ok = true ↔ p.root.hasErrors = false) := by
  obtain ⟨p, hp⟩ := parseTokens_answers r ts hc
  obtain ⟨x, hr, he⟩ := rooted_of_parseTokens hp
  have ha := hr.agrees (regular_ofTokens ts settings) placesComments_kerml hm
    (Stream.kind_ne_eof_ofTokens hts)
  refine ⟨p, hp, ?_⟩
  rw [ha, Parse.ok, he, Bool.not_eq_false']

/-- The bracket is skipped and marked. -/
theorem parseTokens_ok_iff_bracket :
    ∃ p, (parseTokens .rootNamespace (scan "class A; )") .standard).1 = .ok p ∧
      (p.ok = true ↔ p.root.hasErrors = false) :=
  parseTokens_ok_iff _ _ _ (by decide +kernel) rfl (by decide)

end KermlText
