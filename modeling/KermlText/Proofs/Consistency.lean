import KermlText.Proofs.Abreast
import KermlText.Proofs.Locations
import KermlText.Proofs.Recall
import KermlText.Proofs.Scanning
import KermlText.Proofs.Smooth
import KermlText.Proofs.Sparing
import KermlText.Proofs.Standstill
import KermlText.Proofs.Truncation

/-! Errors that contradict themselves: what was found is among what was expected. A report names the current
token, and what was expected is worked out by whoever reports. Who wants a token finds another one, a list
finds no item, or has an item that took nothing and reported that itself. Only a decision may look at
something else, a comment in front of the token, and of the rules that look for comments one has alternatives
to choose from where a comment may stand. So it is the only rule in which an error contradicts itself. -/

namespace KermlText

/-- The kind that was found is among those that were expected. An error about nesting means just that. -/
def SyntaxError.Contradicts (e : SyntaxError) : Prop :=
  e.code ≠ .nestingTooDeep ∧ e.expected.contains e.found = true

instance (e : SyntaxError) : Decidable e.Contradicts := inferInstanceAs (Decidable (_ ∧ _))

/-! ### Decisions -/

namespace Resolver

variable {g : Grammar} {s : Stream} {z : Resolver} {pos : Nat} {follow ks : KindSet} {c : Bool}

/-- What is expected is what one of the rows may begin in front of. -/
theorem contains_expected (follow : KindSet) (rows : List (List Element)) (k : Kind) :
    (expected g follow rows).contains k = rows.any (viable g k follow) := by
  suffices ∀ ks : KindSet, (rows.foldl
      (fun ks es => ks ∪ g.firstOfRow es ∪ (if g.rowNullable es then follow else ∅)) ks).contains k =
        (ks.contains k || rows.any (viable g k follow)) by
    simpa [expected] using this ∅
  induction rows with
  | nil => simp
  | cons es rows ih =>
    intro ks
    rw [List.foldl_cons, ih, List.any_cons, viable]
    cases g.rowNullable es <;> simp [Bool.or_assoc]

/-- What is entered may begin with the kind that is looked at. -/
theorem contains_of_enter {e : Element} (h : (z.enter g s pos e follow c).1 = .ok true) :
    (g.firstOf e).contains (s.lookahead pos c) = true := by
  unfold enter at h
  dsimp only at h
  split at h
  · cases h
  · rename_i hfirst
    simpa using hfirst

/-- No alternative is found only where there is not just one, and none may begin with what is looked at. -/
theorem decide_noAlternative {r q : Rule} {place : Position} {offset : Nat} {k : Kind}
    (h : (z.decide g s pos r (g.choices r) follow c).1 = .error (.noAlternative q place offset ks k)) :
    (g.choices r).length ≠ 1 ∧ ks = expected g follow ((g.choices r).map (elements g r)) ∧
      ks.contains (s.lookahead pos c) = false := by
  unfold decide at h
  split at h
  · cases h
  · rename_i hmany
    dsimp only at h
    split at h
    · cases h
    · split at h
      · rename_i hnone
        cases h
        refine ⟨fun hone => ?_, rfl, ?_⟩
        · obtain ⟨only, honly⟩ := List.length_eq_one_iff.1 hone
          exact hmany only honly
        · rw [contains_expected, List.any_map, List.any_eq_false]
          exact fun i hi => (List.filter_eq_nil_iff.1 hnone) i hi
      · cases h
      · split at h
        · rename_i htried
          cases h
          cases endless_of_tryAll (congrArg Prod.fst htried)
        · cases h

end Resolver

/-! ### Rules that look for comments -/

namespace Grammar

variable (g : Grammar)

/-- Whether the rule has alternatives to choose from, or none. -/
def forks (r : Rule) : Bool := (g.choices r).length != 1

def forksAt : Element → Bool
  | .rule r | .ruleAt r _ => g.forks r
  | _ => false

/-- Whether a rule that forks is entered only where lookahead has seen that no comment is in front of it. -/
def isWary : Element → Bool
  | .rule r | .ruleAt r _ => seers.contains r
  | .optional e => !g.forksAt e || !(g.firstOf e).contains .blockComment
  | .repeated e _ _ | .labeled _ _ e => !g.forksAt e
  | .seq es => es.all fun e => !g.forksAt e
  | _ => true

/-- Whether the rules in which comments are looked for mind them: they fork only where none is in front. Only
one that begins to look for comments may do so itself, and it begins with a word. -/
def isMindful : Bool :=
  (Rule.all.all fun r =>
    (!seers.contains r || (g.alternatives r).all fun a => a.elements.all fun e =>
      e.all g.isWary && !g.forksAt e) &&
    (!(g.aware r && g.forks r) || r == .textualRepresentation) && !(g.first r).contains .error) &&
  (g.choices .textualRepresentation).all fun i =>
    !g.rowNullable (Resolver.elements g .textualRepresentation i) &&
      g.firstOfRow (Resolver.elements g .textualRepresentation i) ∪ .ofList [.kwRep, .kwLanguage] ==
        .ofList [.kwRep, .kwLanguage]

structure Mindful (g : Grammar) : Prop where
  rows : ∀ r ∈ seers, ∀ a ∈ g.alternatives r, ∀ e ∈ a.elements,
    e.all g.isWary = true ∧ g.forksAt e = false
  aware : ∀ r, g.aware r = true → g.forks r = true → r = .textualRepresentation
  errors : ∀ r, (g.first r).contains .error = false
  words : ∀ i ∈ g.choices .textualRepresentation,
    g.rowNullable (Resolver.elements g .textualRepresentation i) = false ∧
      g.firstOfRow (Resolver.elements g .textualRepresentation i) ∪ .ofList [.kwRep, .kwLanguage] =
        .ofList [.kwRep, .kwLanguage]

theorem mindful_of_isMindful {g : Grammar} (h : g.isMindful = true) : g.Mindful := by
  simp only [isMindful, Bool.and_eq_true, List.all_eq_true, Bool.or_eq_true, Bool.not_eq_true',
    beq_iff_eq] at h
  obtain ⟨hrules, hwords⟩ := h
  refine ⟨fun r hr => ?_, fun r ha hf => ?_, fun r => (hrules r (Rule.mem_all r)).2, hwords⟩
  · exact (hrules r (Rule.mem_all r)).1.1.resolve_left (by simp [hr])
  · exact (hrules r (Rule.mem_all r)).1.2.resolve_left (by simp [ha, hf])

end Grammar

theorem mindful_kerml : kerml.Mindful := Grammar.mindful_of_isMindful (by decide +kernel)

/-- A textual representation begins with one of two words. -/
theorem Grammar.Mindful.word {g : Grammar} (h : g.Mindful) {follow : KindSet} {k : Kind}
    (hk : (Resolver.expected g follow ((g.choices .textualRepresentation).map
      (Resolver.elements g .textualRepresentation))).contains k = true) :
    k = .kwRep ∨ k = .kwLanguage := by
  rw [Resolver.contains_expected, List.any_map, List.any_eq_true] at hk
  obtain ⟨i, hi, hv⟩ := hk
  obtain ⟨hnullable, hfirst⟩ := h.words i hi
  simp only [Function.comp, Resolver.viable, hnullable, Bool.false_and, Bool.or_false] at hv
  have hword : (KindSet.ofList [.kwRep, .kwLanguage]).contains k = true := by
    rw [← hfirst, KindSet.contains_union, hv, Bool.true_or]
  simpa using KindSet.contains_ofList.1 hword

/-- Where comments are looked for, no rule that forks is entered in front of one, unless it is the rule that
begins to look for them. -/
def Task.Wary (u : Setup) : Task → Session → Prop
  | .element e scope, x => scope.comments = true → e.all u.grammar.isWary = true ∧
      (u.grammar.forksAt e = true → u.stream.lookahead x.pos true ≠ .blockComment)
  | .row es scope, _ => scope.comments = true → ∀ e ∈ es, e.all u.grammar.isWary = true ∧
      u.grammar.forksAt e = false
  | .items e _ scope _, _ => scope.comments = true → e.all u.grammar.isWary = true ∧
      u.grammar.forksAt e = false
  | .body scope, x => scope.comments = true → scope.rule ∈ seers ∧
      (u.grammar.forks scope.rule = true → scope.rule = .textualRepresentation ∨
        u.stream.lookahead x.pos true ≠ .blockComment)
  | .call r _ scope, x => scope.comments = true → r ∈ seers ∧
      (u.grammar.forks r = true → u.stream.lookahead x.pos true ≠ .blockComment)
  | .operators _ _ scope _, _ => scope.comments = false

namespace Setup

open Session

variable {u : Setup}

theorem passes_founded (hg : u.grammar.Founded) : u.Passes fun task _ => task.Founded u.grammar where
  rule _ := trivial
  ruleAt _ := trivial
  present _ h := h
  repeated h := Bool.and_eq_true_iff.1 h
  seq h := h
  labeled h := h
  head h := (Bool.and_eq_true_iff.1 h).1
  tail h := (Bool.and_eq_true_iff.1 h).2
  item _ h := h.2
  round h := h
  chosen _ _ := Resolver.allFounded_elements hg _ _
  opened _ _ := trivial
  operand _ _ := trivial
  operators ht _ := ⟨ht, fun k hk => by simp [operandScope, hk]⟩
  right _ _ _ := trivial
  rest _ _ _ := trivial
  next h := h

theorem passes_wary (hg : u.grammar = kerml) : u.Passes (Task.Wary u) where
  rule h hc := ⟨List.contains_iff_mem.1 (h hc).1, (h hc).2⟩
  ruleAt h hc := ⟨List.contains_iff_mem.1 (h hc).1, (h hc).2⟩
  present {e scope x y} he h hc := by
    obtain ⟨hwary, hinner⟩ := Bool.and_eq_true_iff.1 (h hc).1
    refine ⟨hinner, fun hf => ?_⟩
    have hfirst := Resolver.contains_of_enter (enter_ok he).1
    rw [hc, (enter_alike he).pos.symm] at hfirst
    rintro hk
    rw [hk] at hfirst
    simp [Grammar.isWary, hf, hfirst] at hwary
  repeated h hc := by
    obtain ⟨hwary, hinner⟩ := Bool.and_eq_true_iff.1 (h hc).1
    exact ⟨hinner, by simpa [Grammar.isWary] using hwary⟩
  seq {es scope x} h hc e he := by
    obtain ⟨hwary, hinner⟩ := Bool.and_eq_true_iff.1 (h hc).1
    refine ⟨rowAll_iff.1 hinner e he, ?_⟩
    simpa using List.all_eq_true.1 hwary e he
  labeled h hc := by
    obtain ⟨hwary, hinner⟩ := Bool.and_eq_true_iff.1 (h hc).1
    exact ⟨hinner, fun hf => by simp [Grammar.isWary, hf] at hwary⟩
  head h hc := by
    obtain ⟨hinner, hf⟩ := h hc _ List.mem_cons_self
    exact ⟨hinner, fun hf' => by simp [hf] at hf'⟩
  tail h hc e he := h hc e (List.mem_cons_of_mem _ he)
  item _ h hc := ⟨(h hc).1, fun hf => by simp [(h hc).2] at hf⟩
  round h hc := h hc
  chosen {scope i x y} hi h hc e he := by
    obtain ⟨a, ha, -⟩ := Grammar.mem_choices.1 hi
    rw [Resolver.elements_of_getElem? ha] at he
    have hr := (h hc).1
    rw [hg] at ha ⊢
    exact mindful_kerml.rows _ hr a (List.mem_of_getElem? ha) e he
  opened {r level scope x depth} _ h hc := by
    rw [inside, Bool.or_eq_true] at hc
    by_cases hscope : scope.comments = true
    · exact ⟨(h hscope).1, fun hf => .inr ((h hscope).2 hf)⟩
    · have haware : kerml.aware r = true := hg ▸ hc.resolve_left hscope
      exact ⟨secluded_kerml.aware r haware, fun hf => .inl (mindful_kerml.aware r haware (hg ▸ hf))⟩
  operand {r level scope table x depth} ht h hc := by
    rw [hg, secluded_kerml.table r (h hc).1] at ht
    cases ht
  operators {r level scope table left x y} ht h := by
    rw [Task.Wary, operandScope, Bool.eq_false_iff]
    intro hc
    rw [hg, secluded_kerml.table r (h hc).1] at ht
    cases ht
  right _ _ h hc := by
    rw [Task.Wary] at h
    rw [h] at hc
    cases hc
  rest _ _ h hc := by
    rw [Task.Wary] at h
    rw [show _ = false from h] at hc
    cases hc
  next h := h

/-! ### Reports -/

/-- What is known of a task that reports: it asks for no end inside a list, the items of its lists take tokens,
and it minds the comments that it looks for. -/
def Cautious (u : Setup) (task : Task) (x : Session) : Prop :=
  task.Sparing u ∧ task.Founded u.grammar ∧ task.Wary u x

theorem passes_cautious (hg : u.grammar = kerml) (hu : u.Regular) : u.Passes u.Cautious :=
  (passes_sparing hg).and ((passes_founded hu.founded).and (passes_wary hg))

/-- A decision that finds no alternative expects what it finds only where it looked at a comment. -/
theorem misread_of_decide (hg : u.grammar = kerml) {scope : Scope} {x y : Session} {r : Rule}
    {place : Position} {offset : Nat} {ks : KindSet} {k : Kind} (hw : Task.Wary u (.body scope) x)
    (hd : u.decide scope (x.noted (.asked scope.rule scope.follow)) =
      .ok (.error (.noAlternative r place offset ks k)) y)
    (hk : ks.contains (u.stream.kind x.pos) = true) :
    scope.rule = .textualRepresentation ∧
      (u.stream.kind x.pos = .kwRep ∨ u.stream.kind x.pos = .kwLanguage) ∧
      ∃ i, u.stream.comment? x.pos = some i := by
  rw [decide_eq] at hd
  dsimp only at hd
  obtain ⟨hmany, hks, hlook⟩ := Resolver.decide_noAlternative (EStateM.Result.ok.inj hd).1
  have hlook : ks.contains (u.stream.lookahead x.pos scope.comments) = false := hlook
  have hblind : u.stream.lookahead x.pos scope.comments ≠ u.stream.kind x.pos := fun he => by
    rw [he, hk] at hlook
    cases hlook
  have hcomments : scope.comments = true := by
    cases hc : scope.comments with
    | false => exact absurd (by rw [hc]; rfl) hblind
    | true => rfl
  rw [hcomments] at hblind
  rcases (hw hcomments).2 (bne_iff_ne.2 hmany) with hr | hlook
  · rw [hr, hg] at hks
    rw [hks] at hk
    refine ⟨hr, mindful_kerml.word hk, ?_⟩
    -- without a comment the current token is what is looked at
    rcases hi : u.stream.comment? x.pos with _ | i
    · exact absurd (by simp [Stream.lookahead, hi]) hblind
    · exact ⟨i, rfl⟩
  · exact absurd (Stream.lookahead_eq_kind hlook) hblind

/-- What is reported where the parse is not muted was not found, unless rules are nested too deep or a
decision looked at a comment. -/
theorem Reports.misread (hg : u.grammar = kerml) (hu : u.Regular)
    (hend : ∀ i, u.stream.atEnd i = false → u.stream.kind i ≠ .eof)
    (hno : ∀ i, u.stream.kind i ≠ .blockComment) {x : Session} {code : Code} {r : Rule} {expected : KindSet}
    (h : u.Reports u.Cautious x code r expected) (hm : ¬u.Muted x)
    (hk : expected.contains (u.stream.kind x.pos) = true) :
    (code = .nestingTooDeep ∧ u.stream.kind x.pos ≠ .error) ∨
      code = .noAlternative ∧ r = .textualRepresentation ∧
        (u.stream.kind x.pos = .kwRep ∨ u.stream.kind x.pos = .kwLanguage) ∧
        ∃ i, u.stream.comment? x.pos = some i := by
  cases h with
  | missing hc he hne hs =>
    rcases hc.1 with hc | ⟨rfl, -⟩
    · have heof := not_contains_eof_of_wanted hc he
      have hkind : u.stream.kind x.pos ≠ .eof := fun h => by
        rw [← h, hk] at heof
        cases heof
      simp [Stream.stands, hkind, hk] at hs
    · exact absurd (Option.some.inj he).symm hne
  | trailing hc he hnot =>
    rw [endKinds, KindSet.contains_single, decide_eq_true_eq] at hk
    exact absurd hk.symm (hend _ hnot)
  | comment hc hi =>
    rw [KindSet.contains_single, decide_eq_true_eq] at hk
    exact absurd hk.symm (hno _)
  | @stuck n e resync scope need w b y z b' hf hc he hrun hz hstops =>
    simp only [stops, Bool.or_eq_false_iff, decide_eq_false_iff_not] at hstops
    have hpos : y.pos = w.pos := (enterItem_alike he).pos
    have hy := ((Advances.refl hf).checked.enterItem he).fit
    rcases hrun.muted hu hy hc.2.1.1 (hz.trans hpos.symm) with hmuted | hatEnd
    · exact absurd hmuted hm
    · rw [hpos, ← hz] at hatEnd
      rw [Stream.kind, Stream.current_of_atEnd hatEnd] at hstops
      exact absurd hu.eof hstops.1.2
  | stray hc he hleaves =>
    simp only [leaves, Bool.or_eq_false_iff, decide_eq_false_iff_not] at hleaves
    rw [Stream.lookahead_eq_kind hleaves.1.1.1.2] at hleaves
    simp [hleaves.1.1.2, hleaves.1.2] at hk
  | @lost scope w q place offset expected k y hc hd =>
    have hpos : x.pos = w.pos := (decide_alike hd).pos
    rw [hpos] at hk ⊢
    exact .inr ⟨rfl, misread_of_decide hg hc.2.2 hd hk⟩
  | refused hc =>
    refine .inl ⟨rfl, fun herror => ?_⟩
    rw [herror, hg, mindful_kerml.errors] at hk
    cases hk

/-- The error contradicts itself because a comment was looked at in front of the first word of a textual
representation. -/
def Misreads (u : Setup) (e : SyntaxError) : Prop :=
  e.code = .noAlternative ∧ e.rule = .textualRepresentation ∧ (e.found = .kwRep ∨ e.found = .kwLanguage) ∧
    ∃ pos i, u.stream.comment? pos = some i ∧ e.At (u.stream.current pos)

theorem upholds_misreads (hg : u.grammar = kerml) (hu : u.Regular)
    (hend : ∀ i, u.stream.atEnd i = false → u.stream.kind i ≠ .eof)
    (hno : ∀ i, u.stream.kind i ≠ .blockComment) :
    u.Upholds u.Cautious fun x => ∀ e ∈ x.sent, e.Contradicts → u.Misreads e where
  called _ h := h
  asked _ h := h
  opened h := h
  again h := h
  checked h := h
  decided _ h := h
  matched _ h := h
  operated _ _ _ h := h
  reported {code r expected x} hf hr h e he hcontra := by
    rcases mem_sent_reported he with he | ⟨hm, rfl⟩
    · exact h e he hcontra
    · rcases hr.misread hg hu hend hno hm hcontra.2 with ⟨rfl, herror⟩ | ⟨rfl, rfl, hword, i, hi⟩
      · exact absurd (if_neg herror) hcontra.1
      · have herror : u.stream.kind x.pos ≠ .error := by
          rcases hword with h | h <;> rw [h] <;> exact nofun
        exact ⟨if_neg herror, rfl, hword, x.pos, i, hi, SyntaxError.at_make _ _ _ _⟩
  skipped _ _ h := by simpa using h
  gaveUp h := h

theorem misreads_last (hg : u.grammar = kerml) (hu : u.Regular)
    (hend : ∀ i, u.stream.atEnd i = false → u.stream.kind i ≠ .eof)
    (hno : ∀ i, u.stream.kind i ≠ .blockComment) (r : Rule) :
    ∀ e ∈ (u.last r).sent, e.Contradicts → u.Misreads e := by
  have hholds := upholds_misreads (u := u.unsignalled) hg hu.unsignalled hend hno
  have hpasses := passes_cautious (u := u.unsignalled) hg hu.unsignalled
  have hblind : (u.rootScope r).comments = true → False := Bool.false_ne_true
  have hlast := hholds.last hu hpasses (fun e he => absurd he List.not_mem_nil) r
    ⟨fun _ => rfl, trivial, fun hc => (hblind hc).elim⟩
    fun y => ⟨.inr ⟨rfl, rfl⟩, rfl, fun hc => (hblind hc).elim⟩
  exact fun e he => hlast e ((grows_last hu r).sent.subset he)

end Setup

/-! ### Texts -/

/-- The current token of a text is no comment. -/
theorem kind_ne_blockComment_scan (text : String) (i : Nat) :
    (Stream.ofTokens (scan text)).kind i ≠ .blockComment := by
  intro hk
  rcases hend : (Stream.ofTokens (scan text)).atEnd i with _ | _
  · have hlt := (Stream.ofTokens (scan text)).settle_lt_of_not_atEnd hend
    have hm := List.mem_of_getElem? ((Stream.ofTokens (scan text)).token_of_lt hlt)
    have hdefault := (Stream.ofTokens (scan text)).channel_settle hlt
    rw [Stream.kind, Stream.current] at hk
    rw [(scan_kind hm).2, hk] at hdefault
    cases hdefault
  · rw [Stream.kind, Stream.current_of_atEnd hend, Stream.kind_eof_ofTokens] at hk
    cases hk

/-- An error of the parse of a text, be it sent or listed, in which the kind that was found is among those that
were expected is one about nesting, or it is about a textual representation in front of whose first word there
is a comment. -/
theorem parseTokens_consistent {r : Rule} {text : String} {settings : Settings} {e : SyntaxError}
    (he : e ∈ (parseTokens r (scan text) settings).2 ∨
      ∃ p, (parseTokens r (scan text) settings).1 = .ok p ∧ e ∈ p.errors)
    (hc : e.Contradicts) :
    e.code = .noAlternative ∧ e.rule = .textualRepresentation ∧
      (e.found = .kwRep ∨ e.found = .kwLanguage) ∧
      ∃ i j t, i < j ∧ (scan text)[i]? = some t ∧ t.channel = .comment ∧ e.AtPlace (scan text) j ∧
        ∀ k t', i ≤ k → k < j → (scan text)[k]? = some t' → t'.channel ≠ .default := by
  have hsent : e ∈ ((Setup.ofTokens (scan text) settings).last r).sent := by
    rw [← sent_parseTokens]
    rcases he with he | ⟨p, hp, he⟩
    · exact he
    · rw [parseTokens_sent hp]
      exact he
  have hend := Stream.kind_ne_eof_ofTokens fun t (ht : t ∈ scan text) _ => (scan_kind ht).1
  obtain ⟨hcode, hrule, hfound, pos, i, hi, hat⟩ :=
    Setup.misreads_last (u := Setup.ofTokens (scan text) settings) rfl (regular_ofTokens _ _) hend
      (kind_ne_blockComment_scan text) r e hsent hc
  have hi : (Stream.ofTokens (scan text)).comment? pos = some i := hi
  obtain ⟨hle, hlt, hcomment⟩ := (Stream.ofTokens (scan text)).comment?_some hi
  have hsize := (Stream.ofTokens (scan text)).settle_le_size pos
  refine ⟨hcode, hrule, hfound, i, _, _, hlt, Stream.token_of_lt _ (Nat.lt_of_lt_of_le hlt hsize), hcomment,
    SyntaxError.At.place hat ((Stream.ofTokens (scan text)).settle_settle pos), fun k t' hk hkj ht => ?_⟩
  have hchannel := (Stream.ofTokens (scan text)).channel_ne_of_lt_settle (Nat.le_trans hle hk) hkj
  have htoken := Stream.token_of_lt (Stream.ofTokens (scan text)) (Nat.lt_of_lt_of_le hkj hsize)
  rwa [← Option.some.inj (ht.symm.trans htoken)] at hchannel

theorem checked_comment :
    (parseTokens .rootNamespace (scan "/* c */ rep language \"x\" /* b */") .standard).1.toOption.any
      (·.errors.any fun e => decide e.Contradicts) = true := by
  decide +kernel

/-- With a comment in front of it, the word that a textual representation begins with is not what was expected
to begin it. -/
theorem parseTokens_contradicts :
    ∃ p e, (parseTokens .rootNamespace (scan "/* c */ rep language \"x\" /* b */") .standard).1 = .ok p ∧
      e ∈ p.errors ∧ e.code ≠ .nestingTooDeep ∧ e.expected.contains e.found = true := by
  obtain ⟨p, hp⟩ := parseTokens_answers .rootNamespace (scan "/* c */ rep language \"x\" /* b */")
    (rfl : Settings.standard.cancel = none)
  have h := checked_comment
  rw [hp] at h
  obtain ⟨e, he, hc⟩ := List.any_eq_true.1 h
  exact ⟨p, e, hp, he, of_decide_eq_true hc⟩

/-- The error is at the word behind the comment. -/
theorem parseTokens_consistent_rep :
    ∃ p e, (parseTokens .rootNamespace (scan "/* c */ rep language \"x\" /* b */") .standard).1 = .ok p ∧
      e ∈ p.errors ∧ e.Contradicts ∧ e.code = .noAlternative ∧ e.rule = .textualRepresentation ∧
      (e.found = .kwRep ∨ e.found = .kwLanguage) ∧
      ∃ i j t, i < j ∧ (scan "/* c */ rep language \"x\" /* b */")[i]? = some t ∧ t.channel = .comment ∧
        e.AtPlace (scan "/* c */ rep language \"x\" /* b */") j := by
  obtain ⟨p, hp⟩ := parseTokens_answers .rootNamespace (scan "/* c */ rep language \"x\" /* b */")
    (rfl : Settings.standard.cancel = none)
  have h := checked_comment
  rw [hp] at h
  obtain ⟨e, he, hc⟩ := List.any_eq_true.1 h
  have hc := of_decide_eq_true hc
  obtain ⟨hcode, hrule, hfound, i, j, t, hij, ht, hcomment, hat, -⟩ :=
    parseTokens_consistent (.inr ⟨p, hp, he⟩) hc
  exact ⟨p, e, hp, he, hc, hcode, hrule, hfound, i, j, t, hij, ht, hcomment, hat⟩

end KermlText
