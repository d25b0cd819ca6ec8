import KermlText.Proofs.Decisions
import KermlText.Proofs.Paths
import KermlText.Proofs.Twins

/-! What is remembered of decisions is what a resolver without memory would decide now. The key of an entry
leaves out where exactly the stream stands, in front of a comment or behind it, so no comment may be passed
by while something is remembered of the token behind it. None is: comments are taken inside a few rules
only, whose alternatives are told apart by one token, and so are those that lead to them. -/

namespace KermlText

/-! ### Rules that need no trial -/

/-- Whether the element mentions no rule but `seers`. -/
def Element.within (seers : List Rule) : Element → Bool
  | .rule r | .ruleAt r _ => seers.contains r
  | _ => true

namespace Grammar

variable (g : Grammar)

/-- Whether one token of kind `k` tells the alternatives of the rule apart, whatever may follow. -/
def tells (r : Rule) (k : Kind) : Bool :=
  ((g.choices r).filter fun i =>
    (g.firstOfRow (Resolver.elements g r i)).contains k ||
      g.rowNullable (Resolver.elements g r i)).length ≤ 1

/-- Whether the row is nothing but a rule that looks for comments, and begins with a key. -/
def turnsAside (keys : KindSet) (r : Rule) : List Element → Bool
  | [.rule q] => g.aware q && (g.choices r).length != 1 && !g.nullable q && g.first q ∪ keys == keys
  | _ => false

/-- Whether comments are looked for in the rules `seers` only, and these are entered from elsewhere in
front of a key only; and whether neither in these rules nor in front of a key a trial is ever made. -/
def isSecluded (seers : List Rule) (keys : KindSet) : Bool :=
  (Rule.all.all fun r => Kind.all.all fun k =>
    !(seers.contains r || keys.contains k) || g.tells r k) &&
  Rule.all.all fun r =>
    (!g.aware r || seers.contains r) &&
    (!seers.contains r || (g.table? r).isNone &&
      (g.alternatives r).all fun a => rowAll (·.within seers) a.elements) &&
    (g.aware r || (g.alternatives r).all fun a =>
      allUnaware g.aware a.elements || g.turnsAside keys r a.elements)

structure Secluded (g : Grammar) (seers : List Rule) (keys : KindSet) : Prop where
  tells : ∀ r k, r ∈ seers ∨ keys.contains k = true → g.tells r k = true
  aware : ∀ r, g.aware r = true → r ∈ seers
  table : ∀ r ∈ seers, g.table? r = none
  rows : ∀ r ∈ seers, ∀ a ∈ g.alternatives r, rowAll (·.within seers) a.elements = true
  asides : ∀ r, g.aware r = false → ∀ a ∈ g.alternatives r,
    allUnaware g.aware a.elements = true ∨ g.turnsAside keys r a.elements = true

theorem secluded_of_isSecluded {g : Grammar} {seers : List Rule} {keys : KindSet}
    (h : g.isSecluded seers keys = true) : g.Secluded seers keys := by
  simp only [isSecluded, Bool.and_eq_true, List.all_eq_true] at h
  obtain ⟨htells, hrules⟩ := h
  refine ⟨fun r k hk => ?_, fun r hr => ?_, fun r hr => ?_, fun r hr a ha => ?_, fun r hr a ha => ?_⟩
  · have := htells r (Rule.mem_all r) k (Kind.mem_all k)
    simp only [Bool.or_eq_true, Bool.not_eq_true', Bool.or_eq_false_iff, List.contains_eq_mem,
      decide_eq_false_iff_not] at this
    refine this.resolve_left fun ⟨h1, h2⟩ => ?_
    rcases hk with hk | hk
    · exact h1 hk
    · rw [h2] at hk
      cases hk
  · have := (hrules r (Rule.mem_all r)).1.1
    simpa [hr] using this
  · have := (hrules r (Rule.mem_all r)).1.2
    simp only [List.contains_eq_mem, hr, decide_true, Bool.not_true, Bool.false_or, Bool.and_eq_true,
      Option.isNone_iff_eq_none] at this
    exact this.1
  · have := (hrules r (Rule.mem_all r)).1.2
    simp only [List.contains_eq_mem, hr, decide_true, Bool.not_true, Bool.false_or, Bool.and_eq_true,
      List.all_eq_true] at this
    exact this.2 a ha
  · have := (hrules r (Rule.mem_all r)).2
    simp only [hr, Bool.false_or, List.all_eq_true, Bool.or_eq_true] at this
    exact this a ha

end Grammar

/-- The rules in which comments are looked for. -/
def seers : List Rule :=
  [.comment, .documentation, .textualRepresentation, .identification, .aboutClause, .localeClause,
    .qualifiedName]

theorem secluded_kerml : kerml.Secluded seers annotationKeys :=
  Grammar.secluded_of_isSecluded (by decide +kernel)

namespace Resolver

variable {g : Grammar} {s : Stream}

/-! ### Resolvers without memory -/

/-- A resolver that has decided nothing and remembers nothing. -/
def blank (limit : Nat) : Resolver := ⟨limit, false, [], ⟨0, 0, 0⟩, false⟩

/-- The resolver tries so many tokens and remembers nothing. -/
structure Blank (limit : Nat) (z : Resolver) : Prop where
  limit : z.limit = limit
  caching : z.caching = false
  cache : z.cache = []

theorem blank_make (limit : Nat) : Blank (max limit 1) (make limit false) := ⟨rfl, rfl, rfl⟩

theorem known?_of_nil {z : Resolver} (hz : z.cache = []) (d : Decision) : z.known? d = none := by
  simp [known?, hz]

/-- What is decided without memory. -/
def answer (g : Grammar) (s : Stream) (limit pos : Nat) (r : Rule) (follow : KindSet) (c : Bool) :
    Except Failure Nat :=
  ((blank limit).decide g s pos r (g.choices r) follow c).1

/-- Whether an element is entered is decided without memory. -/
def entry (g : Grammar) (s : Stream) (limit pos : Nat) (e : Element) (follow : KindSet) (c : Bool) :
    Except Failure Bool :=
  ((blank limit).enter g s pos e follow c).1

variable {limit pos : Nat} {r : Rule} {follow : KindSet} {c : Bool}

/-- What is not known is decided as without memory. -/
theorem decide_of_unknown {z : Resolver} (hz : z.limit = limit)
    (hk : z.known? ⟨r, s.settle pos, follow, c⟩ = none) :
    (z.decide g s pos r (g.choices r) follow c).1 = answer g s limit pos r follow c := by
  have hr : z.recognizer g s pos = (blank limit).recognizer g s pos := by
    rw [recognizer, recognizer, hz]
    rfl
  unfold answer decide
  split
  · rfl
  · dsimp only
    rw [hk, known?_of_nil rfl, hr]
    dsimp only
    split
    · rfl
    · rfl
    · split <;> rfl

theorem Blank.decide {z : Resolver} (hz : z.Blank limit) (g : Grammar) (s : Stream) (pos : Nat) (r : Rule)
    (follow : KindSet) (c : Bool) :
    (z.decide g s pos r (g.choices r) follow c).1 = answer g s limit pos r follow c ∧
      (z.decide g s pos r (g.choices r) follow c).2.Blank limit := by
  refine ⟨decide_of_unknown hz.limit (known?_of_nil hz.cache _), ?_⟩
  unfold Resolver.decide
  split
  · exact hz
  · dsimp only
    rw [known?_of_nil hz.cache]
    dsimp only
    split
    · exact hz
    · exact ⟨hz.limit, hz.caching, hz.cache⟩
    · split
      · exact ⟨hz.limit, hz.caching, by simp [noteCut, forgetFrom, hz.cache]⟩
      · refine ⟨?_, ?_, ?_⟩ <;> simp [noteCut, countSpeculated, remember, forgetFrom, hz.limit, hz.caching, hz.cache]

/-- The memory has no say in whether an element is entered. -/
theorem enter_eq_entry {z : Resolver} (hz : z.limit = limit) (e : Element) :
    (z.enter g s pos e follow c).1 = entry g s limit pos e follow c := by
  have hr : z.recognizer g s pos = (blank limit).recognizer g s pos := by
    rw [recognizer, recognizer, hz]
    rfl
  unfold entry enter
  rw [hr]
  dsimp only
  split
  · rfl
  · split
    · rfl
    · split <;> rfl

theorem enter_limit (z : Resolver) (g : Grammar) (s : Stream) (pos : Nat) (e : Element) (follow : KindSet)
    (c : Bool) :
    (z.enter g s pos e follow c).2.limit = z.limit ∧
      (z.enter g s pos e follow c).2.caching = z.caching ∧
        ∀ d ∈ (z.enter g s pos e follow c).2.cache, d ∈ z.cache := by
  have hsub : ∀ place, ∀ d ∈ (z.forgetFrom place).cache, d ∈ z.cache :=
    fun place d hd => (List.dropWhile_sublist _).subset hd
  unfold enter
  dsimp only
  split
  · exact ⟨rfl, rfl, fun _ => id⟩
  · split
    · exact ⟨rfl, rfl, fun _ => id⟩
    · split <;> exact ⟨rfl, rfl, hsub _⟩

theorem Blank.enter {z : Resolver} (hz : z.Blank limit) (g : Grammar) (s : Stream) (pos : Nat) (e : Element)
    (follow : KindSet) (c : Bool) : (z.enter g s pos e follow c).2.Blank limit := by
  obtain ⟨h1, h2, h3⟩ := z.enter_limit g s pos e follow c
  refine ⟨h1.trans hz.limit, h2.trans hz.caching, List.eq_nil_iff_forall_not_mem.2 fun d hd => ?_⟩
  simpa [hz.cache] using h3 d hd

/-! ### Resolvers that remember -/

/-- What is remembered of the next token is what would be decided here without memory. If `seeing`, nothing
is remembered of it. -/
structure Recalls (g : Grammar) (s : Stream) (keys : KindSet) (limit : Nat) (seeing : Bool) (z : Resolver)
    (pos : Nat) : Prop where
  answers : ∀ e ∈ z.cache, e.1.place = s.settle pos →
    answer g s limit pos e.1.rule e.1.follow e.1.comments = .ok e.2
  limit : z.limit = limit
  le : ∀ e ∈ z.cache, e.1.place ≤ s.settle pos
  keyless : ∀ e ∈ z.cache, e.1.place = s.settle pos → keys.contains (s.kind pos) = false
  behind : seeing = true → ∀ e ∈ z.cache, e.1.place < s.settle pos

variable {keys : KindSet} {seeing : Bool} {z : Resolver}

theorem recalls_make (caching : Bool) (n : Nat) :
    Recalls g s keys (max n 1) seeing (make n caching) pos := by
  refine ⟨?_, rfl, ?_, ?_, fun _ => ?_⟩ <;> simp [make]

namespace Recalls

variable (hz : Recalls g s keys limit seeing z pos)
include hz

omit hz in
theorem of_lt (hl : z.limit = limit) (h : ∀ e ∈ z.cache, e.1.place < s.settle pos) :
    Recalls g s keys limit seeing z pos :=
  ⟨fun e he hp => absurd hp (Nat.ne_of_lt (h e he)), hl, fun e he => Nat.le_of_lt (h e he),
    fun e he hp => absurd hp (Nat.ne_of_lt (h e he)), fun _ => h⟩

/-- What is remembered of a token that was taken is never asked for again. -/
theorem passed {pos' : Nat} (h : s.settle pos < s.settle pos') (seeing' : Bool) :
    Recalls g s keys limit seeing' z pos' :=
  of_lt hz.limit fun e he => Nat.lt_of_le_of_lt (hz.le e he) h

/-- A comment may be passed by if nothing is remembered of the token behind it. -/
theorem beside (hs : seeing = true) {pos' : Nat} (h : s.settle pos' = s.settle pos) :
    Recalls g s keys limit seeing z pos' :=
  of_lt hz.limit fun e he => h ▸ hz.behind hs e he

/-- Nothing is remembered of a key. -/
theorem seen (hk : keys.contains (s.kind pos) = true) : Recalls g s keys limit true z pos := by
  refine of_lt hz.limit fun e he => Nat.lt_of_le_of_ne (hz.le e he) fun hp => ?_
  rw [hz.keyless e he hp] at hk
  cases hk

theorem weaken {seeing' : Bool} (h : seeing' = true → seeing = true) : Recalls g s keys limit seeing' z pos :=
  ⟨hz.answers, hz.limit, hz.le, hz.keyless, fun hs => hz.behind (h hs)⟩

theorem sub {z' : Resolver} (hl : z'.limit = z.limit) (hsub : ∀ e ∈ z'.cache, e ∈ z.cache) :
    Recalls g s keys limit seeing z' pos :=
  ⟨fun e he => hz.answers e (hsub e he), hl.trans hz.limit, fun e he => hz.le e (hsub e he),
    fun e he => hz.keyless e (hsub e he), fun h e he => hz.behind h e (hsub e he)⟩

theorem enter (e : Element) (follow : KindSet) (c : Bool) :
    Recalls g s keys limit seeing (z.enter g s pos e follow c).2 pos :=
  have h := z.enter_limit g s pos e follow c
  hz.sub h.1 h.2.2

end Recalls

/-- Of several alternatives one is chosen that may begin here. -/
theorem viable_of_answer (hs : s.eof.kind = .eof) (hg : g.Founded) (hp : pos ≤ s.size) {i : Nat}
    (hl : (g.choices r).length ≠ 1) (h : answer g s limit pos r follow c = .ok i) :
    viable g (s.lookahead pos c) follow (elements g r i) = true := by
  unfold answer decide at h
  split at h
  · rename_i only ho
    exact absurd (by rw [ho]; rfl) hl
  · dsimp only at h
    rw [known?_of_nil rfl] at h
    dsimp only at h
    split at h
    · cases h
    · rename_i j hv
      cases h
      have hi : i ∈ (g.choices r).filter fun i => viable g (s.lookahead pos c) follow (elements g r i) :=
        hv ▸ List.mem_singleton_self i
      exact (List.mem_filter.1 hi).2
    · rename_i first rest hne hv
      obtain ⟨o, cut, ho, hin⟩ := tryAll_ok (z := (blank limit).recognizer g s pos) hs hg hp r follow c
        (first :: rest) (fun _ hi => hi) .empty (Memo.holds_empty _) ⟨none, none⟩ ⟨by simp, by simp⟩ false
      rw [ho] at h
      cases h
      have hi : o.getD first ∈ first :: rest := by
        rcases o with _ | i
        · exact List.mem_cons_self
        · exact hin i rfl
      rw [← hv] at hi
      exact (List.mem_filter.1 hi).2

/-- What one token decides is not tried. -/
theorem not_tried_of_tells {k : Kind} (h : g.tells r k = true) {first second : Nat} {rest : List Nat}
    (hv : (g.choices r).filter (fun i => viable g k follow (elements g r i)) = first :: second :: rest) :
    False := by
  have hle : ((g.choices r).filter fun i => viable g k follow (elements g r i)).length ≤
      ((g.choices r).filter fun i => (g.firstOfRow (elements g r i)).contains k ||
        g.rowNullable (elements g r i)).length := by
    rw [← List.countP_eq_length_filter, ← List.countP_eq_length_filter]
    refine List.countP_mono_left fun i _ hi => ?_
    simp only [viable, Bool.or_eq_true, Bool.and_eq_true] at hi ⊢
    exact hi.imp id And.left
  simp only [Grammar.tells, decide_eq_true_eq] at h
  rw [hv, List.length_cons, List.length_cons] at hle
  omega

/-- A decision is what it would be without memory, and if it was tried it is remembered rightly. -/
theorem Recalls.decide {seers : List Rule} (hg : g.Secluded seers keys)
    (hz : Recalls g s keys limit seeing z pos) (r : Rule) (hr : seeing = true → r ∈ seers) (follow : KindSet)
    (c : Bool) (hc : seeing = false → c = false) :
    (z.decide g s pos r (g.choices r) follow c).1 = answer g s limit pos r follow c ∧
      Recalls g s keys limit seeing (z.decide g s pos r (g.choices r) follow c).2 pos := by
  rcases hk : z.known? ⟨r, s.settle pos, follow, c⟩ with _ | i
  · have ha := decide_of_unknown (g := g) hz.limit hk
    refine ⟨ha, ?_⟩
    unfold Resolver.decide at ha ⊢
    split at ha
    · exact hz
    · dsimp only at ha ⊢
      rw [hk] at ha ⊢
      dsimp only at ha ⊢
      split at ha
      · exact hz
      · exact hz.sub rfl fun _ => id
      · rename_i first rest hne hv
        -- a trial is made, so neither comments are looked for nor is there a key
        obtain ⟨second, others, rfl⟩ := List.exists_cons_of_ne_nil hne
        have htells : ¬g.tells r (s.lookahead pos c) = true := fun h => not_tried_of_tells h hv
        have hs : seeing = false := by
          rw [Bool.eq_false_iff]
          exact fun h => htells (hg.tells r _ (.inl (hr h)))
        have hkey : keys.contains (s.kind pos) = false := by
          rw [Bool.eq_false_iff]
          intro h
          rw [hc hs] at htells
          exact htells (hg.tells r _ (.inr h))
        split at ha
        · exact hz.sub rfl fun e he => (List.dropWhile_sublist _).subset he
        · rename_i choice cut ht
          dsimp only at ha ⊢
          have hforget : Recalls g s keys limit seeing (z.forgetFrom (s.settle pos + 1)) pos :=
            hz.sub rfl fun e he => (List.dropWhile_sublist _).subset he
          unfold remember
          split
          · exact ⟨List.forall_mem_cons.2 ⟨fun _ => ha.symm, hforget.answers⟩, hforget.limit,
              List.forall_mem_cons.2 ⟨Nat.le_refl _, hforget.le⟩,
              List.forall_mem_cons.2 ⟨fun _ => hkey, hforget.keyless⟩, fun h => by simp [hs] at h⟩
          · exact hforget.sub rfl fun _ => id
  · have hm := mem_of_known? hk
    have ha := hz.answers _ hm rfl
    dsimp only at ha
    unfold Resolver.decide
    split
    · rename_i only ho
      refine ⟨?_, hz⟩
      unfold answer Resolver.decide
      rw [ho]
    · dsimp only
      rw [hk, ha]
      exact ⟨rfl, hz.sub rfl fun _ => id⟩

end Resolver

end KermlText
