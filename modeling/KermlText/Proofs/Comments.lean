import Mathlib.Data.List.Forall2
import KermlText.Proofs.Answers
import KermlText.Proofs.Mirrors

/-! Comments and hidden tokens between the tokens that count. Without them a parse gives the same tree,
if none of the tokens that count leads to a rule that looks for comments. Where one does, a comment in
front of it is taken for the comment that the rule looks for. -/

namespace KermlText

/-- The same error, but for the place where the input ends. -/
def SyntaxError.Twins (eof eof' : Token) (e e' : SyntaxError) : Prop :=
  e' = e ∨ ∃ code rule expected, e = .make code rule eof expected ∧ e' = .make code rule eof' expected

/-- The parse of `v` is the one of `u` on what is left of its stream. -/
structure Setup.Thins (u v : Setup) (keep : Nat → Prop) (f : Nat → Nat) : Prop where
  stream : u.stream.Thins v.stream keep f
  grammar : v.grammar = u.grammar
  settings : v.settings = u.settings
  cancel : u.settings.cancel = none

/-- The sessions stand at the same token and know the same. -/
structure Session.Twins (u v : Setup) (keep : Nat → Prop) (f : Nat → Nat) (x y : Session) : Prop where
  pos : y.pos = f x.pos
  stop : u.stream.Stop keep x.pos
  resolver : x.resolver.Twins u.grammar u.stream keep f y.resolver
  errors : x.errors.Forall₂ (SyntaxError.Twins u.stream.eof v.stream.eof) y.errors
  sent : x.sent.Forall₂ (SyntaxError.Twins u.stream.eof v.stream.eof) y.sent
  recovering : y.recovering = x.recovering

/-- Only tokens of the stream that count are skipped. -/
theorem Stream.counts_of_mem_placesUpTo {s : Stream} {sync : KindSet} {n pos i : Nat}
    (h : i ∈ s.placesUpTo sync n pos) : i < s.size ∧ (s.token i).channel = .default := by
  refine ⟨?_, s.channel_of_mem_placesUpTo h⟩
  induction n generalizing pos with
  | zero => simp [placesUpTo] at h
  | succ n ih =>
    unfold placesUpTo at h
    rcases he : s.atEnd pos with _ | _
    · rw [s.next?_of_not_atEnd he] at h
      dsimp only at h
      split at h
      · simp at h
      · rcases List.mem_cons.1 h with rfl | h
        · exact s.settle_lt_of_not_atEnd he
        · exact ih h
    · simp [s.next?_of_atEnd he] at h

namespace Setup

variable {u v : Setup} {keep : Nat → Prop} {f : Nat → Nat} (h : u.Thins v keep f)
include h

section

variable {x y : Session} (hs : x.Twins u v keep f y)
include hs

theorem twins_reported (code : Code) (r : Rule) (expected : KindSet) :
    (u.reported code r expected x).Twins u v keep f (v.reported code r expected y) := by
  have hlen := hs.errors.length_eq
  unfold reported
  rw [hs.recovering, h.settings, ← hlen]
  split
  · exact ⟨hs.pos, hs.stop, hs.resolver, hs.errors, hs.sent, hs.recovering⟩
  · split
    · exact hs
    · -- the token at fault is the same, but for the mark for the end
      have hcurrent : v.stream.current y.pos = u.stream.current x.pos ∨
          u.stream.current x.pos = u.stream.eof ∧ v.stream.current y.pos = v.stream.eof := by
        rw [hs.pos]
        rcases he : u.stream.atEnd x.pos with _ | _
        · exact .inl (h.stream.current hs.stop.le_size he)
        · exact .inr ⟨Stream.current_of_atEnd he,
            Stream.current_of_atEnd ((h.stream.atEnd hs.stop.le_size).trans he)⟩
      have hkind := h.stream.kind hs.stop.le_size
      rw [Stream.kind, Stream.kind, ← hs.pos] at hkind
      have herror : ∀ code, SyntaxError.Twins u.stream.eof v.stream.eof
          (.make code r (u.stream.current x.pos) expected)
          (.make code r (v.stream.current y.pos) expected) := fun code => by
          rcases hcurrent with hc | ⟨hc, hc'⟩
          · exact .inl (hc ▸ rfl)
          · exact .inr ⟨code, r, expected, hc ▸ rfl, hc' ▸ rfl⟩
      dsimp only
      rw [hkind]
      exact ⟨hs.pos, hs.stop, hs.resolver, List.rel_append hs.errors (.cons (herror _) .nil),
        List.rel_append hs.sent (.cons (herror _) .nil), rfl⟩

omit h hs in
theorem strays_twins (h : u.Thins v keep f) {places : List Nat}
    (hp : ∀ i ∈ places, i < u.stream.size ∧ (u.stream.token i).channel = .default) :
    v.strays (places.map f) = u.strays places := by
  have htoken : ∀ i ∈ places, v.stream.token (f i) = u.stream.token i := fun i hi =>
    (h.stream.kept i (hp i hi).1 (h.stream.keep_of_default (hp i hi).1 (hp i hi).2)).2
  unfold strays
  simp only [List.map_eq_nil_iff, List.map_map]
  split
  · rfl
  · congr 2
    exact List.map_congr_left fun i hi => congrArg Child.token (htoken i hi)

theorem twins_skippedOver (context : KindSet) {places : List Nat}
    (hp : ∀ i ∈ places, i < u.stream.size ∧ (u.stream.token i).channel = .default) :
    (x.skippedOver context places).Twins u v keep f (y.skippedOver context (places.map f)) := by
  unfold Session.skippedOver
  rw [List.getLast?_map]
  rcases hl : places.getLast? with _ | last
  · exact hs
  · obtain ⟨hlt, hc⟩ := hp last (List.mem_of_getLast? hl)
    have hkeep := h.stream.keep_of_default hlt hc
    exact ⟨(h.stream.kept last hlt hkeep).1.symm, .inr ⟨last, hlt, hkeep, rfl⟩, hs.resolver, hs.errors,
      hs.sent, hs.recovering⟩

end

/-- A parse and the one on what is left of its stream stay in step. -/
theorem Thins.mirrors {keys : KindSet} (hg : u.grammar.Aside keys) (hfounded : u.grammar.Founded)
    (hk : u.stream.Sees keep ∨ ∀ i ≤ u.stream.size, keys.contains (u.stream.kind i) = false) :
    u.Mirrors v (Session.Twins u v keep f) (u.stream.Sees keep) where
  grammar := h.grammar
  depth := by rw [h.settings]
  cancel := h.cancel
  cancel' := h.settings ▸ h.cancel
  operators {r table} ht hr k tier node hl :=
    hr.imp_right fun hr => hg.operators r table hr ht k tier node hl
  noted e e' hs := ⟨hs.pos, hs.stop, hs.resolver, hs.errors, hs.sent, hs.recovering⟩
  checked hs := ⟨hs.pos, hs.stop, hs.resolver, hs.errors, hs.sent, hs.recovering⟩
  recovers hs := ⟨hs.pos, hs.stop, hs.resolver, hs.errors, hs.sent, rfl⟩
  place hs hs' := by
    rw [hs.pos, hs'.pos]
    exact h.stream.eq_iff_of_stop hs'.stop hs.stop
  kind hs := hs.pos ▸ h.stream.kind hs.stop.le_size
  lookahead hc hs := hs.pos ▸ h.stream.lookahead hc hs.stop.le_size
  atEnd hs := hs.pos ▸ h.stream.atEnd hs.stop.le_size
  current hs he := hs.pos ▸ h.stream.current hs.stop.le_size he
  matched hs he := by
    refine ⟨?_, h.stream.stop_next he, hs.resolver, hs.errors, hs.sent, rfl⟩
    rw [hs.pos, h.stream.settle hs.stop.le_size]
    exact (h.stream.next he).symm
  operated hs he := by
    refine ⟨?_, h.stream.stop_next he, hs.resolver, hs.errors, hs.sent, hs.recovering⟩
    rw [hs.pos, h.stream.settle hs.stop.le_size]
    exact (h.stream.next he).symm
  noComment hsees hs hn := by
    rw [hs.pos, h.stream.comment? hsees hs.stop.le_size, hn, Option.map_none]
  comment {x y i} hsees hs hi := by
    obtain ⟨hstop, hf, ht⟩ := h.stream.stop_comment hsees hi
    refine ⟨f i, ?_, ht, hf.symm, hstop, hs.resolver, hs.errors, hs.sent, rfl⟩
    rw [hs.pos, h.stream.comment? hsees hs.stop.le_size, hi, Option.map_some]
  reported code r expected hs := twins_reported h hs code r expected
  strays {x y} sync hs := by
    rw [passed, hs.pos, h.stream.placesUpTo_size sync hs.stop.le_size]
    exact strays_twins h fun i hi => Stream.counts_of_mem_placesUpTo hi
  skipped {x y} context sync hs := by
    rw [passed, passed, hs.pos, h.stream.placesUpTo_size sync hs.stop.le_size]
    exact twins_skippedOver h hs context fun i hi => Stream.counts_of_mem_placesUpTo hi
  stray {x y} hs := by
    rw [hs.pos, h.stream.placesUpTo ∅ 1 hs.stop.le_size]
    exact strays_twins h fun i hi => Stream.counts_of_mem_placesUpTo hi
  skippedOne {x y} context hs := by
    rw [hs.pos, h.stream.placesUpTo ∅ 1 hs.stop.le_size]
    exact twins_skippedOver h hs context fun i hi => Stream.counts_of_mem_placesUpTo hi
  decided {x y r c} follow hc hr hs := by
    obtain ⟨hd, hz, hunaware⟩ :=
      Resolver.twins_decide h.stream hg hk hs.resolver hs.stop follow hc hfounded hr
    dsimp only
    rw [hs.pos]
    exact ⟨hd, ⟨hs.pos, hs.stop, hz, hs.errors, hs.sent, hs.recovering⟩, hunaware⟩
  entered {x y e c} follow hc he hs := by
    dsimp only
    rw [hs.pos]
    refine (Resolver.twins_enter h.stream hg hk hs.resolver hs.stop follow hc he).imp_right
      (Or.imp_right ?_)
    rintro ⟨b, hb, hb', hz⟩
    exact ⟨b, hb, hb', hs.pos, hs.stop, hz, hs.errors, hs.sent, hs.recovering⟩

end Setup

/-! ### Token lists -/

/-- Tokens that do not count may be left out of a list. -/
theorem Stream.thins_filter {ts : List Token} {p : Token → Bool}
    (hp : ∀ t ∈ ts, t.channel = .default → p t = true) :
    (ofTokens ts).Thins (ofTokens (ts.filter p)) (fun i => p ((ofTokens ts).token i) = true)
      fun i => ((ts.take i).filter p).length := by
  have hat : ∀ i < (ofTokens ts).size, ts[i]? = some ((ofTokens ts).token i) := fun i hi =>
    (ofTokens ts).token_of_lt hi
  have hsize : (ofTokens ts).size = ts.length := by simp [ofTokens, size]
  refine ⟨rfl, ?_, fun i hi hk => ⟨?_, ?_⟩, fun i hi hk => ⟨?_, fun hc => ?_⟩, kind_eof_ofTokens _,
    kind_eof_ofTokens _⟩
  · rw [hsize, List.take_length]
    simp [ofTokens, size]
  · rw [List.take_add_one, hat i hi, Option.toList_some, List.filter_append, List.length_append,
      List.filter_cons_of_pos hk]
    rfl
  · have hsplit : ts.filter p =
        (ts.take i).filter p ++ (ofTokens ts).token i :: (ts.drop (i + 1)).filter p := by
      conv_lhs => rw [← List.take_append_drop i ts, List.filter_append]
      rw [List.drop_eq_getElem_cons (hsize ▸ hi), List.filter_cons]
      have := hat i hi
      rw [List.getElem?_eq_getElem (hsize ▸ hi)] at this
      rw [Option.some.inj this, if_pos hk]
    rw [token, ofTokens, List.getElem?_toArray]
    conv_lhs => rw [hsplit]
    simp
  · rw [List.take_add_one, hat i hi, Option.toList_some, List.filter_append,
      List.filter_cons_of_neg (by simpa using hk), List.filter_nil, List.append_nil]
  · exact hk (hp _ (List.mem_of_getElem? (hat i hi)) hc)

theorem Stream.mem_of_lt {ts : List Token} {i : Nat} (hi : i < (ofTokens ts).size) :
    (ofTokens ts).token i ∈ ts :=
  List.mem_of_getElem? ((ofTokens ts).token_of_lt hi)

/-- Where a token list has no key, no place of it shows one. -/
theorem Stream.contains_kind_ofTokens {ts : List Token} {keys : KindSet} (heof : keys.contains .eof = false)
    (hts : ∀ t ∈ ts, t.channel = .default → keys.contains t.kind = false) (i : Nat) :
    keys.contains ((ofTokens ts).kind i) = false := by
  rcases he : (ofTokens ts).atEnd i with _ | _
  · have hlt := (ofTokens ts).settle_lt_of_not_atEnd he
    exact hts _ (mem_of_lt hlt) ((ofTokens ts).channel_settle hlt)
  · rw [kind, current_of_atEnd he, kind_eof_ofTokens, heof]

/-- Tokens that do not count are left out and the tree stays, if comments stay or are not looked for. -/
theorem parseTokens_filter {r : Rule} {ts : List Token} {settings : Settings} {p : Token → Bool}
    (hcancel : settings.cancel = none) (hp : ∀ t ∈ ts, t.channel = .default → p t = true)
    (h : (∀ t ∈ ts, t.channel = .comment → p t = true) ∨
      kerml.aware r = false ∧ ∀ t ∈ ts, t.channel = .default → annotationKeys.contains t.kind = false) :
    ∃ q q', (parseTokens r ts settings).1 = .ok q ∧ (parseTokens r (ts.filter p) settings).1 = .ok q' ∧
      q'.root = q.root ∧
      q.errors.Forall₂ (SyntaxError.Twins (Stream.ofTokens ts).eof (Stream.ofTokens (ts.filter p)).eof)
        q'.errors := by
  have hthins : (Setup.ofTokens ts settings).Thins (Setup.ofTokens (ts.filter p) settings) _ _ :=
    ⟨Stream.thins_filter hp, rfl, rfl, hcancel⟩
  have hk : (Setup.ofTokens ts settings).stream.Sees (fun i => p ((Stream.ofTokens ts).token i) = true) ∨
      ∀ i ≤ (Setup.ofTokens ts settings).stream.size,
        annotationKeys.contains ((Setup.ofTokens ts settings).stream.kind i) = false := by
    refine h.imp (fun h i hi hc => h _ (Stream.mem_of_lt hi) hc) fun h i _ => ?_
    exact Stream.contains_kind_ofTokens (by decide) h.2 i
  have hr : (Setup.ofTokens ts settings).stream.Sees (fun i => p ((Stream.ofTokens ts).token i) = true) ∨
      kerml.aware r = false :=
    h.imp (fun h i hi hc => h _ (Stream.mem_of_lt hi) hc) And.left
  have hmeet := (hthins.mirrors aside_kerml founded_kerml hk).root (regular_ofTokens ts settings)
    (regular_ofTokens _ settings) (x := .start (Setup.ofTokens ts settings).settings)
    (y := .start (Setup.ofTokens (ts.filter p) settings).settings)
    ⟨rfl, .inl rfl, Resolver.twins_make _ _, .nil, .nil, rfl⟩ hr
  obtain ⟨n, x, y, hs, h, h'⟩ := parseTokens_meet hcancel hcancel hmeet
  exact ⟨⟨n, x.errors⟩, ⟨n, y.errors⟩, congrArg Prod.fst h, congrArg Prod.fst h', rfl, hs.errors⟩

/-! ### Comments where none are looked for -/

/-- The error, without its place if that is the end of input. -/
def SyntaxError.placeless (e : SyntaxError) : SyntaxError :=
  if e.found = .eof then { e with position := .start, start := 0, stop := 0 } else e

theorem SyntaxError.Twins.placeless {ts ts' : List Token} {e e' : SyntaxError}
    (h : e.Twins (Stream.ofTokens ts).eof (Stream.ofTokens ts').eof e') : e'.placeless = e.placeless := by
  have htext : ∀ ts, (Stream.ofTokens ts).eof.text = "" := fun ts => by
    unfold Stream.ofTokens
    dsimp only
    split <;> rfl
  rcases h with rfl | ⟨code, rule, expected, rfl, rfl⟩
  · rfl
  · have hk := Stream.kind_eof_ofTokens ts
    have hk' := Stream.kind_eof_ofTokens ts'
    have hw : wording code (Stream.ofTokens ts').eof expected =
        wording code (Stream.ofTokens ts).eof expected := by
      unfold wording
      rw [hk, hk', htext, htext]
    simp only [SyntaxError.placeless, make, hk, hk', hw, if_true]

/-- Of two token lists with the same tokens that count, none of which leads to a rule that looks for
comments, one is parsed as the other. -/
theorem parseTokens_uncommented {r : Rule} {ts ts' : List Token} {settings : Settings}
    (hcancel : settings.cancel = none) (hr : kerml.aware r = false)
    (hsame : ts'.filter (·.channel = .default) = ts.filter (·.channel = .default))
    (hkeys : ∀ t ∈ ts, t.channel = .default → annotationKeys.contains t.kind = false) :
    ∃ q q', (parseTokens r ts settings).1 = .ok q ∧ (parseTokens r ts' settings).1 = .ok q' ∧
      q'.root = q.root ∧ q'.errors.map (·.placeless) = q.errors.map (·.placeless) := by
  have hmem : ∀ t ∈ ts', t.channel = .default → annotationKeys.contains t.kind = false := by
    intro t ht hc
    have hf : t ∈ ts.filter (·.channel = .default) := hsame ▸ List.mem_filter.2 ⟨ht, by simpa using hc⟩
    exact hkeys t (List.mem_filter.1 hf).1 hc
  have hplaceless : ∀ {ts ts'} {es es' : List SyntaxError}, es.Forall₂
      (SyntaxError.Twins (Stream.ofTokens ts).eof (Stream.ofTokens ts').eof) es' →
        es'.map (·.placeless) = es.map (·.placeless) := fun h => by
    induction h with
    | nil => rfl
    | cons he _ ih => rw [List.map_cons, List.map_cons, he.placeless, ih]
  -- both lists are compared with the one that has only the tokens that count
  obtain ⟨q, p, hq, hp, hroot, herrors⟩ := parseTokens_filter (r := r) (p := (·.channel = .default))
    hcancel (fun t _ hc => by simpa using hc) (.inr ⟨hr, hkeys⟩)
  obtain ⟨q', p', hq', hp', hroot', herrors'⟩ := parseTokens_filter (r := r) (p := (·.channel = .default))
    hcancel (fun t _ hc => by simpa using hc) (.inr ⟨hr, hmem⟩)
  rw [hsame, hp] at hp'
  cases hp'
  exact ⟨q, q', hq, hq', hroot'.symm.trans hroot,
    (hplaceless herrors').symm.trans (hplaceless herrors)⟩

/-- A comment between two classes. -/
theorem parseTokens_uncommented_between :
    ∃ q q', (parseTokens .rootNamespace (scan "class A; class B;") .standard).1 = .ok q ∧
      (parseTokens .rootNamespace
        ((scan "class A; class B;").insertIdx 5 (.make .blockComment "/* c */" 9 ⟨0, 9⟩)) .standard).1 =
          .ok q' ∧
      q'.root = q.root ∧ q'.errors.map (·.placeless) = q.errors.map (·.placeless) :=
  parseTokens_uncommented rfl rfl (by decide +kernel) (by decide +kernel)

theorem checked_annotation :
    (parseTokens .rootNamespace (scan "class A;rep language \"x\" /* body */") .standard).1.toOption.any
        (fun p => p.ok && p.root.descendants.any fun n => n.rule == .annotationMember &&
          n.tokens.head? == (scan "class A;rep language \"x\" /* body */")[4]?) = true ∧
      (parseTokens .rootNamespace ((scan "class A;rep language \"x\" /* body */").insertIdx 4
        (.make .blockComment "/* c */" 8 ⟨0, 8⟩)) .standard).1.toOption.any (fun p => !p.ok) = true := by
  decide +kernel

/-- A comment in front of a textual representation is taken for its body, and the keyword that stands
there fits no alternative any more. -/
theorem parseTokens_comment_seen :
    ∃ p q, (parseTokens .rootNamespace (scan "class A;rep language \"x\" /* body */") .standard).1 = .ok p ∧
      p.ok = true ∧
      (∃ n ∈ p.root.descendants, n.rule = .annotationMember ∧
        n.tokens.head? = (scan "class A;rep language \"x\" /* body */")[4]?) ∧
      (parseTokens .rootNamespace ((scan "class A;rep language \"x\" /* body */").insertIdx 4
        (.make .blockComment "/* c */" 8 ⟨0, 8⟩)) .standard).1 = .ok q ∧
      q.ok = false := by
  obtain ⟨p, hp⟩ := parseTokens_answers .rootNamespace (scan "class A;rep language \"x\" /* body */")
    (rfl : Settings.standard.cancel = none)
  obtain ⟨q, hq⟩ := parseTokens_answers .rootNamespace
    ((scan "class A;rep language \"x\" /* body */").insertIdx 4 (.make .blockComment "/* c */" 8 ⟨0, 8⟩))
    (rfl : Settings.standard.cancel = none)
  have h := checked_annotation
  rw [hp, hq] at h
  simp only [Except.toOption, Option.any_some, Bool.and_eq_true, List.any_eq_true, beq_iff_eq,
    Bool.not_eq_true'] at h
  exact ⟨p, q, hp, h.1.1, h.1.2, hq, h.2⟩

end KermlText
