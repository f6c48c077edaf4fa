import Jianpu.Proofs.Sheet.Arguments

/-!
# Reading passages

Reading the tokens of a passage onto a line of a builder adds to the score what the passage says
(`Passage.contents`), and to the pattern of the line the pattern of the passage, and leaves ambient
what is ambient after it: `Writing.readsPassage`, by induction on the passage. `Builder.Grows` is
what one step does and what all of them do.
-/

namespace Jianpu

/-! ## Contents -/

/-- What stands at the nodes of a score. -/
def Score.contents (g : Score) : List Content := g.nodes.toList.map (·.content)

theorem Score.getElem?_contents (g : Score) (n : Nat) : g.contents[n]? = g.content? n := by
  simp [contents, content?]

theorem Score.length_contents (g : Score) : g.contents.length = g.nodes.size := by
  simp [contents]

theorem Score.contents_congr {g g' : Score} (h : ∀ n, g'.content? n = g.content? n) :
    g'.contents = g.contents := by
  apply List.ext_getElem?
  intro n
  rw [getElem?_contents, getElem?_contents, h]

theorem Score.contents_concat {g g' : Score} {c : Content}
    (h : ∀ n, g'.content? n = if n = g.nodes.size then some c else g.content? n) :
    g'.contents = g.contents ++ [c] := by
  apply List.ext_getElem?
  intro n
  rw [getElem?_contents, h, List.getElem?_append, length_contents, getElem?_contents]
  split
  · rename_i hn
    simp [hn]
  · rename_i hn
    split
    · rfl
    · have hnone : g.content? n = none := by
        rw [← getElem?_contents, List.getElem?_eq_none_iff, length_contents]
        omega
      rw [hnone, eq_comm, List.getElem?_eq_none_iff, List.length_singleton]
      omega

/-! ## Growth -/

namespace Builder

/-- Moves above the lines below `i` have added nodes with the contents `cs` to a builder, and have
made the pattern of line `i` what `f` makes of it. -/
structure Grows (b b' : Builder) (i : Nat) (cs : List Content)
    (f : List Modifier.Kind → Shape ModifiedContent → Shape ModifiedContent) : Prop where
  ext : b.Extends b' i
  contents : b'.score.contents = b.score.contents ++ cs
  pattern : ∀ l, b'.Seen l → ∀ outer,
    (b'.line i).plan.pattern l outer = f outer ((b.line i).plan.pattern l outer)

namespace Grows

variable {b b₁ b' b'' : Builder} {i : Nat} {cs cs' : List Content} {ks : List Modifier.Kind}
  {f f' : List Modifier.Kind → Shape ModifiedContent → Shape ModifiedContent}

theorem refl (h : b.Ready i) : b.Grows b i [] fun _ w => w :=
  ⟨.refl h, (List.append_nil _).symm, fun _ _ _ => rfl⟩

theorem congr (h : b.Grows b' i cs f) (hcs : cs = cs') (hf : ∀ outer w, f outer w = f' outer w) :
    b.Grows b' i cs' f' :=
  ⟨h.ext, hcs ▸ h.contents, fun l hl outer => (h.pattern l hl outer).trans (hf ..)⟩

theorem trans (h : b.Grows b' i cs f) (h' : b'.Grows b'' i cs' f') :
    b.Grows b'' i (cs ++ cs') fun outer w => f' outer (f outer w) where
  ext := h.ext.trans (Nat.le_refl i) h'.ext
  contents := by rw [h'.contents, h.contents, List.append_assoc]
  pattern l hl outer := by rw [h'.pattern l hl, h.pattern l (h'.ext.seen hl)]

/-- A node was put at the end of a line, with `ks` in its slot now. -/
theorem node {c : Content} (hext : b.Extends b' i)
    (hplan : (b'.line i).plan =
      (b.line i).plan.seq (.node b.score.nodes.size b.slots.length) none)
    (hcontent : ∀ n, b'.score.content? n =
      if n = b.score.nodes.size then some c else b.score.content? n)
    (hkinds : ∀ l, b'.Seen l → l.kinds b.slots.length = ks) :
    b.Grows b' i [c] fun outer w => w ++ .node (some c, ks ++ outer) .nil where
  ext := hext
  contents := Score.contents_concat hcontent
  pattern l hl outer := by
    have hc := hl.content _ _ ((hcontent _).trans (if_pos rfl))
    rw [hplan, Plan.pattern_seq, Plan.pattern_node, hc, hkinds l hl]
    rfl

/-- What grew on the empty line above was put after a line, with `ks` in its slot now. -/
theorem group {slot : Option Slot} (h : b.Grows b₁ (i + 1) cs f) (hclear : b.line (i + 1) = {})
    (hext : b₁.Extends b' i)
    (hplan : (b'.line i).plan = (b.line i).plan.seq (b₁.line (i + 1)).plan
      (slot.map fun _ => b₁.slots.length))
    (hcontent : ∀ n, b'.score.content? n = b₁.score.content? n)
    (hkinds : ∀ l, b'.Seen l → slot ≠ none → l.kinds b₁.slots.length = ks)
    (hnone : slot = none → (b₁.line (i + 1)).nodes = []) :
    b.Grows b' i cs fun outer w => w ++ f (ks ++ outer) .nil where
  ext := h.ext.trans (Nat.le_succ i) hext
  contents := (Score.contents_congr hcontent).trans h.contents
  pattern l hl outer := by
    have hgroup := h.pattern l (hext.seen hl)
    rw [hclear] at hgroup
    rw [hplan, Plan.pattern_seq, ← Plan.pattern_empty l (ks ++ outer), ← hgroup]
    congr 1
    cases slot with
    | none =>
      have hnil := hnone rfl
      rw [Plan.pattern_of_nodes_eq_nil _ _ hnil, Plan.pattern_of_nodes_eq_nil _ _ hnil]
    | some slot =>
      have hks := hkinds l hl (by simp)
      rw [Valuation.around, Option.map_some, Option.map_some, Option.getD_some, hks]

/-- What grew on the empty line above was put beside a line. -/
theorem beside (h : b.Grows b₁ (i + 1) cs f) (hclear : b.line (i + 1) = {})
    (hext : b₁.Extends b' i)
    (hplan : (b'.line i).plan = (b.line i).plan.branch (b₁.line (i + 1)).plan)
    (hcontent : ∀ n, b'.score.content? n = b₁.score.content? n) :
    b.Grows b' i cs fun outer w => w.beside (f outer .nil) where
  ext := h.ext.trans (Nat.le_succ i) hext
  contents := (Score.contents_congr hcontent).trans h.contents
  pattern l hl outer := by
    have hbranch := h.pattern l (hext.seen hl) outer
    rw [hclear] at hbranch
    rw [hplan, Plan.pattern_branch, hbranch, Plan.pattern_empty]

end Grows

end Builder

/-! ## Ends of sequences -/

/-- What comes first, if anything, ends a sequence. -/
def Halts (ts : List Token) : Prop :=
  ∀ t, ts.head? = some t →
    t.kind = .closing ∨ t.isSeparator = true ∨ t.Names .track ∨ t.Names .voice

namespace Halts

variable {t : Token} {ts : List Token}

theorem nil : Halts [] := by simp [Halts]

theorem of_closing (h : t.kind = .closing) : Halts (t :: ts) := by
  rintro u ⟨⟩
  exact .inl h

theorem of_isSeparator (h : t.isSeparator = true) : Halts (t :: ts) := by
  rintro u ⟨⟩
  exact .inr (.inl h)

theorem of_names (h : t.Names .track ∨ t.Names .voice) : Halts (t :: ts) := by
  rintro u ⟨⟩
  exact .inr (.inr h)

end Halts

theorem unmarked_of_kind {t : Token} {ts : List Token} (h : t.kind ≠ .other) :
    Unmarked (t :: ts) := by
  rintro u ⟨⟩ m hm
  exact h (Token.kind_of_single? hm)

theorem Halts.unmarked {ts : List Token} (h : Halts ts) : Unmarked ts := by
  cases ts with
  | nil => simp [Unmarked]
  | cons t ts =>
    rcases h t rfl with hk | hs | ht | ht
    · exact unmarked_of_kind (by simp [hk])
    · refine Stops.unmarked ?_
      rintro u ⟨⟩
      exact .inr hs
    · exact unmarked_of_kind (by simp [ht.1])
    · exact unmarked_of_kind (by simp [ht.1])

/-- No passage starts with a mark. -/
theorem Passage.Written.unmarked {p : Passage} {ts rest : List Token} (h : p.Written ts)
    (hrest : Halts rest) : Unmarked (ts ++ rest) := by
  cases p with
  | nil =>
    obtain rfl : ts = [] := h
    exact hrest.unmarked
  | note degree marks p =>
    obtain ⟨t, ms, us, rfl, ht, -⟩ := h
    rintro u ⟨⟩ m hm
    rw [Token.single?_of_lexeme ht] at hm
    exact Phrase.digit_ne_char degree m (Option.some.inj hm)
  | group bs marks p =>
    obtain ⟨o, bs, c, ms, us, rfl, ho, -⟩ := h
    exact unmarked_of_kind (by simp [ho])
  | change c p =>
    obtain ⟨_, us, rfl, ⟨t, vs, rfl, ht, -⟩, -⟩ := h
    exact unmarked_of_kind (by simp [ht.1])

/-! ## Steps of the reader -/

namespace Writing

variable {log : List Diagnostic} {e e₁ e₂ e₃ : Macro.Expander Directive} {t t' : Token}
  {rest : List Token} {fuel : Nat} {g g' : Score} {settings : Settings} {a a' : Ambient}
  {s : Option Strand}

theorem sequence_halt (h : Serving log e rest) (hrest : Halts rest) (hf : 2 ≤ fuel)
    (s : Option Strand) (a : Ambient) (g : Score) (settings : Settings) :
    ∃ e', sequence fuel s a ⟨e, g, settings⟩ = some ((s, a), ⟨e', g, settings⟩) ∧
      Serving log e' rest := by
  cases rest with
  | nil => exact sequence_stop h (by simp [Stops]) hf s a g settings
  | cons t ts =>
    have hstop : t.kind = .closing ∨ t.isSeparator = true → Stops (t :: ts) := by
      rintro ht u ⟨⟩
      exact ht
    rcases hrest t rfl with hk | hs | ht
    · exact sequence_stop h (hstop (.inl hk)) hf s a g settings
    · exact sequence_stop h (hstop (.inr hs)) hf s a g settings
    · obtain ⟨fuel, rfl⟩ : ∃ k, fuel = k + 1 := ⟨fuel - 1, by omega⟩
      obtain ⟨e', hpeek, h'⟩ := h.peek (by omega : 1 ≤ fuel)
      have hpeek : Reading.peek fuel e = some (t, e') := hpeek
      have hkind : t.kind = .control := ht.elim (·.1) (·.1)
      refine ⟨e', ?_, h'⟩
      rw [sequence, bind_of_eq_some (read_of_eq_some hpeek g settings)]
      simp only [Token.isEof_of_kind hkind (by simp), hkind,
        Token.isSeparator_of_kind (t := t) (by simp [hkind])]
      rw [if_neg (by simp), if_neg (by simp), bind_of_eq_some (m := get) rfl]
      rcases ht with ht | ht <;> simp only [ht.directive? h'] <;> rfl

/-- The step of the reader for a directive that starts no track or voice. -/
theorem sequence_directive {d : Directive} {r : Option Content × Ambient} {body : Body}
    (hpeek : Reading.peek fuel e = some (t, e₁)) (hkind : t.kind = .control)
    (hd : e₁.directive? t = some d) (htrack : d ≠ .track) (hvoice : d ≠ .voice)
    (hnext : Reading.next fuel e₁ = some (t', e₂))
    (hdirective : directive fuel d t a ⟨e₂, g, settings⟩ = some (r, body)) :
    sequence (fuel + 1) s a ⟨e, g, settings⟩ =
      match r.1 with
      | none => sequence fuel s r.2 body
      | some x => (append s x t.span >>= fun y => sequence fuel (some y.1) r.2) body := by
  rw [sequence, bind_of_eq_some (read_of_eq_some hpeek g settings)]
  simp only [Token.isEof_of_kind hkind (by simp), hkind,
    Token.isSeparator_of_kind (t := t) (by simp [hkind])]
  rw [if_neg (by simp), if_neg (by simp), bind_of_eq_some (m := get) rfl]
  simp only [hd]
  cases d with
  | track => exact absurd rfl htrack
  | voice => exact absurd rfl hvoice
  | _ =>
    refine (bind_of_eq_some (read_of_eq_some hnext g settings)).trans ?_
    refine (bind_of_eq_some hdirective).trans ?_
    obtain ⟨x, a'⟩ := r
    cases x <;> rfl

end Writing

theorem Change.directive_ne (c : Change) : c.directive ≠ .track ∧ c.directive ≠ .voice := by
  cases c with
  | octave | velocity | times => simp [directive]
  | key minor => cases minor <;> simp [directive]
  | tempo perMinute => cases perMinute <;> simp [directive]

/-! ## Whole passages -/

namespace Writing

section Cases

variable (settings : Settings)

/-- Reading a passage adds it to the line. -/
def ReadsPassage (p : Passage) : Prop :=
  ∀ ⦃a : Ambient⦄ ⦃b : Builder⦄ ⦃i fuel : Nat⦄ ⦃log : List Diagnostic⦄
    ⦃e : Macro.Expander Directive⦄ ⦃ts rest : List Token⦄, b.Ready i → p.Written ts →
    Serving log e (ts ++ rest) → Halts rest → ts.length + 3 ≤ fuel →
    ∃ b' e' log', sequence fuel (b.line i).strand a ⟨e, b.score, settings⟩ =
        some (((b'.line i).strand, p.after a), ⟨e', b'.score, settings⟩) ∧
      Serving log' e' rest ∧ (p.Plain → log' = log) ∧
      b.Grows b' i (p.contents a) fun outer w => w ++ p.pattern a outer

/-- Reading a group puts its branches beside each other on an empty line. -/
def ReadsBraces (bs : Passages) : Prop :=
  ∀ ⦃a : Ambient⦄ ⦃b : Builder⦄ ⦃i fuel : Nat⦄ ⦃log : List Diagnostic⦄
    ⦃e : Macro.Expander Directive⦄ ⦃o c : Token⦄ ⦃ts rest : List Token⦄, b.Ready i →
    b.line i = {} → c.kind = .closing → bs.Written ts →
    Serving log e (o :: (ts ++ c :: rest)) → ts.length + 4 ≤ fuel →
    ∃ b' e' log', group fuel a ⟨e, b.score, settings⟩ =
        some ((b'.line i).strand, ⟨e', b'.score, settings⟩) ∧
      Serving log' e' rest ∧ (bs.Plain → log' = log) ∧ b.Grows b' i (bs.contents a) (bs.pattern a)

/-- Reading further branches puts them beside what is on the line. -/
def ReadsBeside (bs : Passages) : Prop :=
  ∀ ⦃a : Ambient⦄ ⦃b : Builder⦄ ⦃i fuel : Nat⦄ ⦃log : List Diagnostic⦄
    ⦃e : Macro.Expander Directive⦄ ⦃t c : Token⦄ ⦃ts rest : List Token⦄, b.Ready i →
    t.isSeparator = true → c.kind = .closing → bs.Written ts →
    Serving log e (t :: (ts ++ c :: rest)) → ts.length + 4 ≤ fuel →
    ∃ b' e' log', branches fuel (b.line i).strand a ⟨e, b.score, settings⟩ =
        some ((b'.line i).strand, ⟨e', b'.score, settings⟩) ∧
      Serving log' e' (c :: rest) ∧ (bs.Plain → log' = log) ∧
      b.Grows b' i (bs.contents a) (bs.pattern a)

variable {settings} {p : Passage} {bs : Passages} {marks : List Mark}

namespace ReadsPassage

theorem nil : ReadsPassage settings .nil := by
  intro a b i fuel log e ts rest hb hts h hrest hf
  obtain rfl : ts = [] := hts
  obtain ⟨e', hseq, h'⟩ :=
    sequence_halt h hrest (by omega : 2 ≤ fuel) (b.line i).strand a b.score settings
  exact ⟨b, e', log, hseq, h', fun _ => rfl, (Builder.Grows.refl hb).congr rfl fun _ w =>
    w.append_nil.symm⟩

theorem note {degree : Fin 8} (hp : ReadsPassage settings p) :
    ReadsPassage settings (.note degree marks p) := by
  intro a b i fuel log e ts rest hb hts h hrest hf
  obtain ⟨t, ms, us, rfl, ht, hms, hus⟩ := hts
  have hlength : ms.length = marks.length := by
    simpa [Mark.render] using congrArg List.length hms
  rw [List.length_cons, List.length_append] at hf
  rw [List.cons_append, List.append_assoc] at h
  obtain ⟨fuel, rfl⟩ : ∃ k, fuel = k + 1 := ⟨fuel - 1, by omega⟩
  obtain ⟨e₁, hpeek, h₁⟩ := h.peek (by omega : 1 ≤ fuel)
  obtain ⟨e₂, hnext, h₂⟩ := h₁.next (by omega : 1 ≤ fuel)
  obtain ⟨b₁, s, slot, happend, hext, hline, hslots, hcontent⟩ :=
    hb.append (a.content degree) t.span
  have hfilled : b₁.slots = b.slots ++ (some slot).toList.map (⟨·, []⟩) := hslots
  obtain ⟨b₂, e₃, hmods, h₃, hext₂, hlines, hsame, hkinds⟩ := modifiers_slot hext hfilled
    ⟨ms, hms, h₂⟩ (hus.unmarked hrest) (by omega : marks.length + 3 ≤ fuel) settings
  have hline₂ := (congrFun hlines i).trans hline
  have hnote := Builder.Grows.node hext₂ (congrArg Line.plan hline₂)
    (fun n => (hsame n).trans (hcontent n)) fun l hl => hkinds l hl (by simp)
  obtain ⟨b', e', log', hseq, h', hlog, hgrows⟩ :=
    hp hext₂.ready hus h₃ hrest (by omega : us.length + 3 ≤ fuel)
  refine ⟨b', e', log', ?_, h', hlog, (hnote.trans hgrows).congr rfl fun outer w => ?_⟩
  · rw [sequence_note hpeek ht hnext ht happend hmods]
    rw [hline₂] at hseq
    exact hseq
  · rw [Shape.append_assoc]
    rfl

theorem group (hbs : ReadsBraces settings bs) (hp : ReadsPassage settings p) :
    ReadsPassage settings (.group bs marks p) := by
  intro a b i fuel log e ts rest hb hts h hrest hf
  obtain ⟨o, ts, c, ms, us, rfl, ho, hts, hc, hms, hus⟩ := hts
  have hlength : ms.length = marks.length := by
    simpa [Mark.render] using congrArg List.length hms
  simp only [List.length_cons, List.length_append] at hf
  simp only [List.cons_append, List.append_assoc] at h
  obtain ⟨fuel, rfl⟩ : ∃ k, fuel = k + 1 := ⟨fuel - 1, by omega⟩
  obtain ⟨e₁, hpeek, h₁⟩ := h.peek (by omega : 1 ≤ fuel)
  -- the group is read onto the line above, which is empty
  have hclear := hb.clear (i + 1) (Nat.lt_succ_self i)
  obtain ⟨b₁, e₂, log₁, hgroup, h₂, hlog₁, hgrows₁⟩ :=
    hbs (hb.mono (Nat.le_succ i)) hclear hc hts h₁ (by omega : ts.length + 4 ≤ fuel)
  obtain ⟨b₂, slot, hconcat, hext₂, hplan₂, hslots, hnone, hcontent⟩ :=
    hgrows₁.ext.ready.concat
  rw [hgrows₁.ext.lower i (Nat.lt_succ_self i)] at hconcat hplan₂
  obtain ⟨b₃, e₃, hmods, h₃, hext₃, hlines, hsame, hkinds⟩ := modifiers_slot hext₂ hslots
    ⟨ms, hms, h₂⟩ (hus.unmarked hrest) (by omega : marks.length + 3 ≤ fuel) settings
  have hwhole := hgrows₁.group hclear hext₃ ((congrArg Line.plan (congrFun hlines i)).trans hplan₂)
    (fun n => (hsame n).trans (hcontent n)) hkinds hnone
  obtain ⟨b', e', log', hseq, h', hlog, hgrows⟩ :=
    hp hext₃.ready hus h₃ hrest (by omega : us.length + 3 ≤ fuel)
  refine ⟨b', e', log', ?_, h', ?_, (hwhole.trans hgrows).congr rfl fun outer w => ?_⟩
  · rw [sequence_group hpeek ho hgroup hconcat hmods]
    rw [hlines] at hseq
    exact hseq
  · rintro ⟨hplain, hplain'⟩
    rw [hlog hplain', hlog₁ hplain]
  · rw [Shape.append_assoc]
    rfl

theorem change {c : Change} (hp : ReadsPassage settings p) :
    ReadsPassage settings (.change c p) := by
  intro a b i fuel log e ts rest hb hts h hrest hf
  obtain ⟨_, us, rfl, ⟨t, vs, rfl, ht, hvs⟩, hus⟩ := hts
  simp only [List.length_append, List.length_cons] at hf
  simp only [List.append_assoc, List.cons_append] at h
  obtain ⟨fuel, rfl⟩ : ∃ k, fuel = k + 1 := ⟨fuel - 1, by omega⟩
  obtain ⟨e₁, hpeek, h₁⟩ := h.peek (by omega : 1 ≤ fuel)
  obtain ⟨e₂, hnext, h₂⟩ := h₁.next (by omega : 1 ≤ fuel)
  obtain ⟨log₃, e₃, hdirective, h₃⟩ :=
    directive_change c h₂ hvs (by omega : vs.length ≤ fuel) t a b.score settings
  have hstep := sequence_directive (s := (b.line i).strand) hpeek ht.1 (ht.directive? h₁)
    c.directive_ne.1 c.directive_ne.2 hnext hdirective
  cases hx : c.content? with
  | none =>
    simp only [hx] at hstep
    obtain ⟨b', e', log', hseq, h', -, hgrows⟩ :=
      hp hb hus h₃ hrest (by omega : us.length + 3 ≤ fuel)
    refine ⟨b', e', log', hstep.trans hseq, h', False.elim, hgrows.congr ?_ fun outer w => ?_⟩
    · rw [Passage.contents, hx]
      rfl
    · rw [Passage.pattern, Change.pattern, hx]
      rfl
  | some x =>
    simp only [hx] at hstep
    obtain ⟨b₁, s, slot, happend, hext, hline, hslots, hcontent⟩ := hb.append x t.span
    have hkinds : ∀ l, b₁.Seen l → l.kinds b.slots.length = [] := fun l hl =>
      hl.kinds _ ⟨slot, []⟩ (by rw [hslots, List.getElem?_concat_length])
    have hnode := Builder.Grows.node hext (congrArg Line.plan hline) hcontent hkinds
    obtain ⟨b', e', log', hseq, h', -, hgrows⟩ :=
      hp hext.ready hus h₃ hrest (by omega : us.length + 3 ≤ fuel)
    refine ⟨b', e', log', ?_, h', False.elim, (hnode.trans hgrows).congr ?_ fun outer w => ?_⟩
    · rw [hstep, bind_of_eq_some (append_of_eq happend e₃ settings)]
      rw [hline] at hseq
      exact hseq
    · rw [Passage.contents, hx]
      rfl
    · rw [Passage.pattern, Change.pattern, hx, Shape.append_assoc]
      rfl

/-- The step of the reader for a further branch. -/
theorem beside (hp : ReadsPassage settings p) {a : Ambient} {b : Builder} {i fuel : Nat}
    {log : List Diagnostic} {e : Macro.Expander Directive} {t : Token} {ts rest : List Token}
    (hb : b.Ready i) (ht : t.isSeparator = true) (hts : p.Written ts)
    (h : Serving log e (t :: (ts ++ rest))) (hrest : Halts rest) (hf : ts.length + 3 ≤ fuel) :
    ∃ b' e' log', branches (fuel + 1) (b.line i).strand a ⟨e, b.score, settings⟩ =
        branches fuel (b'.line i).strand a ⟨e', b'.score, settings⟩ ∧
      Serving log' e' rest ∧ (p.Plain → log' = log) ∧
      b.Grows b' i (p.contents a) fun outer w => w.beside (p.pattern a outer) := by
  obtain ⟨e₁, hpeek, h₁⟩ := h.peek (by omega : 1 ≤ fuel)
  obtain ⟨e₂, hnext, h₂⟩ := h₁.next (by omega : 1 ≤ fuel)
  have hclear := hb.clear (i + 1) (Nat.lt_succ_self i)
  obtain ⟨b₁, e₃, log', hseq, h₃, hlog, hgrows⟩ :=
    hp (a := a) (hb.mono (Nat.le_succ i)) hts h₂ hrest hf
  obtain ⟨b₂, hbranch, hext₂, hplan₂, hcontent⟩ := hgrows.ext.ready.branch
  rw [hgrows.ext.lower i (Nat.lt_succ_self i)] at hbranch hplan₂
  rw [hclear] at hseq
  exact ⟨b₂, e₃, log', branches_more hpeek ht hnext hseq hbranch, h₃, hlog,
    hgrows.beside hclear hext₂ hplan₂ hcontent⟩

/-- The step of the reader for the first branch of a group. -/
theorem inside (hp : ReadsPassage settings p) {a : Ambient} {b : Builder} {i fuel : Nat}
    {log : List Diagnostic} {e : Macro.Expander Directive} {o : Token} {ts rest : List Token}
    (hb : b.Ready i) (hline : b.line i = {}) (hts : p.Written ts)
    (h : Serving log e (o :: (ts ++ rest))) (hrest : Halts rest) (hf : ts.length + 3 ≤ fuel) :
    ∃ b' e₁ e' log', Reading.next fuel e = some (o, e₁) ∧
      sequence fuel none a ⟨e₁, b.score, settings⟩ =
        some (((b'.line i).strand, p.after a), ⟨e', b'.score, settings⟩) ∧
      Serving log' e' rest ∧ (p.Plain → log' = log) ∧
      b.Grows b' i (p.contents a) fun outer w => w.beside (p.pattern a outer) := by
  obtain ⟨e₁, hnext, h₁⟩ := h.next (by omega : 1 ≤ fuel)
  obtain ⟨b', e', log', hseq, h', hlog, hgrows⟩ := hp (a := a) hb hts h₁ hrest hf
  rw [hline] at hseq
  refine ⟨b', e₁, e', log', hnext, hseq, h', hlog, hgrows.ext, hgrows.contents,
    fun l hl outer => ?_⟩
  rw [hgrows.pattern l hl, hline, Plan.pattern_empty, Shape.nil_append, Shape.nil_beside]

end ReadsPassage

namespace ReadsBeside

theorem last (hp : ReadsPassage settings p) : ReadsBeside settings (.last p) := by
  intro a b i fuel log e t c ts rest hb ht hc hts h hf
  obtain ⟨fuel, rfl⟩ : ∃ k, fuel = k + 1 := ⟨fuel - 1, by omega⟩
  obtain ⟨b', e₁, log', hbranches, h₁, hlog, hgrows⟩ :=
    hp.beside (a := a) hb ht hts h (.of_closing hc) (by omega : ts.length + 3 ≤ fuel)
  obtain ⟨fuel, rfl⟩ : ∃ k, fuel = k + 1 := ⟨fuel - 1, by omega⟩
  obtain ⟨e', hpeek, h'⟩ := h₁.peek (by omega : 1 ≤ fuel)
  exact ⟨b', e', log', by rw [hbranches, branches_stop hpeek hc], h', hlog, hgrows⟩

theorem more (hp : ReadsPassage settings p) (hbs : ReadsBeside settings bs) :
    ReadsBeside settings (.more p bs) := by
  intro a b i fuel log e t c ts rest hb ht hc hts h hf
  obtain ⟨us, t', vs, rfl, hus, ht', hvs⟩ := hts
  simp only [List.length_append, List.length_cons] at hf
  simp only [List.append_assoc, List.cons_append] at h
  obtain ⟨fuel, rfl⟩ : ∃ k, fuel = k + 1 := ⟨fuel - 1, by omega⟩
  obtain ⟨b₁, e₁, log₁, hbranches, h₁, hlog₁, hgrows₁⟩ :=
    hp.beside (a := a) hb ht hus h (.of_isSeparator ht') (by omega : us.length + 3 ≤ fuel)
  obtain ⟨b', e', log', hrest, h', hlog, hgrows⟩ :=
    hbs hgrows₁.ext.ready ht' hc hvs h₁ (by omega : vs.length + 4 ≤ fuel)
  refine ⟨b', e', log', by rw [hbranches, hrest], h', ?_, hgrows₁.trans hgrows⟩
  rintro ⟨hplain, hplain'⟩
  rw [hlog hplain', hlog₁ hplain]

end ReadsBeside

namespace ReadsBraces

theorem last (hp : ReadsPassage settings p) : ReadsBraces settings (.last p) := by
  intro a b i fuel log e o c ts rest hb hline hc hts h hf
  obtain ⟨fuel, rfl⟩ : ∃ k, fuel = k + 1 := ⟨fuel - 1, by omega⟩
  obtain ⟨b', e₁, e₂, log', hnext, hseq, h₂, hlog, hgrows⟩ :=
    hp.inside (a := a) hb hline hts h (.of_closing hc) (by omega : ts.length + 3 ≤ fuel)
  obtain ⟨fuel, rfl⟩ : ∃ k, fuel = k + 1 := ⟨fuel - 1, by omega⟩
  -- the brace is looked at twice: it starts no further branch, and it closes the group
  obtain ⟨e₃, hpeek, h₃⟩ := h₂.peek (by omega : 1 ≤ fuel)
  obtain ⟨e₄, hpeek', h₄⟩ := h₃.peek (by omega : 1 ≤ fuel + 1)
  obtain ⟨e₅, hnext', h₅⟩ := h₄.next (by omega : 1 ≤ fuel + 1)
  exact ⟨b', e₅, log', group_of_sequence hnext hseq (branches_stop hpeek hc ..) hpeek' hc hnext',
    h₅, hlog, hgrows⟩

theorem more (hp : ReadsPassage settings p) (hbs : ReadsBeside settings bs) :
    ReadsBraces settings (.more p bs) := by
  intro a b i fuel log e o c ts rest hb hline hc hts h hf
  obtain ⟨us, t, vs, rfl, hus, ht, hvs⟩ := hts
  simp only [List.length_append, List.length_cons] at hf
  simp only [List.append_assoc, List.cons_append] at h
  obtain ⟨fuel, rfl⟩ : ∃ k, fuel = k + 1 := ⟨fuel - 1, by omega⟩
  obtain ⟨b₁, e₁, e₂, log₁, hnext, hseq, h₂, hlog₁, hgrows₁⟩ :=
    hp.inside (a := a) hb hline hus h (.of_isSeparator ht) (by omega : us.length + 3 ≤ fuel)
  obtain ⟨b', e₃, log', hbranches, h₃, hlog, hgrows⟩ :=
    hbs hgrows₁.ext.ready ht hc hvs h₂ (by omega : vs.length + 4 ≤ fuel)
  obtain ⟨e₄, hpeek, h₄⟩ := h₃.peek (by omega : 1 ≤ fuel)
  obtain ⟨e₅, hnext', h₅⟩ := h₄.next (by omega : 1 ≤ fuel)
  refine ⟨b', e₅, log', group_of_sequence hnext hseq hbranches hpeek hc hnext', h₅, ?_,
    hgrows₁.trans hgrows⟩
  rintro ⟨hplain, hplain'⟩
  rw [hlog hplain', hlog₁ hplain]

end ReadsBraces

end Cases

variable (settings : Settings)

mutual

/-- **Reading a passage adds to the line what the passage says**, and what is ambient then is what
is ambient after the passage. -/
theorem readsPassage : ∀ p, ReadsPassage settings p
  | .nil => .nil
  | .note _ _ p => .note (readsPassage p)
  | .group (.last q) _ p => .group (.last (readsPassage q)) (readsPassage p)
  | .group (.more q bs) _ p => .group (.more (readsPassage q) (readsBeside bs)) (readsPassage p)
  | .change _ p => .change (readsPassage p)

theorem readsBeside : ∀ bs, ReadsBeside settings bs
  | .last p => .last (readsPassage p)
  | .more p bs => .more (readsPassage p) (readsBeside bs)

end

end Writing

end Jianpu
