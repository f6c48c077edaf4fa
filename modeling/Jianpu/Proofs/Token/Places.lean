import Jianpu.Proofs.Token.Layout

/-!
# Where tokens stand, whatever the alphabet

In any alphabet, even one where a comment can start inside a name, a text is cut into tokens and
gaps, one after another: `Token.Laid`. So every token is a piece of the text, with the positions
that what is before it leads to (`Token.exists_place`), and no token starts before the last one
stops (`Token.chained_scan`).
-/

namespace Jianpu.Token

variable {a : Alphabet} {p q : Position} {cs : List Char} {c : Char} {t : Token} {ts : List Token}

/-- A text from `p` on is cut into tokens with gaps before them, and a gap before the end mark. -/
inductive Laid : Position → List Char → List Token → Prop
  | last (p : Position) (gap : List Char) (spaced : Bool) :
      Laid p gap [eof (p.advanceAll gap) spaced]
  | token {p : Position} {gap cs rest : List Char} {kind : Kind} {spaced : Bool} {ts : List Token}
      (hne : cs ≠ []) (hcs : ∀ c ∈ cs, isBlank c = false)
      (hrest : Laid (p.advanceAll (gap ++ cs)) rest ts) :
      Laid p (gap ++ (cs ++ rest))
        (⟨kind, String.ofList cs, ⟨p.advanceAll gap, p.advanceAll (gap ++ cs)⟩, spaced⟩ :: ts)

theorem isBlank_of_isNameChar (h : isNameChar c = true) : isBlank c = false := by
  by_contra hc
  rw [Bool.not_eq_false] at hc
  simp only [isBlank, Bool.or_eq_true, decide_eq_true_eq] at hc
  rcases hc with ((rfl | rfl) | rfl) | rfl <;> exact absurd h (by decide)

theorem laid_scanFrom (hreturn : ∀ d ∈ cs, d ≠ '\r') : Laid p cs (scanFrom a p cs) := by
  fun_induction scanFrom a p cs with
  | case1 p cs gap h =>
    have hposition : gap.position = p.advanceAll cs :=
      congrArg Gap.position (skip_of_nil hreturn h).1
    rw [hposition]
    exact .last ..
  | case2 p cs gap c rest h hlt kind more hshape stop ih =>
    obtain ⟨before, rfl, hskip, hc, -, -⟩ := exists_gap hreturn h
    obtain ⟨rest, hrest, hnames⟩ := shape_spec a c rest
    rw [hshape] at hrest hnames
    obtain rfl := hrest
    have hblank : ∀ d ∈ c :: more, isBlank d = false := List.forall_mem_cons.2
      ⟨(skipped?_eq_none_iff.1 hc).1, fun d hd => isBlank_of_isNameChar (hnames d hd)⟩
    have hposition : gap.position = p.advanceAll before := congrArg Gap.position hskip
    have hstop : stop = p.advanceAll (before ++ c :: more) := by
      rw [Position.advanceAll_append, ← hposition]
    rw [hstop, List.drop_left] at ih
    rw [hposition, hstop, List.drop_left]
    exact .token (List.cons_ne_nil c more) hblank (ih fun d hd => hreturn d (by simp [hd]))

/-! ## Places -/

/-- The token `t` is a piece of a text from `p` on. -/
structure PlacedIn (p : Position) (cs : List Char) (t : Token) (before after : List Char) :
    Prop where
  text : cs = before ++ (t.text.toList ++ after)
  span : t.span = ⟨p.advanceAll before, p.advanceAll (before ++ t.text.toList)⟩
  blank : ∀ c ∈ t.text.toList, isBlank c = false
  ne_nil : t.isEof = false → t.text.toList ≠ []

theorem Laid.exists_place (h : Laid p cs ts) (ht : t ∈ ts) :
    ∃ before after, t.PlacedIn p cs before after := by
  induction h with
  | last p gap spaced =>
    obtain rfl := List.mem_singleton.1 ht
    exact ⟨gap, [], by simp [eof], by simp [eof, Span.empty], by simp [eof], by simp [eof, isEof]⟩
  | @token p gap cs rest kind spaced ts hne hcs _ ih =>
    rcases List.mem_cons.1 ht with rfl | ht
    · exact ⟨gap, rest, by simp, by simp, by simpa using hcs, fun _ => by simpa using hne⟩
    · obtain ⟨before, after, htext, hspan, hblank, hne⟩ := ih ht
      refine ⟨gap ++ (cs ++ before), after, by simp [htext], ?_, hblank, hne⟩
      rw [hspan]
      simp [Position.advanceAll_append]

/-- The last token is an end mark, which takes nothing of the text. -/
theorem Laid.span_getLast? (h : Laid p cs ts) (ht : ts.getLast? = some t) :
    t.span = .empty t.span.start := by
  induction h with
  | last p gap spaced =>
    obtain rfl := Option.some.inj ht
    rfl
  | @token p gap cs rest kind spaced ts hne hcs hrest ih =>
    refine ih ?_
    cases ts with
    | nil => cases hrest
    | cons u us => rwa [List.getLast?_cons_cons] at ht

/-- Every token of a text is a piece of it, once all line ends have one form. -/
theorem exists_place {text : String} (ht : t ∈ scan a text) :
    ∃ before after, t.PlacedIn {} (foldLineEnds text.toList) before after :=
  (laid_scanFrom (forall_foldLineEnds _)).exists_place ht

/-! ## Order -/

/-- Each token starts where the one before it stops, or later, and so does the end at `q`. -/
def Chained (q : Position) : Position → List Token → Prop
  | p, [] => p ≤ q
  | p, t :: ts => p ≤ t.span.start ∧ t.span.start ≤ t.span.stop ∧ Chained q t.span.stop ts

theorem Chained.of_le {p' : Position} (h : Chained q p ts) (hp : p' ≤ p) : Chained q p' ts := by
  cases ts with
  | nil => exact hp.trans h
  | cons t ts => exact ⟨hp.trans h.1, h.2⟩

theorem Chained.of_suffix {us : List Token} (h : Chained q p ts) (hus : us <:+ ts) :
    Chained q p us := by
  induction ts generalizing p with
  | nil => exact List.suffix_nil.1 hus ▸ h
  | cons t ts ih =>
    rcases List.suffix_cons_iff.1 hus with rfl | hus
    · exact h
    · exact ih (h.2.2.of_le (h.1.trans h.2.1)) hus

theorem Laid.chained (h : Laid p cs ts) :
    ∃ q, ts.getLast?.map (·.span.start) = some q ∧ Chained q p ts := by
  induction h with
  | last p gap spaced => exact ⟨_, rfl, p.le_advanceAll gap, le_rfl, le_rfl⟩
  | @token p gap cs rest kind spaced ts hne hcs hrest ih =>
    obtain ⟨q, hq, hchained⟩ := ih
    refine ⟨q, ?_, p.le_advanceAll gap, ?_, hchained⟩
    · obtain ⟨t, ht, rfl⟩ := Option.map_eq_some_iff.1 hq
      rw [List.getLast?_cons, ht]
      rfl
    · rw [Position.advanceAll_append]
      exact Position.le_advanceAll ..

/-- The tokens of a text come one after another, and the end after them. -/
theorem chained_scan (a : Alphabet) (text : String) :
    ∃ q, (Source.ofText a text).endless = some q ∧ Chained q {} (scan a text) :=
  (laid_scanFrom (forall_foldLineEnds _)).chained

end Jianpu.Token
