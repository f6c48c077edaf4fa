import Jianpu.Proofs.Macro.Braces
import Jianpu.Proofs.Macro.Serve
import Jianpu.Proofs.Token.Places

/-!
# Where the tokens of an expander stand

A token keeps its span wherever expansion puts it, into a body, an argument or a replacement. So all
that an expander gives stands somewhere in the text (`Expander.Marked`), as the tokens of the text
do (`Span.OfToken`). In which order the tokens come is another matter, since a replacement can stand
before the call that it replaces. They come in the order of the text where no call is carried out
(`Expander.InOrder`).
-/

namespace Jianpu

/-- Lines and columns count from one. -/
structure Position.Proper (p : Position) : Prop where
  line : 1 ≤ p.line
  column : 1 ≤ p.column

/-- A part of a text that ends where it starts, or after that. -/
structure Span.Proper (s : Span) : Prop where
  start : s.start.Proper
  stop : s.stop.Proper
  le : s.start ≤ s.stop

/-- The span lies between two positions. -/
structure Span.Within (p q : Position) (s : Span) : Prop where
  start : p ≤ s.start
  le : s.start ≤ s.stop
  stop : s.stop ≤ q

theorem Span.Within.mono {p p' q : Position} {s : Span} (h : s.Within p q) (hp : p' ≤ p) :
    s.Within p' q := ⟨hp.trans h.start, h.le, h.stop⟩

theorem Position.Proper.advanceAll {p : Position} (h : p.Proper) (cs : List Char) :
    (p.advanceAll cs).Proper := by
  induction cs generalizing p with
  | nil => exact h
  | cons c cs ih =>
    refine ih ?_
    unfold advance
    split
    · exact ⟨Nat.le_add_left 1 _, Nat.le_refl 1⟩
    · exact ⟨h.line, Nat.le_trans h.column (Nat.le_add_right _ _)⟩

theorem Token.proper_of_mem_scan {a : Alphabet} {text : String} {t : Token} (ht : t ∈ scan a text) :
    t.span.Proper := by
  obtain ⟨before, after, hplace⟩ := exists_place ht
  have hstart : Position.Proper {} := ⟨Nat.le_refl 1, Nat.le_refl 1⟩
  rw [hplace.span]
  refine ⟨hstart.advanceAll _, hstart.advanceAll _, ?_⟩
  rw [Position.advanceAll_append]
  exact Position.le_advanceAll ..

/-- The span is that of a token of the text. -/
def Span.OfToken (a : Alphabet) (text : String) (s : Span) : Prop :=
  ∃ t ∈ Token.scan a text, t.span = s

theorem Span.OfToken.proper {a : Alphabet} {text : String} {s : Span} (h : s.OfToken a text) :
    s.Proper := by
  obtain ⟨t, ht, rfl⟩ := h
  exact Token.proper_of_mem_scan ht

/-- What the tokens of a source and its end mark take of the text satisfies `P`. -/
structure Source.Spanned (P : Span → Prop) (s : Source) : Prop where
  tokens : ∀ t ∈ s.tokens, P t.span
  endless : ∀ q ∈ s.endless, P (.empty q)

theorem Source.spanned_ofText (a : Alphabet) (text : String) :
    (ofText a text).Spanned (Span.OfToken a text) where
  tokens t ht := ⟨t, ht, rfl⟩
  endless q hq := by
    obtain ⟨t, ht, rfl⟩ := Option.map_eq_some_iff.1 hq
    have hlaid : Token.Laid {} (Token.foldLineEnds text.toList) (Token.scan a text) :=
      Token.laid_scanFrom (Token.forall_foldLineEnds _)
    exact ⟨t, List.mem_of_getLast? ht, hlaid.span_getLast? ht⟩

namespace Macro

/-- What is ahead in some sources satisfies `P`, and they do not run dry. -/
structure Stack.Spanned (P : Span → Prop) (sources : List Source) : Prop where
  each : ∀ s ∈ sources, s.Spanned P
  endless : ∃ s q, sources.getLast? = some s ∧ s.endless = some q

namespace Stack.Spanned

variable {P : Span → Prop} {sources : List Source}

theorem push (h : Spanned P sources) {s : Source} (hs : s.Spanned P) :
    Spanned P (s :: sources) := by
  refine ⟨List.forall_mem_cons.2 ⟨hs, h.each⟩, ?_⟩
  obtain ⟨s', q, hlast, hq⟩ := h.endless
  exact ⟨s', q, by rw [List.getLast?_cons, hlast]; rfl, hq⟩

theorem bottom {stack : Stack} (h : Spanned P stack.sources) :
    Spanned P stack.bottom.sources := by
  obtain ⟨s, q, hlast, hq⟩ := h.endless
  refine ⟨fun s hs => h.each s (List.mem_of_mem_drop hs), s, q, ?_, hq⟩
  have hpos : 0 < stack.sources.length := List.length_pos_of_mem (List.mem_of_getLast? hlast)
  have hsize := stack.size_eq
  change (stack.sources.drop (stack.size - 1)).getLast? = some s
  rw [List.getLast?_drop, if_neg (by omega), hlast]

theorem pullFrom (h : Spanned P sources) (size : Nat) (hsize : size = sources.length) :
    ∃ t, (Stack.pullFrom sources size hsize).1 = some t ∧ P t.span ∧
      Spanned P (Stack.pullFrom sources size hsize).2.sources := by
  induction sources generalizing size with
  | nil =>
    obtain ⟨s, q, hlast, -⟩ := h.endless
    cases hlast
  | cons s below ih =>
    obtain ⟨⟨htokens, hend⟩, hbelow⟩ := List.forall_mem_cons.1 h.each
    obtain ⟨s', q, hlast, hq⟩ := h.endless
    obtain ⟨tokens, endless⟩ := s
    cases tokens with
    | cons t ts =>
      obtain ⟨ht, hts⟩ := List.forall_mem_cons.1 htokens
      refine ⟨t, rfl, ht, List.forall_mem_cons.2 ⟨⟨hts, hend⟩, hbelow⟩, ?_⟩
      cases below with
      | nil =>
        obtain rfl := Option.some.inj hlast
        exact ⟨_, q, rfl, hq⟩
      | cons u us => exact ⟨s', q, hlast, hq⟩
    | nil =>
      cases endless with
      | none =>
        refine ih ⟨hbelow, s', q, ?_, hq⟩ _ _
        cases below with
        | nil =>
          obtain rfl := Option.some.inj hlast
          cases hq
        | cons u us => exact hlast
      | some q => exact ⟨.eof q false, rfl, hend q rfl, h⟩

end Stack.Spanned

/-- A text that is read from stays the only source. -/
theorem Stack.Rest.exists_suffix {ts : List Token} {q : Position} {ss : List Source}
    (h : Rest [⟨ts, some q⟩] ss) : ∃ us, ss = [⟨us, some q⟩] ∧ us <:+ ts := by
  generalize hs : [(⟨ts, some q⟩ : Source)] = sources at h
  induction h generalizing ts with
  | refl ss => exact ⟨ts, hs.symm, List.suffix_rfl⟩
  | @token t us endless rest ss' h ih =>
    obtain ⟨heq, rfl⟩ := List.cons.inj hs
    obtain ⟨rfl, rfl⟩ := Source.mk.inj heq
    obtain ⟨vs, hvs, hsuffix⟩ := ih rfl
    exact ⟨vs, hvs, hsuffix.trans (List.suffix_cons t us)⟩
  | drop h ih => cases hs

/-- A replacement is made of the tokens of a body and of arguments, with their spans. -/
theorem spanned_replacement {P : Span → Prop} {call : Token} {args : Arguments} {body : List Token}
    (hargs : ∀ i, ∀ t ∈ args i, P t.span) (hbody : ∀ t ∈ body, P t.span) :
    ∀ t ∈ replacement call args body, P t.span := by
  have hspace : ∀ (spaced : Bool) (ts : List Token), (∀ t ∈ ts, P t.span) →
      ∀ t ∈ withSpace spaced ts, P t.span := by
    intro spaced ts hts
    cases ts with
    | nil => exact hts
    | cons u us => exact List.forall_mem_cons.2 (List.forall_mem_cons.1 hts)
  have hsubstitute : ∀ t ∈ substitute args body, P t.span := by
    intro t ht
    obtain ⟨u, hu, ht⟩ := List.mem_flatMap.1 ht
    split at ht
    · exact hspace _ _ (hargs _) t ht
    · rw [List.mem_singleton.1 ht]
      exact hbody u hu
  unfold replacement
  split
  · simp
  · rename_i u us heq
    rw [heq] at hsubstitute
    exact List.forall_mem_cons.2 (List.forall_mem_cons.1 hsubstitute)

namespace Expander

variable {δ : Type} {P : Span → Prop} {D : Diagnostic → Prop} {e : Expander δ} {t : Token}
  {fuel : Nat}

/-- The spans of all tokens that are ahead or in definitions satisfy `P`, and what was reported
satisfies `D`. -/
structure Marked (P : Span → Prop) (D : Diagnostic → Prop) (e : Expander δ) : Prop where
  peeked : ∀ t ∈ e.peeked, P t.span
  sources : Stack.Spanned P e.stack.sources
  bodies : e.scopes.Each fun d => ∀ t ∈ d.body, P t.span
  reported : ∀ x ∈ e.reported, D x

theorem marked_ofSource {s : Source} (hs : s.Spanned P) {q : Position} (hq : s.endless = some q)
    {scopes : Scopes δ} (hscopes : scopes.Each fun d => ∀ t ∈ d.body, P t.span) (limit : Nat) :
    (ofSource s scopes limit).Marked P D where
  peeked := by simp [ofSource]
  sources := ⟨by simpa [ofSource, Stack.ofSource] using hs, s, q, rfl, hq⟩
  bodies := hscopes
  reported := by simp [ofSource]

namespace Marked

theorem report (h : e.Marked P D) {c : Cause} {s : Span} (hx : D ⟨c, s⟩) :
    (e.report c s).Marked P D :=
  ⟨h.peeked, h.sources, h.bodies, List.forall_mem_cons.2 ⟨hx, h.reported⟩⟩

/-- A token is put back, or the one that was put back is taken. -/
theorem hold (h : e.Marked P D) {peeked : Option Token} (hpeeked : ∀ t ∈ peeked, P t.span) :
    Marked P D { e with peeked } := ⟨hpeeked, h.sources, h.bodies, h.reported⟩

theorem pull (h : e.Marked P D) : P e.pull.1.span ∧ e.pull.2.Marked P D := by
  have hpull : ∃ t, e.stack.pull.1 = some t ∧ P t.span ∧
      Stack.Spanned P e.stack.pull.2.sources := h.sources.pullFrom _ e.stack.size_eq
  unfold Expander.pull
  split <;> rename_i hp <;> rw [hp] at hpull <;> obtain ⟨t, heq, ht, hsources⟩ := hpull
  · obtain rfl := Option.some.inj heq
    exact ⟨ht, h.peeked, hsources, h.bodies, h.reported⟩
  · cases heq

end Marked

section

variable (hD : ∀ x : Diagnostic, P x.span → D x)
include hD

namespace Marked

theorem track (h : e.Marked P D) (ht : P t.span) : (e.track t).Marked P D := by
  have hbodies := each_track h.bodies t
  unfold Expander.track at hbodies ⊢
  split
  · rename_i hkind
    rw [hkind] at hbodies
    exact ⟨h.peeked, h.sources, hbodies, h.reported⟩
  · rename_i hkind
    rw [hkind] at hbodies
    dsimp only at hbodies
    split
    · rename_i hs
      rw [hs] at hbodies
      exact ⟨h.peeked, h.sources, hbodies, h.reported⟩
    · exact h.report (hD _ ht)
  · split
    · exact ⟨h.peeked, h.sources, h.bodies.reset, (h.report (hD _ ht)).reported⟩
    · exact h
  · exact h

theorem nextRaw (h : e.Marked P D) : P e.nextRaw.1.span ∧ e.nextRaw.2.Marked P D := by
  unfold Expander.nextRaw
  split
  · rename_i t hpeeked
    exact ⟨h.peeked t hpeeked, h.hold (by simp)⟩
  · exact ⟨h.pull.1, h.pull.2.track hD h.pull.1⟩

theorem groupRestRaw (h : e.Marked P D) (level : Nat) :
    (∀ t ∈ (groupRestRaw level e).1, P t.span) ∧ (groupRestRaw level e).2.Marked P D := by
  fun_induction Expander.groupRestRaw level e with
  | case1 level e r hend => exact ⟨by simp, (h.nextRaw hD).2⟩
  | case2 level e r hend hlt hl => exact ⟨by simpa using (h.nextRaw hD).1, (h.nextRaw hD).2⟩
  | case3 level e r hend hlt level' hl g ih =>
    obtain ⟨hr, hstate⟩ := h.nextRaw hD
    exact ⟨List.forall_mem_cons.2 ⟨hr, (ih hstate).1⟩, (ih hstate).2⟩

theorem groupRaw (h : e.Marked P D) (ht : P t.span) :
    (∀ u ∈ (groupRaw t e).1, P u.span) ∧ (groupRaw t e).2.Marked P D := by
  unfold Expander.groupRaw
  split
  · exact ⟨List.forall_mem_cons.2 ⟨ht, (h.groupRestRaw hD 0).1⟩, (h.groupRestRaw hD 0).2⟩
  · exact ⟨by simpa using ht, h⟩

theorem untilDelimiter (h : e.Marked P D) (delimiter : String) :
    (∀ t ∈ (untilDelimiter delimiter e).1, P t.span) ∧
    (untilDelimiter delimiter e).2.Marked P D := by
  fun_induction Expander.untilDelimiter delimiter e with
  | case1 e r hend =>
    obtain ⟨hr, hstate⟩ := h.nextRaw hD
    exact ⟨by simp, hstate.hold (by simpa using hr)⟩
  | case2 e r hend htext =>
    obtain ⟨hr, hstate⟩ := h.nextRaw hD
    exact ⟨by simp, hstate.hold (by simpa using hr)⟩
  | case3 e r hend htext g hlt rest ih =>
    obtain ⟨hr, hstate⟩ := h.nextRaw hD
    obtain ⟨hg, hstate⟩ := hstate.groupRaw hD hr
    exact ⟨List.forall_mem_append.2 ⟨hg, (ih hstate).1⟩, (ih hstate).2⟩

/-! ### Calls and definitions -/

theorem matchPattern (h : e.Marked P D) (name : String) (pattern : List Token) {args : Arguments}
    (hargs : ∀ i, ∀ t ∈ args i, P t.span) :
    (∀ args' ∈ (matchPattern name pattern args e).1, ∀ i, ∀ t ∈ args' i, P t.span) ∧
      (matchPattern name pattern args e).2.Marked P D := by
  induction pattern generalizing args e with
  | nil => exact ⟨by simpa [Expander.matchPattern] using hargs, h⟩
  | cons f pattern ih =>
    obtain ⟨hr, hnext⟩ := h.nextRaw hD
    have hbind : ∀ {ts : List Token} (i : Nat), (∀ t ∈ ts, P t.span) →
        ∀ j, ∀ t ∈ args.bind i ts j, P t.span := by
      intro ts i hts j
      unfold Arguments.bind
      split
      · exact hts
      · exact hargs j
    rw [Expander.matchPattern]
    split
    · dsimp only
      split
      · exact ⟨by simp, hnext.report (hD _ hr)⟩
      · split
        · exact ⟨by simp, hnext.report (hD _ hr)⟩
        · exact ih hnext hargs
    · dsimp only
      split
      · exact ⟨by simp, hnext.report (hD _ hr)⟩
      · obtain ⟨hg, hgroup⟩ := hnext.groupRaw hD hr
        exact ih hgroup (hbind _ hg)
    · rename_i delimiter _ hd
      obtain ⟨hg, hgroup⟩ := h.untilDelimiter hD delimiter.text
      dsimp only
      split
      · obtain ⟨hlast, hstate⟩ := hgroup.nextRaw hD
        exact ⟨by simp, hstate.report (hD _ hlast)⟩
      · exact ih hgroup (hbind _ hg)

theorem expand (h : e.Marked P D) {call : Token} (hcall : P call.span) {d : Definition}
    (hd : ∀ t ∈ d.body, P t.span) : (e.expand call d).Marked P D := by
  have hempty : ∀ i, ∀ t ∈ Arguments.empty i, P t.span := by simp [Arguments.empty]
  obtain ⟨hargs, hstate⟩ := h.matchPattern hD d.name d.pattern hempty
  rcases expand_cases e call d with ⟨m, hm, heq⟩ | ⟨args, m, hm, ⟨-, _, heq⟩ | ⟨-, heq⟩⟩ <;>
    rw [hm] at hargs hstate <;> rw [heq]
  · exact hstate
  · exact ⟨hstate.peeked, hstate.sources.bottom, hstate.bodies,
      (hstate.report (hD _ hcall)).reported⟩
  · have hnew : (Source.ofTokens (replacement call args d.body)).Spanned P :=
      ⟨spanned_replacement (hargs args rfl) hd, by simp [Source.ofTokens]⟩
    exact ⟨hstate.peeked, hstate.sources.push hnew, hstate.bodies, hstate.reported⟩

theorem readPattern (h : e.Marked P D) (count : Nat) :
    P (readPattern count e).1.2.2.span ∧ (readPattern count e).2.Marked P D := by
  fun_induction Expander.readPattern count e with
  | case1 count e r hend => exact h.nextRaw hD
  | case2 count e r hend hopening => exact h.nextRaw hD
  | case3 count e r hend hopening hlt count' bad rest ih =>
    obtain ⟨hr, hstate⟩ := h.nextRaw hD
    refine ih ?_
    cases bad with
    | false => exact hstate
    | true => exact hstate.report (hD _ hr)

theorem define (h : e.Marked P D) (everywhere : Bool) : (e.define everywhere).Marked P D := by
  obtain ⟨hname, hstate⟩ := h.nextRaw hD
  unfold Expander.define
  dsimp only
  split
  · exact hstate.report (hD _ hname)
  · obtain ⟨hlast, hpattern⟩ := hstate.readPattern hD 0
    split
    · exact hpattern.report (hD _ hlast)
    · obtain ⟨hgroup, hend⟩ := hpattern.groupRaw hD hlast
      have hbody : ∀ t ∈ unwrap (Expander.groupRaw (e.nextRaw.2.readPattern 0).1.2.2
          (e.nextRaw.2.readPattern 0).2).1, P t.span :=
        fun t ht => hgroup t (unwrap_subset _ ht)
      rw [foldl_report]
      refine ⟨hend.peeked, hend.sources, ?_, ?_⟩
      · refine Scopes.Each.define hend.bodies ?_ _ _
        exact fun t ht => hbody t (List.mem_filter.1 ht).1
      · refine List.forall_mem_append.2 ⟨fun x hx => ?_, hend.reported⟩
        obtain ⟨t, ht, rfl⟩ := List.mem_map.1 (List.mem_reverse.1 hx)
        exact hD _ (hbody t (List.mem_filter.1 ht).1)

/-! ### Expanding reads -/

theorem read (h : e.Marked P D) {r : Token × Expander δ} (hr : e.read fuel = some r) :
    P r.1.span ∧ r.2.Marked P D := by
  induction fuel generalizing e with
  | zero => cases hr
  | succ fuel ih =>
    obtain ⟨ht, hpull⟩ := h.pull
    rw [Expander.read] at hr
    split at hr
    · split at hr
      · obtain rfl := Option.some.inj hr
        exact ⟨ht, hpull⟩
      · exact ih (hpull.define hD _) hr
      · rename_i d hd
        exact ih (hpull.expand hD ht (hpull.bodies.get? hd)) hr
      · exact ih (hpull.report (hD _ ht)) hr
    · obtain rfl := Option.some.inj hr
      exact ⟨ht, hpull.track hD ht⟩

theorem next (h : e.Marked P D) {r : Token × Expander δ} (hr : e.next fuel = some r) :
    P r.1.span ∧ r.2.Marked P D := by
  unfold Expander.next at hr
  split at hr
  · rename_i t hpeeked
    obtain rfl := Option.some.inj hr
    exact ⟨h.peeked t hpeeked, h.hold (by simp)⟩
  · exact h.read hD hr

theorem peek (h : e.Marked P D) {r : Token × Expander δ} (hr : e.peek fuel = some r) :
    P r.1.span ∧ r.2.Marked P D := by
  obtain ⟨q, hq, rfl⟩ := Option.map_eq_some_iff.1 hr
  obtain ⟨ht, hstate⟩ := h.next hD hq
  exact ⟨ht, hstate.hold (by simpa using ht)⟩

theorem groupRest (h : e.Marked P D) {level : Nat} {r : List Token × Expander δ}
    (hr : groupRest fuel level e = some r) : (∀ t ∈ r.1, P t.span) ∧ r.2.Marked P D := by
  induction fuel generalizing e level r with
  | zero => cases hr
  | succ fuel ih =>
    obtain ⟨⟨t, e'⟩, hnext, hr⟩ := Option.bind_eq_some_iff.1 hr
    obtain ⟨ht, hstate⟩ := h.next hD hnext
    dsimp only at hr
    split at hr
    · obtain rfl := Option.some.inj hr
      exact ⟨by simp, hstate⟩
    · split at hr
      · obtain rfl := Option.some.inj hr
        exact ⟨by simpa using ht, hstate⟩
      · obtain ⟨⟨ts, e''⟩, hrest, hr⟩ := Option.bind_eq_some_iff.1 hr
        obtain rfl := Option.some.inj hr
        exact ⟨List.forall_mem_cons.2 ⟨ht, (ih hstate hrest).1⟩, (ih hstate hrest).2⟩

theorem group (h : e.Marked P D) (ht : P t.span) {r : List Token × Expander δ}
    (hr : e.group fuel t = some r) : (∀ u ∈ r.1, P u.span) ∧ r.2.Marked P D := by
  unfold Expander.group at hr
  split at hr
  · obtain ⟨g, hg, rfl⟩ := Option.map_eq_some_iff.1 hr
    exact ⟨List.forall_mem_cons.2 ⟨ht, (h.groupRest hD hg).1⟩, (h.groupRest hD hg).2⟩
  · obtain rfl := Option.some.inj hr
    exact ⟨by simpa using ht, h⟩

end Marked

end

/-! ## The order of tokens -/

/-- If the token is a control sequence, it neither defines nor calls. -/
def Idle (global : Frame δ) (t : Token) : Prop :=
  t.kind = .control → global.lookup t.text = none ∨ ∃ d, global.lookup t.text = some (.directive d)

theorem Idle.exists_directive {global : Frame δ} (h : Idle global t) (hkind : t.kind = .control)
    {b : Binding δ} (hb : global.lookup t.text = some b) : ∃ d, b = .directive d := by
  rcases h hkind with hnone | ⟨d, hd⟩
  · rw [hnone] at hb
    cases hb
  · rw [hd] at hb
    exact ⟨d, (Option.some.inj hb).symm⟩

/-- The tokens ahead are those of one text, from `p` on, and no call will change that: calls are all
given up, or there is nothing to call. -/
structure InOrder (global : Frame δ) (p : Position) (e : Expander δ) : Prop where
  chained : ∃ ts q, e.stack.sources = [⟨ts, some q⟩] ∧ Token.Chained q p (e.peeked.toList ++ ts) ∧
    (e.limit ≤ 1 ∨ e.scopes.Bare global ∧ ∀ t ∈ ts, Idle global t)

variable {global : Frame δ} {e' : Expander δ} {p : Position}

theorem inOrder_ofText {a : Alphabet} {text : String} {scopes : Scopes δ} {limit : Nat}
    (h : limit ≤ 1 ∨ scopes.Bare global ∧ ∀ t ∈ Token.scan a text, Idle global t) :
    (ofSource (.ofText a text) scopes limit).InOrder global {} := by
  obtain ⟨q, hq, hchained⟩ := Token.chained_scan a text
  refine ⟨Token.scan a text, q, ?_, hchained, h.imp_left fun hlimit => max_le hlimit le_rfl⟩
  rw [← hq]
  rfl

theorem bare_nextRaw (h : e.scopes.Bare global) : e.nextRaw.2.scopes.Bare global := by
  unfold nextRaw
  split
  · exact h
  · exact bare_track (by rwa [scopes_pull]) _

theorem bare_groupRaw (h : e.scopes.Bare global) (t : Token) :
    (groupRaw t e).2.scopes.Bare global := by
  have hrest : ∀ level, (groupRestRaw level e).2.scopes.Bare global := by
    intro level
    fun_induction groupRestRaw level e with
    | case1 level e r hend => exact bare_nextRaw h
    | case2 level e r hend hlt hl => exact bare_nextRaw h
    | case3 level e r hend hlt level' hl g ih => exact ih (bare_nextRaw h)
  unfold groupRaw
  split
  · exact hrest 0
  · exact h

namespace InOrder

theorem of_le {p' : Position} (h : e.InOrder global p) (hp : p' ≤ p) : e.InOrder global p' := by
  obtain ⟨ts, q, hsources, hchained, hcalm⟩ := h.chained
  exact ⟨ts, q, hsources, hchained.of_le hp, hcalm⟩

theorem report (h : e.InOrder global p) (c : Cause) (s : Span) : (e.report c s).InOrder global p :=
  ⟨h.chained⟩

/-- What is left of a text is in order. -/
theorem of_rest (h : e.InOrder global p) (hrest : Stack.Rest e.stack.sources e'.stack.sources)
    (hlimit : e'.limit = e.limit) (hpeeked : e'.peeked = none)
    (hcalm : e.limit ≤ 1 ∨ (e.scopes.Bare global → e'.scopes.Bare global)) :
    e'.InOrder global p := by
  obtain ⟨ts, q, hsources, hchained, hcalm'⟩ := h.chained
  rw [hsources] at hrest
  obtain ⟨us, hus, hsuffix⟩ := hrest.exists_suffix
  refine ⟨us, q, hus, ?_, ?_⟩
  · rw [hpeeked]
    exact hchained.of_suffix (hsuffix.trans (List.suffix_append _ _))
  · rw [hlimit]
    rcases hcalm with hle | hbare
    · exact .inl hle
    · exact hcalm'.imp_right fun hb => ⟨hbare hb.1, fun t ht => hb.2 t (hsuffix.subset ht)⟩

theorem nextRaw (h : e.InOrder global p) : e.nextRaw.2.InOrder global p :=
  have hreads := reads_nextRaw e
  h.of_rest hreads.rest hreads.limit (peeked_nextRaw e) (.inr bare_nextRaw)

theorem groupRaw (h : e.InOrder global p) (hpeeked : e.peeked = none) (t : Token) :
    (groupRaw t e).2.InOrder global p :=
  have hreads := reads_groupRaw t e
  h.of_rest hreads.rest hreads.limit (peeked_groupRaw t hpeeked) (.inr fun hb => bare_groupRaw hb t)

/-- The next token of the text stands after all that was read. -/
theorem pull (h : e.InOrder global p) (hpeeked : e.peeked = none) :
    p ≤ e.pull.1.span.start ∧ e.pull.1.span.start ≤ e.pull.1.span.stop ∧
      e.pull.2.InOrder global e.pull.1.span.stop ∧
      (e.limit ≤ 1 ∨ e.scopes.Bare global ∧ Idle global e.pull.1) := by
  obtain ⟨ts, q, hsources, hchained, hcalm⟩ := h.chained
  obtain ⟨scopes, ⟨sources, size, hsize⟩, peeked, reported, remarked, limit, position⟩ := e
  obtain rfl : sources = [⟨ts, some q⟩] := hsources
  obtain rfl : peeked = none := hpeeked
  cases ts with
  | nil => exact ⟨hchained, le_rfl, ⟨[], q, rfl, le_rfl, hcalm⟩, hcalm.imp_right fun hb => ⟨hb.1, by
      intro hkind
      cases hkind⟩⟩
  | cons t ts =>
    obtain ⟨hp, hle, hchained⟩ := hchained
    refine ⟨hp, hle, ⟨ts, q, rfl, hchained, hcalm.imp_right fun hb => ⟨hb.1, ?_⟩⟩,
      hcalm.imp_right fun hb => ⟨hb.1, hb.2 t List.mem_cons_self⟩⟩
    exact fun u hu => hb.2 u (List.mem_cons_of_mem t hu)

theorem track (h : e.InOrder global p) (hpeeked : e.peeked = none) (t : Token) :
    (e.track t).InOrder global p :=
  have hreads := reads_track e t
  h.of_rest hreads.rest hreads.limit (by rwa [peeked_track]) (.inr fun hb => bare_track hb t)

/-! Where calls are given up, definitions and calls only take tokens off the text. -/

theorem define (h : e.InOrder global p) (hlimit : e.limit ≤ 1) (everywhere : Bool) :
    (e.define everywhere).InOrder global p := by
  obtain ⟨g, scopes, hreads, heq⟩ := reads_define everywhere e
  have hpeeked := peeked_define everywhere e
  rw [heq] at hpeeked ⊢
  exact h.of_rest hreads.rest hreads.limit hpeeked (.inl hlimit)

theorem expand (h : e.InOrder global p) (hpeeked : e.peeked = none) (hlimit : e.limit ≤ 1)
    (call : Token) (d : Definition) : (e.expand call d).InOrder global p := by
  have hreads := reads_matchPattern d.name d.pattern .empty e
  have hpeeked : (e.expand call d).peeked = none := peeked_expand hpeeked
  rcases expand_cases e call d with ⟨m, hm, heq⟩ | ⟨args, m, hm, hlast⟩ <;> rw [hm] at hreads
  · rw [heq] at hpeeked ⊢
    exact h.of_rest hreads.rest hreads.limit hpeeked (.inl hlimit)
  · have hrest := hreads.rest
    obtain ⟨ts, q, hsources, -⟩ := h.chained
    rw [hsources] at hrest
    obtain ⟨us, hus, -⟩ := hrest.exists_suffix
    have hsize : m.stack.size = 1 := by rw [m.stack.size_eq, hus]; rfl
    have hbottom : m.stack.bottom.sources = m.stack.sources := by
      change m.stack.sources.drop (m.stack.size - 1) = m.stack.sources
      rw [hsize]
      rfl
    rcases hlast with ⟨-, _, heq⟩ | ⟨hlt, -⟩
    · rw [heq] at hpeeked ⊢
      exact h.of_rest (by rw [hbottom]; exact hreads.rest) hreads.limit hpeeked (.inl hlimit)
    · have hm : m.limit = e.limit := hreads.limit
      omega

/-! ### Expanding reads -/

theorem read (h : e.InOrder global p) (hpeeked : e.peeked = none) {r : Token × Expander δ}
    (hr : e.read fuel = some r) : p ≤ r.1.span.start ∧ r.1.span.start ≤ r.1.span.stop ∧
      r.2.InOrder global r.1.span.stop ∧ r.2.peeked = none := by
  induction fuel generalizing e p with
  | zero => cases hr
  | succ fuel ih =>
    obtain ⟨hp, hle, hpull, hcalm⟩ := h.pull hpeeked
    have hpeeked' : e.pull.2.peeked = none := by rw [peeked_pull, hpeeked]
    have hlimit : e.pull.2.limit = e.limit := (reads_pull e).limit
    -- What is left after a call or a definition is after this token, and so after `p`.
    have hlater : ∀ m : Expander δ, m.InOrder global e.pull.1.span.stop → m.InOrder global p :=
      fun m hm => hm.of_le (hp.trans hle)
    rw [Expander.read] at hr
    split at hr
    · rename_i hcontrol
      split at hr
      · obtain rfl := Option.some.inj hr
        exact ⟨hp, hle, hpull, hpeeked'⟩
      · rename_i everywhere hget
        rcases hcalm with hcalm | ⟨hbare, hidle⟩
        · exact ih (hlater _ (hpull.define (hlimit.trans_le hcalm) everywhere))
            (peeked_define ..) hr
        · rw [scopes_pull, hbare.get?] at hget
          obtain ⟨x, hx⟩ := hidle.exists_directive hcontrol hget
          cases hx
      · rename_i d hget
        rcases hcalm with hcalm | ⟨hbare, hidle⟩
        · exact ih (hlater _ (hpull.expand hpeeked' (hlimit.trans_le hcalm) _ d))
            (peeked_expand hpeeked') hr
        · rw [scopes_pull, hbare.get?] at hget
          obtain ⟨x, hx⟩ := hidle.exists_directive hcontrol hget
          cases hx
      · exact ih (hlater _ (hpull.report ..)) hpeeked' hr
    · obtain rfl := Option.some.inj hr
      exact ⟨hp, hle, hpull.track hpeeked' _, by rw [peeked_track, hpeeked']⟩

theorem next (h : e.InOrder global p) {r : Token × Expander δ} (hr : e.next fuel = some r) :
    p ≤ r.1.span.start ∧ r.1.span.start ≤ r.1.span.stop ∧ r.2.InOrder global r.1.span.stop ∧
      r.2.peeked = none := by
  unfold Expander.next at hr
  split at hr
  · rename_i t hpeeked
    obtain rfl := Option.some.inj hr
    obtain ⟨ts, q, hsources, hchained, hcalm⟩ := h.chained
    rw [hpeeked] at hchained
    exact ⟨hchained.1, hchained.2.1, ⟨ts, q, hsources, hchained.2.2, hcalm⟩, rfl⟩
  · exact h.read ‹_› hr

/-- A token that was looked at is still ahead. -/
theorem peek (h : e.InOrder global p) {r : Token × Expander δ} (hr : e.peek fuel = some r) :
    r.2.InOrder global p := by
  obtain ⟨⟨t, m⟩, hnext, rfl⟩ := Option.map_eq_some_iff.1 hr
  obtain ⟨hp, hle, hahead, hpeeked⟩ := h.next hnext
  obtain ⟨ts, q, hsources, hchained, hcalm⟩ := hahead.chained
  rw [show m.peeked = none from hpeeked] at hchained
  exact ⟨ts, q, hsources, ⟨hp, hle, hchained⟩, hcalm⟩

theorem groupRest (h : e.InOrder global p) {level : Nat} {r : List Token × Expander δ}
    (hr : groupRest fuel level e = some r) :
    ∃ q, p ≤ q ∧ r.2.InOrder global q ∧ ∀ t ∈ r.1, t.span.Within p q := by
  induction fuel generalizing e p level r with
  | zero => cases hr
  | succ fuel ih =>
    obtain ⟨⟨t, m⟩, hnext, hr⟩ := Option.bind_eq_some_iff.1 hr
    obtain ⟨hp, hle, hahead, -⟩ := h.next hnext
    dsimp only at hr hp hle hahead
    split at hr
    · obtain rfl := Option.some.inj hr
      exact ⟨t.span.stop, hp.trans hle, hahead, by simp⟩
    · split at hr
      · obtain rfl := Option.some.inj hr
        exact ⟨t.span.stop, hp.trans hle, hahead, by simpa using ⟨hp, hle, le_rfl⟩⟩
      · obtain ⟨⟨ts, m'⟩, hrest, hr⟩ := Option.bind_eq_some_iff.1 hr
        obtain rfl := Option.some.inj hr
        obtain ⟨q, hq, hahead', hts⟩ := ih hahead hrest
        refine ⟨q, (hp.trans hle).trans hq, hahead', List.forall_mem_cons.2 ⟨⟨hp, hle, hq⟩, ?_⟩⟩
        exact fun u hu => (hts u hu).mono (hp.trans hle)

/-- A token that was taken, with its group. -/
theorem group (h : e.InOrder global t.span.stop) (hp : p ≤ t.span.start)
    (hle : t.span.start ≤ t.span.stop) {r : List Token × Expander δ}
    (hr : e.group fuel t = some r) :
    ∃ q, t.span.Within p q ∧ r.2.InOrder global q ∧ ∀ u ∈ r.1, u.span.Within t.span.start q := by
  unfold Expander.group at hr
  split at hr
  · obtain ⟨g, hg, rfl⟩ := Option.map_eq_some_iff.1 hr
    obtain ⟨q, hq, hahead, hts⟩ := h.groupRest hg
    refine ⟨q, ⟨hp, hle, hq⟩, hahead, List.forall_mem_cons.2 ⟨⟨le_rfl, hle, hq⟩, ?_⟩⟩
    exact fun u hu => (hts u hu).mono hle
  · obtain rfl := Option.some.inj hr
    exact ⟨t.span.stop, ⟨hp, hle, le_rfl⟩, h, by simpa using ⟨le_rfl, hle, le_rfl⟩⟩

end InOrder

end Expander

end Macro

end Jianpu
