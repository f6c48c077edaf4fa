import Jianpu.Proofs.Sheet.Passage

/-!
# Reading the arguments of directives

A text in braces is read as the argument that it spells (`Reading.argument_bracketed`). What the
readers make of it is what the text asks for, whether that makes sense or not: `Reading.Takes`
leaves open what is reported. `Writing.directive_change` is the step for a directive inside the
music.
-/

namespace Jianpu

/-- The directives are bound in the global frame. -/
theorem Directive.lookup_scopes :
    ∀ p ∈ table, scopes.global.lookup p.1 = some (.directive p.2) := by
  decide

/-- An expander that has reported `log`, and gives tokens of which only directives are control
sequences. -/
abbrev Serving (log : List Diagnostic) : Macro.Expander Directive → List Token → Prop :=
  Macro.Expander.Serves Directive.scopes.global log

instance (log : List Diagnostic) : Feed (Serving log) :=
  ⟨Macro.Expander.Serves.next, Macro.Expander.Serves.look⟩

variable {log : List Diagnostic} {e : Macro.Expander Directive} {t : Token}
  {ts us rest : List Token} {text : String} {fuel : Nat}

theorem Token.Names.directive? {d : Directive} (ht : t.Names d) (h : Serving log e ts) :
    e.directive? t = some d :=
  h.directive? ht.1 (Directive.lookup_scopes _ ht.2)

/-! ## Arguments -/

/-- The argument that a text in braces makes. -/
theorem Argument.text_ofTokens {o c : Token} {inner : List Token} (ho : o.kind = .opening)
    (hc : c.kind = .closing) :
    (Argument.ofTokens o (o :: (inner ++ [c]))).text = Text.trim (Token.displayAll inner) := by
  simp [Argument.ofTokens, ho, Macro.Expander.unwrap, hc]

namespace Reading

theorem argument_bracketed (h : Serving log e (us ++ rest)) (hus : Token.Bracketed text us)
    (hf : us.length ≤ fuel) :
    ∃ a e', argument fuel e = some (some a, e') ∧ a.text = text ∧ Serving log e' rest := by
  obtain ⟨o, inner, c, rfl, ho, hc, hinner, rfl⟩ := hus
  rw [List.length_cons, List.length_append, List.length_singleton] at hf
  rw [List.cons_append, List.append_assoc] at h
  obtain ⟨e₁, hnext, h₁⟩ := h.next (by omega : 1 ≤ fuel)
  obtain ⟨e', hgroup, h'⟩ := h₁.groupRest hinner hc (by omega : inner.length + 2 ≤ fuel)
  refine ⟨_, e', ?_, Argument.text_ofTokens ho hc, h'⟩
  have heof : o.isEof = false := Token.isEof_of_kind ho (by simp)
  have hnext : next fuel e = some (o, e₁) := hnext
  have hgroup : e₁.group fuel o = some (o :: (inner ++ [c]), e') := by
    rw [Macro.Expander.group, if_pos ho, hgroup]
    rfl
  rw [argument, bind_of_eq_some hnext, heof, if_neg (by simp)]
  exact bind_of_eq_some hgroup

theorem argumentRaw_bracketed (h : Serving log e (us ++ rest)) (hus : Token.Bracketed text us) :
    ∃ a e', argumentRaw e = some (some a, e') ∧ a.text = text ∧ Serving log e' rest := by
  obtain ⟨o, inner, c, rfl, ho, hc, hinner, rfl⟩ := hus
  rw [List.cons_append, List.append_assoc] at h
  obtain ⟨e₁, hraw, -, -, h₁⟩ := h.take
  obtain ⟨e', hgroup, h'⟩ := h₁.groupRestRaw hinner hc
  refine ⟨_, e', ?_, Argument.text_ofTokens ho hc, h'⟩
  have heof : o.isEof = false := Token.isEof_of_kind ho (by simp)
  have hnext : (modifyGet (·.nextRaw) : Reading Token) e = some (o, e₁) := congrArg some hraw
  have hgroup : (modifyGet (·.groupRaw o) : Reading (List Token)) e₁ =
      some (o :: (inner ++ [c]), e') := by
    show some (e₁.groupRaw o) = _
    rw [Macro.Expander.groupRaw, if_pos ho, hgroup]
  rw [argumentRaw, bind_of_eq_some hnext, heof, if_neg (by simp)]
  exact bind_of_eq_some hgroup

/-! ## What arguments ask for -/

/-- The reader gives `x` and leaves `rest`, whatever it reports. -/
def Takes {α : Type} (m : Reading α) (e : Macro.Expander Directive) (x : α) (rest : List Token) :
    Prop :=
  ∃ log e', m e = some (x, e') ∧ Serving log e' rest

theorem Takes.of_eq_some {α : Type} {m : Reading α} {x : α} {e' : Macro.Expander Directive}
    (hm : m e = some (x, e')) (h : Serving log e' rest) : Takes m e x rest :=
  ⟨log, e', hm, h⟩

theorem Takes.bind {α β : Type} {m : Reading α} {f : α → Reading β} {x : α} {y : β}
    (hm : Takes m e x us) (hf : ∀ log e', Serving log e' us → Takes (f x) e' y rest) :
    Takes (m >>= f) e y rest := by
  obtain ⟨log₁, e₁, hm, h₁⟩ := hm
  obtain ⟨log', e', hf, h'⟩ := hf log₁ e₁ h₁
  exact ⟨log', e', (bind_of_eq_some hm).trans hf, h'⟩

theorem takes_reject {α : Type} (c : Cause) (s : Span) (h : Serving log e rest) :
    Takes (reject c s : Reading (Option α)) e none rest :=
  ⟨_, _, rfl, h.report c s⟩

theorem takes_pure {α : Type} (x : α) (h : Serving log e rest) : Takes (pure x) e x rest :=
  ⟨log, e, rfl, h⟩

theorem takes_number (h : Serving log e (us ++ rest)) (hus : Token.Bracketed text us)
    (hf : us.length ≤ fuel) :
    ∃ span, Takes (number fuel) e ((Text.nat? 0xFFFFFFFF text).map (·, span)) rest := by
  obtain ⟨a, e', harg, rfl, h'⟩ := argument_bracketed h hus hf
  refine ⟨a.span, (Takes.of_eq_some harg h').bind fun log e' h' => ?_⟩
  dsimp only
  cases Text.nat? 0xFFFFFFFF a.text with
  | none => exact takes_reject _ _ h'
  | some n => exact takes_pure _ h'

theorem takes_sevenBits (h : Serving log e (us ++ rest)) (hus : Token.Bracketed text us)
    (hf : us.length ≤ fuel) (c : Cause) :
    Takes (sevenBits fuel c) e (Change.velocity? text) rest := by
  obtain ⟨span, hnumber⟩ := takes_number h hus hf
  refine hnumber.bind fun log e' h' => ?_
  unfold Change.velocity?
  cases Text.nat? 0xFFFFFFFF text with
  | none => exact takes_pure none h'
  | some n =>
    simp only [Option.map_some, Option.filter_some, decide_eq_true_eq]
    split
    · exact takes_pure _ h'
    · exact takes_reject _ _ h'

theorem takes_tempo (h : Serving log e (us ++ rest)) (hus : Token.Bracketed text us)
    (hf : us.length ≤ fuel) (perMinute : Bool) :
    Takes (tempo fuel perMinute) e (Change.tempo? perMinute text) rest := by
  obtain ⟨span, hnumber⟩ := takes_number h hus hf
  refine hnumber.bind fun log e' h' => ?_
  unfold Change.tempo?
  cases Text.nat? 0xFFFFFFFF text with
  | none => exact takes_pure none h'
  | some n =>
    simp only [Option.map_some, Option.filter_some]
    by_cases hzero : (perMinute && decide (n = 0)) = true
    · simp only [hzero, if_true, Bool.not_true, Bool.false_eq_true, if_false]
      exact takes_reject _ _ h'
    · simp only [hzero, Bool.false_eq_true, if_false, Bool.not_false, if_true, Option.bind_some,
        decide_eq_true_eq]
      generalize (if perMinute = true then 60000000 / n else n) = beat
      by_cases hbeat : beat ≤ 0xFFFFFF
      · rw [if_pos hbeat, if_neg (Nat.not_lt.2 hbeat)]
        exact takes_pure _ h'
      · rw [if_neg hbeat, if_pos (Nat.not_le.1 hbeat)]
        exact takes_reject _ _ h'

theorem takes_key (h : Serving log e (us ++ rest)) (hus : Token.Bracketed text us)
    (hf : us.length ≤ fuel) (minor : Bool) :
    Takes (key fuel minor) e (Key.parse? text minor) rest := by
  obtain ⟨a, e', harg, rfl, h'⟩ := argument_bracketed h hus hf
  refine (Takes.of_eq_some harg h').bind fun log e' h' => ?_
  dsimp only
  cases Key.parse? a.text minor with
  | none => exact takes_reject _ _ h'
  | some k => exact takes_pure _ h'

theorem takes_octave (h : Serving log e (us ++ rest)) (hus : Token.Bracketed text us)
    (hf : us.length ≤ fuel) : Takes (octave fuel) e (Change.octave? text) rest := by
  obtain ⟨a, e', harg, rfl, h'⟩ := argument_bracketed h hus hf
  refine (Takes.of_eq_some harg h').bind fun log e' h' => ?_
  unfold Change.octave?
  dsimp only
  cases (Text.int32? a.text).filter fun n => -1 ≤ n && n ≤ 9 with
  | none => exact takes_reject _ _ h'
  | some n => exact takes_pure _ h'

theorem takes_timeSignature {vs : List Token} {text' : String}
    (h : Serving log e (us ++ (vs ++ rest))) (hus : Token.Bracketed text us)
    (hvs : Token.Bracketed text' vs) (hf : us.length ≤ fuel) (hf' : vs.length ≤ fuel) :
    Takes (timeSignature fuel) e (signature? text text') rest := by
  obtain ⟨a, e₁, harg, rfl, h₁⟩ := argument_bracketed h hus hf
  refine (Takes.of_eq_some harg h₁).bind fun log e₁ h₁ => ?_
  obtain ⟨a', e', harg', rfl, h'⟩ := argument_bracketed h₁ hvs hf'
  refine (Takes.of_eq_some harg' h').bind fun log e' h' => ?_
  dsimp only
  cases signature? a.text a'.text with
  | none => exact takes_reject _ _ h'
  | some p => exact takes_pure _ h'

end Reading

theorem Token.inTurn_singleton : InTurn Bracketed [text] us ↔ Bracketed text us := by
  constructor
  · rintro ⟨us, _, rfl, h, rfl⟩
    rwa [List.append_nil]
  · exact fun h => ⟨us, [], (List.append_nil us).symm, h, rfl⟩

namespace Writing

/-- A directive inside the music does what it asks for. -/
theorem directive_change (c : Change) (h : Serving log e (us ++ rest))
    (hus : Token.InTurn Token.Bracketed c.texts us) (hf : us.length ≤ fuel) (t : Token)
    (a : Ambient) (g : Score) (settings : Settings) :
    ∃ log' e', directive fuel c.directive t a ⟨e, g, settings⟩ =
      some ((c.content?, c.ambient a), ⟨e', g, settings⟩) ∧ Serving log' e' rest := by
  cases c with
  | octave text =>
    obtain ⟨log', e', hread, h'⟩ :=
      Reading.takes_octave h (Token.inTurn_singleton.1 hus) hf
    refine ⟨log', e', ?_, h'⟩
    refine (bind_of_eq_some (read_of_eq_some hread g settings)).trans ?_
    rw [Change.ambient]
    cases Change.octave? text <;> rfl
  | velocity text =>
    obtain ⟨log', e', hread, h'⟩ :=
      Reading.takes_sevenBits h (Token.inTurn_singleton.1 hus) hf .velocityTooLarge
    refine ⟨log', e', ?_, h'⟩
    refine (bind_of_eq_some (read_of_eq_some hread g settings)).trans ?_
    rw [Change.ambient]
    cases Change.velocity? text <;> rfl
  | key minor text =>
    obtain ⟨log', e', hread, h'⟩ :=
      Reading.takes_key h (Token.inTurn_singleton.1 hus) hf minor
    refine ⟨log', e', ?_, h'⟩
    rw [Change.content?, Change.ambient]
    cases minor <;>
    · refine (bind_of_eq_some (read_of_eq_some hread g settings)).trans ?_
      cases Key.parse? text _ <;> rfl
  | tempo perMinute text =>
    obtain ⟨log', e', hread, h'⟩ :=
      Reading.takes_tempo h (Token.inTurn_singleton.1 hus) hf perMinute
    refine ⟨log', e', ?_, h'⟩
    cases perMinute <;> exact bind_of_eq_some (read_of_eq_some hread g settings)
  | times numerator denominator =>
    obtain ⟨us, vs, rfl, hus, hvs⟩ := hus
    rw [List.length_append] at hf
    rw [List.append_assoc] at h
    obtain ⟨log', e', hread, h'⟩ := Reading.takes_timeSignature h hus
      (Token.inTurn_singleton.1 hvs) (by omega) (by omega : vs.length ≤ fuel)
    refine ⟨log', e', ?_, h'⟩
    exact bind_of_eq_some (read_of_eq_some hread g settings)

end Writing

end Jianpu
