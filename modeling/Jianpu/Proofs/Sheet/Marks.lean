import Jianpu.Proofs.Macro.Feed
import Jianpu.Proofs.Sheet.Phrase
import Jianpu.Proofs.Sheet.Steps

/-!
# Reading marks

The marks after a note or a group are read one modifier at a time, where dashes, dots or strokes in
a row are one modifier. `modifier?_marks` is one such step and `modifiers_marks` all of them:
whatever putting one modifier into a slot keeps is kept, and the modifiers are those of the marks.
-/

namespace Jianpu

open Macro.Expander (Feeds)

/-! ## Runs of marks -/

namespace Mark

/-- The mark of a modifier. -/
def of? : Modifier.Kind → Option Mark
  | .anchor => none
  | .dash _ => some dash
  | .underline => some underline
  | .dot _ => some dot
  | .tuplet _ => some stroke
  | .sharp => some sharp
  | .flat => some flat
  | .octaveUp => some octaveUp
  | .octaveDown => some octaveDown

theorem head?_cons (m : Mark) (ks : List Modifier.Kind) : (m.cons ks).head?.bind of? = some m := by
  unfold cons
  split
  · rfl
  · rfl
  · rfl
  · cases m <;> rfl

theorem head?_kinds (ms : List Mark) : (kinds ms).head?.bind of? = ms.head? := by
  cases ms with
  | nil => rfl
  | cons m ms => exact head?_cons m _

theorem char_injective : Function.Injective char := by
  intro m m' h
  cases m <;> cases m' <;> first | rfl | exact absurd h (by decide)

/-- A mark that stands for one modifier by itself. -/
structure Single (m : Mark) : Prop where
  ofChar? : Modifier.Kind.ofChar? m.char = some m.kind
  cons_eq : ∀ ks, m.cons ks = m.kind :: ks

/-- A mark of which any number `n` in a row stands for the modifier `f n`. -/
structure Counted (m : Mark) (f : UInt32 → Modifier.Kind) : Prop where
  ofChar? : Modifier.Kind.ofChar? m.char = none
  counted? : ∀ n, Modifier.Kind.counted? m.char n = some (f n)
  cons_run : ∀ n ks, m.cons (f n :: ks) = f (n + 1) :: ks
  cons_new : ∀ ks, ks.head?.bind of? ≠ some m → m.cons ks = f 1 :: ks

theorem single_or_counted (m : Mark) : m.Single ∨ ∃ f, m.Counted f := by
  have hnew : ∀ (m : Mark) (ks : List Modifier.Kind), ks.head?.bind of? ≠ some m →
      m.cons ks = m.kind :: ks := by
    intro m ks h
    unfold cons
    split
    · exact absurd rfl h
    · exact absurd rfl h
    · exact absurd rfl h
    · rfl
  cases m with
  | underline | sharp | flat | octaveUp | octaveDown => exact .inl ⟨rfl, fun _ => rfl⟩
  | dash => exact .inr ⟨.dash, rfl, fun _ => rfl, fun _ _ => rfl, hnew _⟩
  | dot => exact .inr ⟨.dot, rfl, fun _ => rfl, fun _ _ => rfl, hnew _⟩
  | stroke => exact .inr ⟨.tuplet, rfl, fun _ => rfl, fun _ _ => rfl, hnew _⟩

/-- A whole run of counted marks is one modifier. -/
theorem Counted.kinds_replicate {m : Mark} {f : UInt32 → Modifier.Kind} (h : m.Counted f)
    (n : Nat) {ms : List Mark} (hms : ms.head? ≠ some m) :
    kinds (List.replicate (n + 1) m ++ ms) = f (.ofNat (n + 1)) :: kinds ms := by
  induction n with
  | zero => exact h.cons_new (kinds ms) (by rwa [head?_kinds])
  | succ n ih =>
    rw [List.replicate_succ, List.cons_append]
    change m.cons (kinds (List.replicate (n + 1) m ++ ms)) = _
    rw [ih, h.cons_run, UInt32.ofNat_add (n + 1) 1]
    rfl

end Mark

theorem Modifier.Kind.ofChar?_eq_none {c : Char} (h : ∀ m : Mark, c ≠ m.char) :
    ofChar? c = none := by
  unfold ofChar?
  split
  · exact absurd rfl (h .underline)
  · exact absurd rfl (h .sharp)
  · exact absurd rfl (h .flat)
  · exact absurd rfl (h .octaveUp)
  · exact absurd rfl (h .octaveDown)
  · rfl

theorem Modifier.Kind.counted?_eq_none {c : Char} (h : ∀ m : Mark, c ≠ m.char) (n : UInt32) :
    counted? c n = none := by
  unfold counted?
  split
  · exact absurd rfl (h .dash)
  · exact absurd rfl (h .dot)
  · exact absurd rfl (h .stroke)
  · rfl

/-! ## Tokens -/

namespace Token

variable {t : Token} {c : Char}

theorem single?_of_lexeme (h : t.lexeme = .glyph c) : t.single? = some c := by
  obtain ⟨hkind, htext⟩ := Prod.mk.injEq .. ▸ h
  simp only [single?, hkind, htext, String.toList_singleton]

theorem kind_of_single? (h : t.single? = some c) : t.kind = .other := by
  unfold single? at h
  split at h
  · assumption
  · cases h

theorem single?_of_isEof (h : t.isEof = true) : t.single? = none := by
  have hkind : t.kind = .eof := by simpa [isEof] using h
  cases hs : t.single? with
  | none => rfl
  | some c =>
    have hother := hkind.symm.trans (kind_of_single? hs)
    cases hother

end Token

/-- Tokens to come that can be looked at and taken one by one. -/
class Feed (F : Macro.Expander Directive → List Token → Prop) : Prop where
  next : ∀ {e : Macro.Expander Directive} {t : Token} {ts : List Token} {fuel : Nat},
    F e (t :: ts) → 1 ≤ fuel → ∃ e', e.next fuel = some (t, e') ∧ F e' ts
  look : ∀ {e : Macro.Expander Directive} {ts : List Token} {fuel : Nat}, F e ts → 1 ≤ fuel →
    ∃ t e', e.peek fuel = some (t, e') ∧ F e' ts ∧ (ts.head? = some t ∨ ts = [] ∧ t.isEof = true)

instance (log : List Diagnostic) : Feed (Feeds log) := ⟨Feeds.next, Feeds.look⟩

/-- The tokens to come spell `ls`, and then `rest` follows. -/
def Spells (F : Macro.Expander Directive → List Token → Prop) (e : Macro.Expander Directive)
    (ls : List Lexeme) (rest : List Token) : Prop :=
  ∃ us, us.map (·.lexeme) = ls ∧ F e (us ++ rest)

namespace Spells

variable {F : Macro.Expander Directive → List Token → Prop} {e : Macro.Expander Directive}
  {l : Lexeme} {ls ls' : List Lexeme} {rest : List Token} {fuel : Nat}

theorem nil (h : Spells F e [] rest) : F e rest := by
  obtain ⟨us, hus, h⟩ := h
  rwa [List.map_eq_nil_iff.1 hus] at h

theorem of_feeds (h : F e rest) : Spells F e [] rest := ⟨[], rfl, h⟩

theorem peek [Feed F] (h : Spells F e (l :: ls) rest) (hf : 1 ≤ fuel) :
    ∃ t e', Reading.peek fuel e = some (t, e') ∧ t.lexeme = l ∧ Spells F e' (l :: ls) rest := by
  obtain ⟨us, hus, h⟩ := h
  obtain ⟨t, us, rfl, ht, hls⟩ := List.map_eq_cons_iff.1 hus
  obtain ⟨t', e', hpeek, hfeeds, hhead⟩ := Feed.look h hf
  obtain rfl : t = t' := by simpa using hhead
  exact ⟨t, e', hpeek, ht, t :: us, hus, hfeeds⟩

theorem next [Feed F] (h : Spells F e (l :: ls) rest) (hf : 1 ≤ fuel) :
    ∃ t e', Reading.next fuel e = some (t, e') ∧ t.lexeme = l ∧ Spells F e' ls rest := by
  obtain ⟨us, hus, h⟩ := h
  obtain ⟨t, us, rfl, ht, hls⟩ := List.map_eq_cons_iff.1 hus
  obtain ⟨e', hnext, hfeeds⟩ := Feed.next h hf
  exact ⟨t, e', hnext, ht, us, hls, hfeeds⟩

theorem of_append (h : Spells F e (ls ++ ls') rest) :
    ∃ us, us.map (·.lexeme) = ls' ∧ Spells F e ls (us ++ rest) := by
  obtain ⟨us, hus, h⟩ := h
  obtain ⟨us₁, us₂, rfl, h₁, h₂⟩ := List.map_eq_append_iff.1 hus
  exact ⟨us₂, h₂, us₁, h₁, by rwa [← List.append_assoc]⟩

end Spells

/-- No mark comes first. -/
def Unmarked (ts : List Token) : Prop :=
  ∀ t, ts.head? = some t → ∀ m : Mark, t.single? ≠ some m.char

/-! ## One modifier -/

namespace Writing

variable {F : Macro.Expander Directive → List Token → Prop} [Feed F]
  {e : Macro.Expander Directive} {rest : List Token} {marks : List Mark} {fuel : Nat}

/-- What comes after the marks is none. -/
theorem look_of_unmarked (h : F e rest) (hrest : Unmarked rest) (hf : 1 ≤ fuel) :
    ∃ t e', Reading.peek fuel e = some (t, e') ∧ F e' rest ∧
      ∀ m : Mark, t.single? ≠ some m.char := by
  obtain ⟨t, e', hpeek, hfeeds, hhead | ⟨-, heof⟩⟩ := Feed.look h hf
  · exact ⟨t, e', hpeek, hfeeds, hrest t hhead⟩
  · refine ⟨t, e', hpeek, hfeeds, fun m => ?_⟩
    rw [Token.single?_of_isEof heof]
    exact nofun

/-- The marks `m` that come next are counted. -/
theorem run_marks (m : Mark) (h : Spells F e (Mark.render marks) rest) (hrest : Unmarked rest)
    (hf : marks.length + 2 ≤ fuel) (count : UInt32) (last : Span) :
    ∃ n marks' last' e', run m.char fuel count last e = some ((count + .ofNat n, last'), e') ∧
      Spells F e' (Mark.render marks') rest ∧ marks = List.replicate n m ++ marks' ∧
      marks'.head? ≠ some m := by
  have hzero : ∀ c : UInt32, c + .ofNat 0 = c := UInt32.add_zero
  induction marks generalizing e fuel count last with
  | nil =>
    obtain ⟨fuel, rfl⟩ : ∃ k, fuel = k + 1 := ⟨fuel - 1, by omega⟩
    obtain ⟨t, e', hpeek, hfeeds, ht⟩ := look_of_unmarked h.nil hrest (by simpa using hf)
    refine ⟨0, [], last, e', ?_, .of_feeds hfeeds, rfl, nofun⟩
    rw [run, bind_of_eq_some hpeek, if_neg (ht m), hzero]
    rfl
  | cons m' marks ih =>
    rw [List.length_cons] at hf
    obtain ⟨fuel, rfl⟩ : ∃ k, fuel = k + 1 := ⟨fuel - 1, by omega⟩
    obtain ⟨t, e₁, hpeek, ht, h₁⟩ := h.peek (by omega : 1 ≤ fuel)
    have hsingle := Token.single?_of_lexeme ht
    by_cases hm : m' = m
    · subst hm
      obtain ⟨_, e₂, hnext, -, h₂⟩ := h₁.next (by omega : 1 ≤ fuel)
      obtain ⟨n, marks', last', e', hrun, h', hmarks, hhead⟩ :=
        ih h₂ (by omega : marks.length + 2 ≤ fuel) (count + 1) t.span
      refine ⟨n + 1, marks', last', e', ?_, h', ?_, hhead⟩
      · rw [run, bind_of_eq_some hpeek, if_pos hsingle, bind_of_eq_some hnext, hrun,
          Nat.add_comm n 1, UInt32.ofNat_add, ← UInt32.add_assoc]
        rfl
      · rw [hmarks, List.replicate_succ, List.cons_append]
    · refine ⟨0, m' :: marks, last, e₁, ?_, h₁, rfl, fun heq => hm (Option.some.inj heq)⟩
      have hne : t.single? ≠ some m.char := by
        rw [hsingle]
        exact fun heq => hm (Mark.char_injective (Option.some.inj heq))
      rw [run, bind_of_eq_some hpeek, if_neg hne, hzero]
      rfl

theorem modifier?_unmarked (h : F e rest) (hrest : Unmarked rest) (hf : 1 ≤ fuel) :
    ∃ e', modifier? fuel e = some (none, e') ∧ F e' rest := by
  obtain ⟨t, e', hpeek, hfeeds, ht⟩ := look_of_unmarked h hrest hf
  refine ⟨e', ?_, hfeeds⟩
  rw [modifier?, bind_of_eq_some hpeek]
  cases hc : t.single? with
  | none => rfl
  | some c =>
    have hne : ∀ m : Mark, c ≠ m.char := fun m heq => ht m (by rw [hc, heq])
    simp only [Modifier.Kind.ofChar?_eq_none hne, Modifier.Kind.counted?_eq_none hne]
    rfl

/-- Where marks come next, the first modifier of them is read. -/
theorem modifier?_marks {m : Mark} (h : Spells F e (Mark.render (m :: marks)) rest)
    (hrest : Unmarked rest) (hf : marks.length + 3 ≤ fuel) :
    ∃ kind span marks' e', modifier? fuel e = some (some (kind, span), e') ∧
      Spells F e' (Mark.render marks') rest ∧
      Mark.kinds (m :: marks) = kind :: Mark.kinds marks' ∧ marks'.length ≤ marks.length := by
  obtain ⟨t, e₁, hpeek, ht, h₁⟩ := h.peek (by omega : 1 ≤ fuel)
  have hsingle := Token.single?_of_lexeme ht
  rcases m.single_or_counted with hm | ⟨f, hm⟩
  · obtain ⟨_, e₂, hnext, -, h₂⟩ := h₁.next (by omega : 1 ≤ fuel)
    refine ⟨m.kind, t.span, marks, e₂, ?_, h₂, hm.cons_eq _, Nat.le_refl _⟩
    rw [modifier?, bind_of_eq_some hpeek]
    simp only [hsingle, hm.ofChar?]
    rw [bind_of_eq_some hnext]
    rfl
  · have hrender : Spells F e₁ (Mark.render (m :: marks)) rest := h₁
    obtain ⟨n, marks', last, e₂, hrun, h₂, hmarks, hhead⟩ :=
      run_marks m hrender hrest hf 0 t.span
    cases n with
    | zero =>
      -- the run holds at least the mark that was looked at
      rw [List.replicate_zero, List.nil_append] at hmarks
      rw [← hmarks] at hhead
      exact absurd rfl hhead
    | succ n =>
      refine ⟨f (.ofNat (n + 1)), .between t.span last, marks', e₂, ?_, h₂, ?_, ?_⟩
      · rw [modifier?, bind_of_eq_some hpeek]
        simp only [hsingle, hm.ofChar?, hm.counted?]
        rw [bind_of_eq_some hrun, UInt32.zero_add]
        rfl
      · rw [hmarks, hm.kinds_replicate n hhead]
      · have hlen := congrArg List.length hmarks
        simp at hlen
        omega

/-! ## All modifiers -/

theorem read_of_eq_some {α : Type} {m : Reading α} {x : α} {e' : Macro.Expander Directive}
    (h : m e = some (x, e')) (g : Score) (settings : Settings) :
    read m ⟨e, g, settings⟩ = some (x, ⟨e', g, settings⟩) := by
  rw [read, h]
  rfl

/-- What one modifier put into a slot keeps, all of them keep. -/
theorem modifiers_marks {R : Option Slot → Score → List Modifier.Kind → Prop}
    (hstep : ∀ slot ks kind span input g settings, R slot g ks →
      ∃ slot' g', insert slot kind span ⟨input, g, settings⟩ = some (slot', ⟨input, g', settings⟩) ∧
        R slot' g' (ks ++ [kind]))
    (h : Spells F e (Mark.render marks) rest) (hrest : Unmarked rest)
    (hf : marks.length + 3 ≤ fuel) {slot : Option Slot} {g : Score} (ks : List Modifier.Kind)
    (hR : R slot g ks) (settings : Settings) :
    ∃ slot' e' g', modifiers fuel slot ⟨e, g, settings⟩ = some ((), ⟨e', g', settings⟩) ∧
      F e' rest ∧ R slot' g' (ks ++ Mark.kinds marks) := by
  induction fuel generalizing e marks slot g ks with
  | zero => omega
  | succ fuel ih =>
    cases marks with
    | nil =>
      obtain ⟨e', hmod, hfeeds⟩ := modifier?_unmarked h.nil hrest (by omega : 1 ≤ fuel)
      refine ⟨slot, e', g, ?_, hfeeds, by simpa [Mark.kinds] using hR⟩
      rw [modifiers, bind_of_eq_some (read_of_eq_some hmod g settings)]
      rfl
    | cons m marks =>
      rw [List.length_cons] at hf
      obtain ⟨kind, span, marks', e₁, hmod, h₁, hkinds, hle⟩ :=
        modifier?_marks h hrest (by omega : marks.length + 3 ≤ fuel)
      obtain ⟨slot₁, g₁, hinsert, hR₁⟩ := hstep slot ks kind span e₁ g settings hR
      obtain ⟨slot', e', g', hmods, hfeeds, hR'⟩ :=
        ih h₁ (by omega : marks'.length + 3 ≤ fuel) _ hR₁
      refine ⟨slot', e', g', ?_, hfeeds, ?_⟩
      · rw [modifiers, bind_of_eq_some (read_of_eq_some hmod g settings)]
        exact (bind_of_eq_some hinsert).trans hmods
      · rw [hkinds, List.append_cons]
        exact hR'

end Writing

end Jianpu
