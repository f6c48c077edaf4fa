import Jianpu.Proofs.Sheet.Draft
import Mathlib.Data.List.TakeWhile

/-!
# Checking what is written

`Passage.strip?` takes the tokens that write a passage from the front of others, so that it can be
computed whether tokens write it; `Token.Strips` says that what is taken is what has to be there.
-/

namespace Jianpu

namespace Token

/-- The tokens that `f` takes from the front satisfy `W`. -/
def Strips (f : List Token → Option (List Token)) (W : List Token → Prop) : Prop :=
  ∀ ⦃ts rest⦄, f ts = some rest → ∃ us, ts = us ++ rest ∧ W us

theorem Strips.bind {f g : List Token → Option (List Token)} {V W : List Token → Prop}
    (hf : Strips f V) (hg : Strips g W) :
    Strips (fun ts => (f ts).bind g) fun ts => ∃ us vs, ts = us ++ vs ∧ V us ∧ W vs := by
  intro ts rest h
  obtain ⟨ts', hts', hrest⟩ := Option.bind_eq_some_iff.1 h
  obtain ⟨us, rfl, hus⟩ := hf hts'
  obtain ⟨vs, rfl, hvs⟩ := hg hrest
  exact ⟨us ++ vs, (List.append_assoc ..).symm, us, vs, rfl, hus, hvs⟩

theorem Strips.mono {f : List Token → Option (List Token)} {V W : List Token → Prop}
    (hf : Strips f V) (h : ∀ ts, V ts → W ts) : Strips f W := by
  intro ts rest hts
  obtain ⟨us, rfl, hus⟩ := hf hts
  exact ⟨us, rfl, h us hus⟩

/-- Takes one token. -/
def stripIf (p : Token → Bool) : List Token → Option (List Token)
  | [] => none
  | t :: ts => if p t then some ts else none

theorem strips_stripIf (p : Token → Bool) :
    Strips (stripIf p) fun ts => ∃ t, ts = [t] ∧ p t = true := by
  intro ts rest h
  cases ts with
  | nil => cases h
  | cons t ts =>
    obtain ⟨hp, rfl⟩ : p t = true ∧ ts = rest := by simpa [stripIf] using h
    exact ⟨[t], rfl, t, rfl, hp⟩

/-- Takes the things in a list, one after another. -/
def stripAll {α : Type} (f : α → List Token → Option (List Token)) :
    List α → List Token → Option (List Token)
  | [], ts => some ts
  | x :: xs, ts => (f x ts).bind (stripAll f xs)

theorem strips_stripAll {α : Type} {f : α → List Token → Option (List Token)}
    {W : α → List Token → Prop} (h : ∀ x, Strips (f x) (W x)) (xs : List α) :
    Strips (stripAll f xs) (InTurn W xs) := by
  induction xs with
  | nil =>
    intro ts rest hts
    exact ⟨[], Option.some.inj hts, rfl⟩
  | cons x xs ih => exact (h x).bind ih

/-- Takes tokens that spell lexemes. -/
def stripLexemes : List Lexeme → List Token → Option (List Token) :=
  stripAll fun l => stripIf (·.lexeme = l)

theorem strips_stripLexemes (ls : List Lexeme) :
    Strips (stripLexemes ls) fun ts => ts.map (·.lexeme) = ls := by
  induction ls with
  | nil =>
    intro ts rest hts
    exact ⟨[], Option.some.inj hts, rfl⟩
  | cons l ls ih =>
    refine ((strips_stripIf _).bind ih).mono ?_
    rintro _ ⟨_, us, rfl, ⟨t, rfl, ht⟩, hus⟩
    rw [List.map_append, hus, List.map_singleton, of_decide_eq_true ht]
    rfl

/-- Takes a text in braces. -/
def stripText (text : String) (ts : List Token) : Option (List Token) :=
  (stripIf (·.kind = .opening) ts).bind fun ts =>
    let inner := ts.takeWhile (·.kind = .other)
    if Text.trim (displayAll inner) = text then
      stripIf (·.kind = .closing) (ts.dropWhile (·.kind = .other))
    else none

theorem strips_stripText (text : String) : Strips (stripText text) (Bracketed text) := by
  intro ts rest h
  obtain ⟨ts', hopening, hinner⟩ := Option.bind_eq_some_iff.1 h
  obtain ⟨_, rfl, o, rfl, ho⟩ := strips_stripIf _ hopening
  obtain ⟨htext, hclosing⟩ := Option.ite_none_right_eq_some.1 hinner
  obtain ⟨_, hdrop, c, rfl, hc⟩ := strips_stripIf _ hclosing
  have hsplit := List.takeWhile_append_dropWhile (p := (·.kind = .other)) (l := ts')
  rw [hdrop] at hsplit
  refine ⟨o :: (ts'.takeWhile (·.kind = .other) ++ [c]), ?_, o, _, c, rfl, of_decide_eq_true ho,
    of_decide_eq_true hc, fun t ht => ?_, htext⟩
  · show o :: ts' = o :: (ts'.takeWhile (·.kind = .other) ++ [c] ++ rest)
    rw [List.append_assoc, hsplit]
  · simpa using List.mem_takeWhile_imp ht

instance (t : Token) (d : Directive) : Decidable (t.Names d) := inferInstanceAs (Decidable (_ ∧ _))

end Token

open Token (Strips stripIf stripAll stripLexemes stripText)

def Change.strip? (c : Change) (ts : List Token) : Option (List Token) :=
  (stripIf (·.Names c.directive) ts).bind (stripAll stripText c.texts)

theorem Change.strips_strip? (c : Change) : Strips c.strip? c.Written := by
  refine ((Token.strips_stripIf _).bind (Token.strips_stripAll Token.strips_stripText _)).mono ?_
  rintro _ ⟨_, us, rfl, ⟨t, rfl, ht⟩, hus⟩
  exact ⟨t, us, rfl, of_decide_eq_true ht, hus⟩

mutual

def Passage.strip? : Passage → List Token → Option (List Token)
  | .nil, ts => some ts
  | .note degree marks rest, ts =>
    (stripIf (·.lexeme = .glyph (Phrase.digit degree)) ts).bind fun ts =>
      (stripLexemes (Mark.render marks) ts).bind rest.strip?
  | .group branches marks rest, ts =>
    (stripIf (·.kind = .opening) ts).bind fun ts => (branches.strip? ts).bind fun ts =>
      (stripIf (·.kind = .closing) ts).bind fun ts =>
        (stripLexemes (Mark.render marks) ts).bind rest.strip?
  | .change c rest, ts => (c.strip? ts).bind rest.strip?

def Passages.strip? : Passages → List Token → Option (List Token)
  | .last p, ts => p.strip? ts
  | .more p rest, ts => (p.strip? ts).bind fun ts => (stripIf (·.isSeparator) ts).bind rest.strip?

end

mutual

theorem Passage.strips_strip? : ∀ p : Passage, Strips p.strip? p.Written
  | .nil => fun ts rest h => ⟨[], Option.some.inj h, rfl⟩
  | .note degree marks p => by
    refine ((Token.strips_stripIf _).bind ((Token.strips_stripLexemes (Mark.render marks)).bind
      p.strips_strip?)).mono ?_
    rintro _ ⟨_, _, rfl, ⟨t, rfl, ht⟩, ms, us, rfl, hms, hus⟩
    exact ⟨t, ms, us, rfl, of_decide_eq_true ht, hms, hus⟩
  | .group bs marks p => by
    refine ((Token.strips_stripIf _).bind (bs.strips_strip?.bind ((Token.strips_stripIf _).bind
      ((Token.strips_stripLexemes (Mark.render marks)).bind p.strips_strip?)))).mono ?_
    rintro _ ⟨_, _, rfl, ⟨o, rfl, ho⟩, ts, _, rfl, hts, _, _, rfl, ⟨c, rfl, hc⟩, ms, us, rfl, hms,
      hus⟩
    exact ⟨o, ts, c, ms, us, rfl, of_decide_eq_true ho, hts, of_decide_eq_true hc, hms, hus⟩
  | .change c p => c.strips_strip?.bind p.strips_strip?

theorem Passages.strips_strip? : ∀ bs : Passages, Strips bs.strip? bs.Written
  | .last p => p.strips_strip?
  | .more p bs => by
    refine (p.strips_strip?.bind ((Token.strips_stripIf _).bind bs.strips_strip?)).mono ?_
    rintro _ ⟨us, _, rfl, hus, _, vs, rfl, ⟨t, rfl, ht⟩, hvs⟩
    exact ⟨us, t, vs, rfl, hus, ht, hvs⟩

end

def Section.strip? (s : Section) (ts : List Token) : Option (List Token) :=
  (stripIf (·.Names s.heading.directive) ts).bind fun ts =>
    (stripText s.heading.name ts).bind s.music.strip?

theorem Section.strips_strip? (s : Section) : Strips s.strip? s.Written := by
  refine ((Token.strips_stripIf _).bind ((Token.strips_stripText _).bind
    s.music.strips_strip?)).mono ?_
  rintro _ ⟨_, _, rfl, ⟨t, rfl, ht⟩, us, vs, rfl, hus, hvs⟩
  exact ⟨t :: us, vs, rfl, ⟨t, us, rfl, of_decide_eq_true ht, hus⟩, hvs⟩

end Jianpu
