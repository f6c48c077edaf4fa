import Jianpu.Proofs.Sheet.PhraseReading
import Jianpu.Sheet.Parse

/-!
# The meaning of a sheet

`Sheet.parse_render`: a sheet that is written as the tokens of a phrase is read without a report,
and a queue for its voice gives out the notes that the phrase means, at their ticks. Music outside
any track is read into one implicit part, with one voice; without music there is no part.
-/

namespace Jianpu

open Macro.Expander (Feeds)

/-! ## The tokens of a phrase -/

namespace Lexeme

/-- Lexemes among which braces match and there is neither a control sequence nor an end mark. -/
structure Plain (ls : List Lexeme) : Prop where
  kinds : ∀ l ∈ ls, l.1 ≠ .control ∧ l.1 ≠ .eof
  level : ∀ d, Macro.Expander.levelAfterAll (ls.map Prod.fst) d = some d

namespace Plain

variable {ls ls' : List Lexeme}

theorem nil : Plain [] := ⟨by simp, fun _ => rfl⟩

theorem append (h : Plain ls) (h' : Plain ls') : Plain (ls ++ ls') where
  kinds := List.forall_mem_append.2 ⟨h.kinds, h'.kinds⟩
  level d := by
    rw [List.map_append, Macro.Expander.levelAfterAll_append, h.level]
    exact h'.level d

theorem glyph (c : Char) (h : Plain ls) : Plain (.glyph c :: ls) where
  kinds := List.forall_mem_cons.2 ⟨⟨nofun, nofun⟩, h.kinds⟩
  level d := by
    rw [List.map_cons, Macro.Expander.levelAfterAll_cons]
    exact h.level d

/-- Braces around. -/
theorem group (h : Plain ls) (h' : Plain ls') : Plain (.opening :: (ls ++ .closing :: ls')) where
  kinds := by
    refine List.forall_mem_cons.2 ⟨⟨nofun, nofun⟩, List.forall_mem_append.2 ⟨h.kinds, ?_⟩⟩
    exact List.forall_mem_cons.2 ⟨⟨nofun, nofun⟩, h'.kinds⟩
  level d := by
    rw [List.map_cons, List.map_append, List.map_cons, Macro.Expander.levelAfterAll_cons]
    change Macro.Expander.levelAfterAll _ (d + 1) = _
    rw [Macro.Expander.levelAfterAll_append, h.level]
    change Macro.Expander.levelAfterAll (Token.Kind.closing :: _) (d + 1) = _
    rw [Macro.Expander.levelAfterAll_cons]
    exact h'.level d

theorem marks (ms : List Mark) : Plain (Mark.render ms) := by
  induction ms with
  | nil => exact nil
  | cons m ms ih => exact ih.glyph m.char

end Plain

end Lexeme

mutual

theorem Phrase.plain_render : ∀ φ : Phrase, Lexeme.Plain φ.render
  | .nil => .nil
  | .note degree marks rest => by
    rw [Phrase.render]
    exact ((Lexeme.Plain.marks marks).append rest.plain_render).glyph _
  | .group branches marks rest => by
    rw [Phrase.render]
    exact branches.plain_render.group ((Lexeme.Plain.marks marks).append rest.plain_render)

theorem Branches.plain_render : ∀ bs : Branches, Lexeme.Plain bs.render
  | .last p => by
    rw [Branches.render]
    exact p.plain_render
  | .more p rest => by
    rw [Branches.render]
    exact p.plain_render.append (rest.plain_render.glyph '|')

end

theorem Builder.seen_valuation (b : Builder) : b.Seen b.valuation where
  content _ _ hc := hc
  kinds k p hp := by
    change (b.slots[k]?.map (·.kinds)).getD [] = p.kinds
    rw [hp]
    rfl

theorem Builder.ready_start (i : Nat) : Builder.Ready {} i := ⟨.start, fun _ _ => rfl, by simp⟩

namespace Drafting

variable {log : List Diagnostic} {t : Token} {fuel : Nat} {d d' : Draft}
  {e : Macro.Expander Directive}

theorem read_of_eq_some {α : Type} {m : Reading α} {x : α} (h : m d.input = some (x, e)) :
    read m d = some (x, { d with input := e }) := by
  rw [read, h]
  rfl

theorem all_end {F : Macro.Expander Directive → List Token → Prop} [Feed F] (h : F d.input [])
    (hf : 2 ≤ fuel) : ∃ e, all fuel d = some ((), { d with input := e }) ∧ F e [] := by
  obtain ⟨fuel, rfl⟩ : ∃ k, fuel = k + 1 := ⟨fuel - 1, by omega⟩
  obtain ⟨t, e, hpeek, h', ht⟩ := Feed.look h (by omega : 1 ≤ fuel)
  obtain ⟨-, heof⟩ := ht.resolve_left (by simp)
  refine ⟨e, ?_, h'⟩
  rw [all, bind_of_eq_some (read_of_eq_some (m := Reading.peek fuel) hpeek), if_pos heof]
  rfl

theorem all_music (hpeek : Reading.peek fuel d.input = some (t, e)) (heof : t.isEof = false)
    (hclosing : t.kind ≠ .closing) (hsep : t.isSeparator = false) (hcontrol : t.kind ≠ .control)
    (hmusic : music fuel { d with input := e } = some ((), d')) :
    all (fuel + 1) d = all fuel d' := by
  have hdirective : e.directive? t = none := by
    unfold Macro.Expander.directive?
    split
    · exact absurd (by assumption) hcontrol
    · rfl
  rw [all, bind_of_eq_some (read_of_eq_some hpeek)]
  simp only [heof, hsep]
  rw [if_neg nofun, if_neg hclosing, if_neg nofun, bind_of_eq_some (m := get) rfl]
  simp only [hdirective]
  rw [bind_of_eq_some hmusic]

end Drafting

namespace Sheet

theorem parse_of_all {fuel limit : Nat} {source : Source} {d : Draft}
    (h : Drafting.all fuel { input := .ofSource source Directive.scopes limit } = some ((), d)) :
    parse fuel source limit = some ⟨⟨d.header, d.parts⟩, d.input.diagnostics, d.input.journal⟩ := by
  rw [parse]
  simp only [h]
  rfl

end Sheet

end Jianpu
