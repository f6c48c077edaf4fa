import Jianpu.Token.Source

/-!
# Scanned tokens

A text is scanned into tokens, each of the kind that its characters call for, and one end mark after
them: `Token.exists_scan`.
-/

namespace Jianpu.Token

variable {a : Alphabet} {t : Token}

/-- The token has the kind and the text that its first character and what follows that call for. -/
def Shaped (a : Alphabet) (t : Token) : Prop :=
  ∃ c cs, t.kind = (shape a c cs).1 ∧ t.text = String.ofList (c :: (shape a c cs).2)

theorem kind_shape_ne_eof (a : Alphabet) (c : Char) (cs : List Char) : (shape a c cs).1 ≠ .eof := by
  have hplain : (if c = a.opening then Kind.opening else
      if c = a.closing then .closing else .other) ≠ .eof := by
    split
    · exact nofun
    · split <;> exact nofun
  unfold shape
  dsimp only
  split
  · split
    · exact nofun
    · exact hplain
  · split
    · split
      · split
        · exact nofun
        · exact hplain
      · exact hplain
    · exact hplain

theorem Shaped.isEof_eq_false (h : t.Shaped a) : t.isEof = false := by
  obtain ⟨c, cs, hkind, -⟩ := h
  simpa [isEof, hkind] using kind_shape_ne_eof a c cs

theorem exists_scanFrom (a : Alphabet) (p : Position) (cs : List Char) :
    ∃ ts q spaced, scanFrom a p cs = ts ++ [eof q spaced] ∧ ∀ t ∈ ts, t.Shaped a := by
  fun_induction scanFrom a p cs with
  | case1 p cs gap h => exact ⟨[], gap.position, gap.spaced, rfl, nofun⟩
  | case2 p cs gap c rest h hlt kind more hshape stop ih =>
    obtain ⟨ts, q, spaced, hts, hshaped⟩ := ih
    refine ⟨_ :: ts, q, spaced, by rw [hts]; rfl,
      List.forall_mem_cons.2 ⟨⟨c, rest, ?_, ?_⟩, hshaped⟩⟩
    · rw [hshape]
    · rw [hshape]

/-- The tokens of a text, and the end mark after them. -/
theorem exists_scan (a : Alphabet) (text : String) :
    ∃ ts q spaced, scan a text = ts ++ [eof q spaced] ∧ ∀ t ∈ ts, t.Shaped a :=
  exists_scanFrom a {} _

/-- The tokens up to the end mark. -/
theorem takeWhile_scan {text : String} {ts : List Token} {q : Position} {spaced : Bool}
    (h : scan a text = ts ++ [eof q spaced]) :
    (scan a text).takeWhile (fun t => !t.isEof) = ts := by
  obtain ⟨us, q', spaced', hus, hshaped⟩ := exists_scan a text
  obtain ⟨rfl, -⟩ := List.append_inj' (h.symm.trans hus) rfl
  rw [h, List.takeWhile_append_of_pos fun t ht => by simp [(hshaped t ht).isEof_eq_false]]
  exact List.append_nil ts

/-- The source of a text holds its tokens up to the end mark, and then the end mark. -/
theorem exists_source (a : Alphabet) (text : String) :
    ∃ ends endless,
      Source.ofText a text = ⟨(scan a text).takeWhile (fun t => !t.isEof) ++ ends, endless⟩ ∧
      (∀ t ∈ ends, t.isEof = true) ∧
      ((scan a text).takeWhile fun t => !t.isEof).length + 1 = (scan a text).length := by
  obtain ⟨ts, q, spaced, hscan, -⟩ := exists_scan a text
  rw [takeWhile_scan hscan]
  refine ⟨[eof q spaced], (scan a text).getLast?.map (·.span.start), ?_, ?_, ?_⟩
  · rw [Source.ofText, hscan]
  · simp [isEof, eof]
  · rw [hscan, List.length_append, List.length_singleton]

end Jianpu.Token
