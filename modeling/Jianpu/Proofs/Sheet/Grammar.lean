import Jianpu.Proofs.Sheet.PhraseReading

/-!
# The grammar of music without directives

```
Sequence  := ( ( Note | Group ) Modifiers )*
Group     := '{' Branches '}'
Branches  := Sequence ( ( '|' | ',' ) Sequence )*
Note      := '0' | '1' ... '7'
Modifiers := Modifier*
Modifier  := '_' | '-'+ | '*'+ | '/'+ | '#' | 'b' | ''' | '.'
```

`Derives` is this grammar over tokens. A run of marks can be cut into modifiers in several ways, so
what matters about the tokens of modifiers is only that each is a mark (`derives_modifiers_iff`). A
token is followed by its modifiers as far as they go, since no sequence starts with a mark.
-/

namespace Jianpu

/-- The symbols of the grammar that stand for several tokens. -/
inductive Symbol where
  | sequence
  | group
  | branches
  | modifiers
  | modifier
  deriving DecidableEq, Repr

/-- The token is one of some characters. -/
def Token.IsOneOf (t : Token) (cs : List Char) : Prop := ∃ c ∈ cs, t.single? = some c

/-- The token is a note or a rest. -/
def Token.IsNote (t : Token) : Prop := t.IsOneOf ['0', '1', '2', '3', '4', '5', '6', '7']

/-- Tokens that can be derived from a symbol. -/
inductive Derives : Symbol → List Token → Prop
  | nil : Derives .sequence []
  | note {t : Token} {ms ts : List Token} : t.IsNote → Derives .modifiers ms →
      Derives .sequence ts → Derives .sequence (t :: (ms ++ ts))
  | group {gs ms ts : List Token} : Derives .group gs → Derives .modifiers ms →
      Derives .sequence ts → Derives .sequence (gs ++ (ms ++ ts))
  | braces {o c : Token} {bs : List Token} : o.kind = .opening → Derives .branches bs →
      c.kind = .closing → Derives .group (o :: (bs ++ [c]))
  | last {ts : List Token} : Derives .sequence ts → Derives .branches ts
  | more {t : Token} {ts bs : List Token} : Derives .sequence ts → t.IsOneOf ['|', ','] →
      Derives .branches bs → Derives .branches (ts ++ t :: bs)
  | noModifier : Derives .modifiers []
  | modifiers {m ms : List Token} : Derives .modifier m → Derives .modifiers ms →
      Derives .modifiers (m ++ ms)
  | single {t : Token} : t.IsOneOf ['_', '#', 'b', '\'', '.'] → Derives .modifier [t]
  | run {ts : List Token} {c : Char} : c ∈ ['-', '*', '/'] → ts ≠ [] →
      (∀ t ∈ ts, t.single? = some c) → Derives .modifier ts

/-! ## Tokens -/

namespace Token

variable {t : Token}

/-- The token is a mark. -/
def IsMark (t : Token) : Prop := ∃ m : Mark, t.single? = some m.char

theorem isSeparator_iff : t.isSeparator = true ↔ t.IsOneOf ['|', ','] := by
  simp [isSeparator, IsOneOf]

theorem isMark_of_isOneOf (h : t.IsOneOf ['_', '#', 'b', '\'', '.']) : t.IsMark := by
  obtain ⟨c, hc, ht⟩ := h
  have hchars : c ∈ [Mark.underline, .sharp, .flat, .octaveUp, .octaveDown].map (·.char) := hc
  obtain ⟨m, -, rfl⟩ := List.mem_map.1 hchars
  exact ⟨m, ht⟩

theorem isMark_of_single? {c : Char} (hc : c ∈ ['-', '*', '/']) (ht : t.single? = some c) :
    t.IsMark := by
  have hchars : c ∈ [Mark.dash, .dot, .stroke].map (·.char) := hc
  obtain ⟨m, -, rfl⟩ := List.mem_map.1 hchars
  exact ⟨m, ht⟩

theorem IsMark.derives_modifier (h : t.IsMark) : Derives .modifier [t] := by
  obtain ⟨m, ht⟩ := h
  have hsingle : ∀ t' ∈ [t], t'.single? = some m.char := by
    simpa using ht
  cases m with
  | underline | sharp | flat | octaveUp | octaveDown => exact .single ⟨_, by decide, ht⟩
  | dash | dot | stroke => exact .run (by decide) (List.cons_ne_nil t []) hsingle

/-- The digits from 0 to 7 are the degrees. -/
theorem digits_eq : ['0', '1', '2', '3', '4', '5', '6', '7'] = List.ofFn Phrase.digit := rfl

theorem IsNote.exists_degree (h : t.IsNote) :
    ∃ degree : Fin 8, t.single? = some (Phrase.digit degree) := by
  obtain ⟨c, hc, ht⟩ := h
  rw [digits_eq] at hc
  obtain ⟨degree, rfl⟩ := List.mem_ofFn.1 hc
  exact ⟨degree, ht⟩

theorem isNote_of_degree {degree : Fin 8} (h : t.single? = some (Phrase.digit degree)) :
    t.IsNote := by
  refine ⟨_, ?_, h⟩
  rw [digits_eq]
  exact List.mem_ofFn.2 ⟨degree, rfl⟩

theorem exists_degree_of_isDigit {c : Char} (hdigit : c.isDigit = true)
    (hle : c.toNat - '0'.toNat ≤ 7) : ∃ degree : Fin 8, c = Phrase.digit degree := by
  have hall : ∀ degree : Fin 8, Phrase.digit degree = Char.ofNat (degree + '0'.toNat) := by decide
  have hlow : '0'.toNat ≤ c.toNat := by
    simp only [Char.isDigit, Bool.and_eq_true, decide_eq_true_eq] at hdigit
    exact UInt32.le_iff_toNat_le.1 hdigit.1
  refine ⟨⟨c.toNat - '0'.toNat, Nat.lt_succ_of_le hle⟩, ?_⟩
  rw [hall, Nat.sub_add_cancel hlow, Char.ofNat_toNat]

theorem lexeme_of_single? {c : Char} (h : t.single? = some c) : t.lexeme = .glyph c := by
  have hkind := kind_of_single? h
  have htext : t.text = String.singleton c := by
    unfold single? at h
    split at h
    · rename_i htext
      obtain rfl := Option.some.inj h
      exact String.toList_injective (htext.trans (String.toList_singleton ..).symm)
    · cases h
  exact Prod.ext hkind htext

end Token

/-! ## Derivations -/

/-- Tokens are derived from modifiers if and only if each is a mark. -/
theorem derives_modifiers_iff {ms : List Token} :
    Derives .modifiers ms ↔ ∀ t ∈ ms, t.IsMark := by
  constructor
  · have hmarks : ∀ {x : Symbol} {ts : List Token}, Derives x ts →
        x = .modifiers ∨ x = .modifier → ∀ t ∈ ts, t.IsMark := by
      intro x ts h
      induction h with
      | nil | note | group | braces | last | more => exact fun hx => by simp at hx
      | noModifier => exact fun _ t ht => nomatch ht
      | modifiers _ _ ihm ihms =>
        exact fun _ => List.forall_mem_append.2 ⟨ihm (.inr rfl), ihms (.inl rfl)⟩
      | single ht =>
        intro _ t' ht'
        obtain rfl := List.mem_singleton.1 ht'
        exact Token.isMark_of_isOneOf ht
      | run hc _ hts => exact fun _ t ht => Token.isMark_of_single? hc (hts t ht)
    exact fun h => hmarks h (.inl rfl)
  · intro h
    induction ms with
    | nil => exact .noModifier
    | cons t ms ih =>
      obtain ⟨ht, hms⟩ := List.forall_mem_cons.1 h
      exact .modifiers ht.derives_modifier (ih hms)

/-- A sequence starts with a note or a brace, unless it is empty. -/
theorem Derives.head_sequence {ts : List Token} (h : Derives .sequence ts) {t : Token}
    (ht : ts.head? = some t) : t.IsNote ∨ t.kind = .opening := by
  cases h with
  | nil => cases ht
  | note hnote _ _ =>
    obtain rfl := Option.some.inj ht
    exact .inl hnote
  | group hgroup _ _ =>
    cases hgroup with
    | braces ho _ _ =>
      obtain rfl := Option.some.inj ht
      exact .inr ho

/-- No sequence starts with a token that ends one. -/
theorem Derives.not_stop {t : Token} {ts : List Token} (h : Derives .sequence (t :: ts)) :
    ¬(t.kind = .closing ∨ t.isSeparator = true) := by
  rcases h.head_sequence rfl with hnote | ho
  · obtain ⟨degree, hdegree⟩ := hnote.exists_degree
    rw [Token.kind_of_single? hdegree, Token.isSeparator_of_digit (Token.lexeme_of_single? hdegree)]
    simp
  · rw [ho, Token.isSeparator_of_kind (by rw [ho]; exact nofun)]
    simp

/-- What follows a sequence starts with no mark, nor does the sequence. -/
theorem Derives.unmarked {ts rest : List Token} (h : Derives .sequence ts) (hrest : Unmarked rest) :
    Unmarked (ts ++ rest) := by
  cases hts : ts with
  | nil => exact hrest
  | cons t ts' =>
    intro u hu m hm
    obtain rfl : t = u := Option.some.inj hu
    rcases h.head_sequence (t := t) (by rw [hts]; rfl) with hnote | ho
    · obtain ⟨degree, hdegree⟩ := hnote.exists_degree
      exact Phrase.digit_ne_char degree m (Option.some.inj (hdegree.symm.trans hm))
    · exact nomatch ho.symm.trans (Token.kind_of_single? hm)

/-- Marks go as far as they can. -/
theorem Unmarked.append_inj {ms ms' us us' : List Token} (h : ms ++ us = ms' ++ us')
    (hms : ∀ t ∈ ms, t.IsMark) (hms' : ∀ t ∈ ms', t.IsMark) (hus : Unmarked us)
    (hus' : Unmarked us') : ms = ms' ∧ us = us' := by
  induction ms generalizing ms' with
  | nil =>
    cases ms' with
    | nil => exact ⟨rfl, h⟩
    | cons t ms' =>
      obtain ⟨m, hm⟩ := hms' t List.mem_cons_self
      exact absurd hm (hus t (by rw [show us = _ from h]; rfl) m)
  | cons t ms ih =>
    cases ms' with
    | nil =>
      obtain ⟨m, hm⟩ := hms t List.mem_cons_self
      exact absurd hm (hus' t (by rw [show us' = _ from h.symm]; rfl) m)
    | cons t' ms' =>
      rw [List.cons_append, List.cons_append] at h
      obtain ⟨rfl, htail⟩ := List.cons.inj h
      obtain ⟨rfl, rfl⟩ := ih htail (List.forall_mem_cons.1 hms).2 (List.forall_mem_cons.1 hms').2
      exact ⟨rfl, rfl⟩

end Jianpu
