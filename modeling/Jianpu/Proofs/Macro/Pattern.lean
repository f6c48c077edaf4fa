import Jianpu.Proofs.Macro.Matched

/-!
# What a pattern matches

The tokens that a pattern matches, told without an expander. A literal stands for a token with its
text. A placeholder stands for a unit, which is a token or a whole group; or, if a literal follows
it, for the units up to the first that starts with the literal's text. Some tokens begin with a
match of a pattern in one way at most: `Matches.unique`. The placeholders of a body then make room
for what those of the pattern stand for (`spliced`), all at once.
-/

namespace Jianpu.Macro

open Expander (Closes closesWithin matched)

variable {t f delimiter : Token} {ts us rest rest' : List Token} {text : String} {level n : Nat}

theorem slot?_eq_none_iff : slot? t = none ↔ t.isParam = false := by
  unfold slot? Token.isParam
  cases t.kind <;> simp

/-! ## Units -/

/-- A token that opens no group, or a whole group. -/
inductive IsUnit : List Token → Prop
  | token {t : Token} : t.kind ≠ .opening → IsUnit [t]
  | group {t : Token} {ts : List Token} : t.kind = .opening → Closes 0 ts → IsUnit (t :: ts)

/-- Whether the first token has this text. -/
def startsWith (text : String) (ts : List Token) : Bool := ts.head?.any (·.text = text)

/-- Whether nothing but a token with this text can come first. -/
def stopsAt (text : String) (ts : List Token) : Bool := ts.head?.all (·.text = text)

theorem stopsAt_of_startsWith (h : startsWith text ts = true) : stopsAt text ts = true := by
  cases ts with
  | nil => rfl
  | cons t ts => exact h

/-- Units, none of which starts with this text. -/
def UnitsBefore (text : String) (units : List (List Token)) : Prop :=
  ∀ us ∈ units, IsUnit us ∧ startsWith text us = false

/-- A group ends at one brace only. -/
theorem Expander.Closes.append_inj (h : Closes level ts) (h' : Closes level us)
    (heq : ts ++ rest = us ++ rest') : ts = us ∧ rest = rest' := by
  induction h generalizing us with
  | last hl =>
    cases h' with
    | last => exact ⟨congrArg (fun t => [t]) (List.cons.inj heq).1, (List.cons.inj heq).2⟩
    | more _ hl' =>
      rw [← (List.cons.inj heq).1, hl] at hl'
      cases hl'
  | more _ hl _ ih =>
    cases h' with
    | last hl' =>
      rw [← (List.cons.inj heq).1, hl] at hl'
      cases hl'
    | more _ hl' hrest =>
      obtain ⟨rfl, htail⟩ := List.cons.inj heq
      obtain rfl := Option.some.inj (hl.symm.trans hl')
      obtain ⟨rfl, rfl⟩ := ih hrest htail
      exact ⟨rfl, rfl⟩

namespace IsUnit

theorem ne_nil (h : IsUnit ts) : ts ≠ [] := by
  cases h <;> simp

theorem append_inj (h : IsUnit ts) (h' : IsUnit us) (heq : ts ++ rest = us ++ rest') :
    ts = us ∧ rest = rest' := by
  cases h with
  | token ht =>
    cases h' with
    | token => exact ⟨congrArg (fun t => [t]) (List.cons.inj heq).1, (List.cons.inj heq).2⟩
    | group hu =>
      rw [(List.cons.inj heq).1] at ht
      exact absurd hu ht
  | group ht hts =>
    cases h' with
    | token hu =>
      rw [← (List.cons.inj heq).1] at hu
      exact absurd ht hu
    | group _ hus =>
      obtain ⟨rfl, htail⟩ := List.cons.inj heq
      obtain ⟨rfl, rfl⟩ := hts.append_inj hus htail
      exact ⟨rfl, rfl⟩

theorem stopsAt_append (h : IsUnit ts) (text : String) (rest : List Token) :
    stopsAt text (ts ++ rest) = startsWith text ts := by
  cases h <;> rfl

end IsUnit

/-- Units up to a text can be read off in one way only. -/
theorem UnitsBefore.append_inj {units units' : List (List Token)} (h : UnitsBefore text units)
    (h' : UnitsBefore text units') (hrest : stopsAt text rest = true)
    (hrest' : stopsAt text rest' = true) (heq : units.flatten ++ rest = units'.flatten ++ rest') :
    units.flatten = units'.flatten ∧ rest = rest' := by
  -- a unit on one side only would start with the text
  have hclash : ∀ {us : List Token} {units rest rest'}, UnitsBefore text (us :: units) →
      stopsAt text rest = true → rest ≠ (us :: units).flatten ++ rest' := by
    rintro us units rest rest' hunits hstop rfl
    obtain ⟨hus, hne⟩ := hunits us List.mem_cons_self
    rw [List.flatten_cons, List.append_assoc, hus.stopsAt_append, hne] at hstop
    cases hstop
  induction units generalizing units' with
  | nil =>
    cases units' with
    | nil => exact ⟨rfl, heq⟩
    | cons us units' => exact absurd heq (hclash h' hrest)
  | cons us units ih =>
    cases units' with
    | nil => exact absurd heq.symm (hclash h hrest')
    | cons us' units' =>
      obtain ⟨⟨hus, -⟩, hunits⟩ := List.forall_mem_cons.1 h
      obtain ⟨⟨hus', -⟩, hunits'⟩ := List.forall_mem_cons.1 h'
      rw [List.flatten_cons, List.flatten_cons, List.append_assoc, List.append_assoc] at heq
      obtain ⟨rfl, htail⟩ := hus.append_inj hus' heq
      obtain ⟨hflatten, rfl⟩ := ih hunits hunits' htail
      exact ⟨by rw [List.flatten_cons, List.flatten_cons, hflatten], rfl⟩

theorem UnitsBefore.flatten_ne_nil {units : List (List Token)} (h : UnitsBefore text units)
    (hne : units ≠ []) : units.flatten ≠ [] := by
  obtain ⟨us, units, rfl⟩ := List.exists_cons_of_ne_nil hne
  rw [List.flatten_cons]
  exact List.append_ne_nil_of_left_ne_nil (h us List.mem_cons_self).1.ne_nil _

/-! ## Matches -/

/-- The tokens match the pattern, whose placeholders stand for `args`, in order. -/
inductive Matches : (pattern ts : List Token) → (args : List (List Token)) → Prop
  | nil : Matches [] [] []
  | literal {f t : Token} {pattern ts : List Token} {args : List (List Token)} :
      f.isParam = false → t.text = f.text → Matches pattern ts args →
      Matches (f :: pattern) (t :: ts) args
  | unit {f : Token} {pattern us ts : List Token} {args : List (List Token)} :
      f.isParam = true → pattern.head?.all (·.isParam) = true → IsUnit us →
      Matches pattern ts args → Matches (f :: pattern) (us ++ ts) (us :: args)
  | units {f delimiter : Token} {pattern ts : List Token} {units args : List (List Token)} :
      f.isParam = true → delimiter.isParam = false → units ≠ [] →
      UnitsBefore delimiter.text units → Matches (delimiter :: pattern) ts args →
      Matches (f :: delimiter :: pattern) (units.flatten ++ ts) (units.flatten :: args)

namespace Matches

variable {pattern : List Token} {args args' : List (List Token)}

/-- What matches a literal starts with its text. -/
theorem startsWith_append (h : Matches (delimiter :: pattern) ts args)
    (hd : delimiter.isParam = false) (rest : List Token) :
    startsWith delimiter.text (ts ++ rest) = true := by
  cases h with
  | literal _ htext => simpa [startsWith] using htext
  | unit hf => simp [hd] at hf
  | units hf => simp [hd] at hf

theorem length_args (h : Matches pattern ts args) : args.length = pattern.countP (·.isParam) := by
  induction h with
  | nil => rfl
  | literal hf _ _ ih => rw [List.countP_cons_of_neg (by simp [hf]), ih]
  | unit hf _ _ _ ih => rw [List.countP_cons_of_pos hf, List.length_cons, ih]
  | units hf _ _ _ _ ih => rw [List.countP_cons_of_pos hf, List.length_cons, ih]

/-- **Tokens begin with a match in one way at most.** -/
theorem unique (h : Matches pattern ts args) (h' : Matches pattern us args')
    (heq : ts ++ rest = us ++ rest') : ts = us ∧ args = args' ∧ rest = rest' := by
  induction h generalizing us args' with
  | nil =>
    cases h'
    exact ⟨rfl, rfl, heq⟩
  | literal hf _ _ ih =>
    cases h' with
    | literal _ _ h' =>
      obtain ⟨rfl, htail⟩ := List.cons.inj heq
      obtain ⟨rfl, rfl, rfl⟩ := ih h' htail
      exact ⟨rfl, rfl, rfl⟩
    | unit hf' => simp [hf] at hf'
    | units hf' => simp [hf] at hf'
  | unit hf hhead hus _ ih =>
    cases h' with
    | literal hf' => simp [hf] at hf'
    | unit _ _ hus' h' =>
      rw [List.append_assoc, List.append_assoc] at heq
      obtain ⟨rfl, htail⟩ := hus.append_inj hus' heq
      obtain ⟨rfl, rfl, rfl⟩ := ih h' htail
      exact ⟨rfl, rfl, rfl⟩
    | units _ hd => simp [hd] at hhead
  | units hf hd _ hunits h ih =>
    cases h' with
    | literal hf' => simp [hf] at hf'
    | unit _ hhead => simp [hd] at hhead
    | units _ _ _ hunits' h' =>
      rw [List.append_assoc, List.append_assoc] at heq
      obtain ⟨hflatten, htail⟩ := hunits.append_inj hunits'
        (stopsAt_of_startsWith (h.startsWith_append hd _))
        (stopsAt_of_startsWith (h'.startsWith_append hd _)) heq
      obtain ⟨rfl, rfl, rfl⟩ := ih h' htail
      rw [hflatten]
      exact ⟨rfl, rfl, rfl⟩

/-- Placeholders in a row stand for a token each. -/
theorem tokens (hpattern : ∀ f ∈ pattern, f.isParam = true) (hts : ∀ t ∈ ts, t.kind ≠ .opening)
    (hlength : pattern.length = ts.length) : Matches pattern ts (ts.map fun t => [t]) := by
  induction pattern generalizing ts with
  | nil =>
    obtain rfl := List.eq_nil_of_length_eq_zero hlength.symm
    exact .nil
  | cons f pattern ih =>
    obtain ⟨t, ts, rfl⟩ := List.exists_cons_of_length_eq_add_one hlength.symm
    obtain ⟨hf, hpattern⟩ := List.forall_mem_cons.1 hpattern
    obtain ⟨ht, hts⟩ := List.forall_mem_cons.1 hts
    have hhead : pattern.head?.all (·.isParam) = true := by
      cases pattern with
      | nil => rfl
      | cons g pattern => exact hpattern g List.mem_cons_self
    exact .unit hf hhead (.token ht) (ih hpattern hts (Nat.succ.inj hlength))

end Matches

/-! ## Arguments -/

/-- The placeholders are numbered one after another, from the number after `n` on. -/
def Numbered : Nat → List Token → Prop
  | _, [] => True
  | n, t :: ts =>
    if t.isParam then t.kind = .param (some (n + 1)) ∧ Numbered (n + 1) ts else Numbered n ts

/-- Binds what the placeholders stand for, from the number after `n` on. -/
def Arguments.bindFrom (bound : Arguments) : Nat → List (List Token) → Arguments
  | _, [] => bound
  | n, arg :: args => (bound.bind ((n + 1) % 10) arg).bindFrom (n + 1) args

/-- What placeholder `k` stands for, given what those of the pattern do. There are ten places, so it
is what the last one stands for whose number agrees with `k` modulo ten. -/
def argument (args : List (List Token)) (k : Nat) : List Token :=
  args.getD (k + (args.length - k) / 10 * 10 - 1) []

/-- Up to ten placeholders do not get in each other's way. -/
theorem argument_of_length_le {args : List (List Token)} (h : args.length ≤ 10) {k : Nat}
    (hk : 1 ≤ k) : argument args k = args.getD (k - 1) [] := by
  have hzero : (args.length - k) / 10 = 0 := by omega
  rw [argument, hzero, Nat.zero_mul, Nat.add_zero]

theorem bindFrom_append (bound : Arguments) (n : Nat) (args args' : List (List Token)) :
    bound.bindFrom n (args ++ args') =
      (bound.bindFrom n args).bindFrom (n + args.length) args' := by
  induction args generalizing bound n with
  | nil => rfl
  | cons arg args ih =>
    rw [List.cons_append, Arguments.bindFrom, ih, Arguments.bindFrom, List.length_cons,
      Nat.add_right_comm, Nat.add_assoc n args.length]

theorem bindFrom_apply (bound : Arguments) (args : List (List Token)) {k : Nat} (hk : 1 ≤ k)
    (hle : k ≤ args.length) : bound.bindFrom 0 args (k % 10) = argument args k := by
  induction args using List.reverseRecOn with
  | nil => exact absurd (Nat.le_trans hk hle) (by simp)
  | append_singleton args arg ih =>
    rw [List.length_append, List.length_singleton] at hle
    rw [bindFrom_append, Nat.zero_add, Arguments.bindFrom, Arguments.bindFrom, Arguments.bind,
      argument, List.length_append, List.length_singleton]
    by_cases hslot : k % 10 = (args.length + 1) % 10
    · -- the last one takes the place
      have hlast : k + (args.length + 1 - k) / 10 * 10 - 1 = args.length := by omega
      rw [if_pos hslot, hlast]
      simp
    · have hle' : k ≤ args.length := by omega
      have hsame : (args.length + 1 - k) / 10 = (args.length - k) / 10 := by omega
      have hlt : k + (args.length - k) / 10 * 10 - 1 < args.length := by omega
      rw [if_neg hslot, ih hle', hsame, argument]
      simp [List.getD_eq_getElem?_getD, List.getElem?_append_left hlt]

/-! ## Bodies -/

/-- The body with the argument of each placeholder in its stead. The first token of an argument has
a blank before it if the placeholder has. -/
def spliced (arg : Nat → List Token) (body : List Token) : List Token :=
  body.flatMap fun t =>
    match t.kind with
    | .param (some k) => (arg k).modifyHead ({ · with spaced := t.spaced })
    | _ => [t]

/-- A call with the blank before it makes way for the tokens. -/
def inPlaceOf (call : Token) (ts : List Token) : List Token :=
  ts.modifyHead fun t => { t with spaced := t.spaced || call.spaced }

theorem spliced_congr {arg arg' : Nat → List Token} {body : List Token}
    (h : ∀ t ∈ body, ∀ k, t.kind = .param (some k) → arg k = arg' k) :
    spliced arg body = spliced arg' body := by
  refine List.flatMap_congr fun t ht => ?_
  split
  · rename_i k hk
    rw [h t ht k hk]
  · rfl

/-- What replaces a call is the body with the arguments in the stead of the placeholders. -/
theorem replacement_bindFrom (call : Token) (args : List (List Token)) {body : List Token}
    (hbody : ∀ t ∈ body, Expander.legal args.length t = true) :
    replacement call (Arguments.empty.bindFrom 0 args) body =
      inPlaceOf call (spliced (argument args) body) := by
  have hsubstitute : substitute (Arguments.empty.bindFrom 0 args) body =
      spliced (argument args) body := by
    refine List.flatMap_congr fun t ht => ?_
    have hlegal := hbody t ht
    unfold Expander.legal at hlegal
    unfold slot?
    cases hk : t.kind with
    | param number =>
      cases number with
      | none => simp [hk] at hlegal
      | some k =>
        obtain ⟨hone, hle⟩ : 1 ≤ k ∧ k ≤ args.length := by simpa [hk] using hlegal
        dsimp only [Option.getD_some]
        rw [bindFrom_apply _ _ hone hle]
        cases argument args k <;> rfl
    | eof | control | opening | closing | other => rfl
  rw [replacement, hsubstitute]
  cases spliced (argument args) body <;> rfl

end Jianpu.Macro
