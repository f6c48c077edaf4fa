import Jianpu.Proofs.Macro.Flatten

/-!
# What a caller sees of expansion

A caller asks for tokens one call after another, some with calls replaced and some as they stand.
The replies of an expander are those of the flat interpreter (`replies_flat`), as long as no call
was given up at the limit: the same tokens, the same reports in the same order, and as many open
frames. A read that never comes to an end in one of them never comes to an end in the other.
-/

namespace Jianpu.Macro

/-- What a caller can ask for: the next token, a look at it, or the group that a token opens, with
calls replaced or as they stand. -/
inductive Call where
  | next (expand : Bool)
  | peek (expand : Bool)
  | group (opening : Token) (expand : Bool)
  deriving DecidableEq, Repr

/-- What a caller sees: the tokens, and the diagnostics so far and the number of frames after the
call. -/
structure Reply where
  tokens : List Token
  diagnostics : List Diagnostic
  depth : Nat
  deriving DecidableEq, Repr

/-- The replies to calls, one after another, of an interpreter with states `σ`. There are none if a
call does not return. -/
def dialogue {σ : Type} (answer : Call → σ → Option (List Token × σ))
    (diagnostics : σ → List Diagnostic) (depth : σ → Nat) : List Call → σ → Option (List Reply)
  | [], _ => some []
  | c :: cs, s => do
    let (tokens, s) ← answer c s
    let rest ← dialogue answer diagnostics depth cs s
    return ⟨tokens, diagnostics s, depth s⟩ :: rest

theorem dialogue_cons {σ : Type} (answer : Call → σ → Option (List Token × σ))
    (diagnostics : σ → List Diagnostic) (depth : σ → Nat) (c : Call) (cs : List Call) (s : σ) :
    dialogue answer diagnostics depth (c :: cs) s = (answer c s).bind fun r =>
      (dialogue answer diagnostics depth cs r.2).map (⟨r.1, diagnostics r.2, depth r.2⟩ :: ·) := by
  rw [dialogue]
  cases answer c s with
  | none => rfl
  | some r => cases h : dialogue answer diagnostics depth cs r.2 <;> simp [h]

variable {δ : Type}

/-- What the flat interpreter answers to a call. -/
def Flat.answer (fuel : Nat) : Call → Flat δ → Option (List Token × Flat δ)
  | .next true, f => (f.next fuel).map fun r => ([r.1], r.2)
  | .next false, f => some ([f.nextRaw.1], f.nextRaw.2)
  | .peek true, f => (f.next fuel).map fun r => ([r.1], { r.2 with looked := some r.1 })
  | .peek false, f => some ([f.nextRaw.1], { f.nextRaw.2 with looked := some f.nextRaw.1 })
  | .group t true, f => f.group fuel t
  | .group t false, f => some (f.groupRaw t)

/-- The replies of the flat interpreter. -/
def Flat.replies (fuel : Nat) : List Call → Flat δ → Option (List Reply) :=
  dialogue (answer fuel) (·.diagnostics) (·.scopes.depth)

namespace Expander

/-- What an expander answers to a call. -/
def answer (fuel : Nat) : Call → Expander δ → Option (List Token × Expander δ)
  | .next true, e => (e.next fuel).map fun r => ([r.1], r.2)
  | .next false, e => some ([e.nextRaw.1], e.nextRaw.2)
  | .peek true, e => (e.peek fuel).map fun r => ([r.1], r.2)
  | .peek false, e => some ([e.peekRaw.1], e.peekRaw.2)
  | .group t true, e => e.group fuel t
  | .group t false, e => some (e.groupRaw t)

/-- The replies of an expander. -/
def replies (fuel : Nat) : List Call → Expander δ → Option (List Reply) :=
  dialogue (answer fuel) diagnostics (·.scopes.depth)

/-- Where a call is after a number of steps, whether it has returned or not. -/
def answerReached (fuel : Nat) (c : Call) (e : Expander δ) : Expander δ :=
  match e.answer fuel c with
  | some r => r.2
  | none =>
    match c with
    | .group _ _ => groupReached fuel 0 e
    | .next _ | .peek _ => e.reached fuel

/-- Where a dialogue is if every call is given a number of steps. A call that has not returned is
the last. -/
def after (fuel : Nat) : List Call → Expander δ → Expander δ
  | [], e => e
  | c :: cs, e => if (e.answer fuel c).isSome then after fuel cs (e.answerReached fuel c)
    else e.answerReached fuel c

theorem mirrors_answer {fuel : Nat} {c : Call} {e : Expander δ} (h : Stack.Grounded e.stack.sources)
    (hquiet : (e.answerReached fuel c).Quiet) :
    Option.Rel Mirrors (e.flatten.answer fuel c) (e.answer fuel c) := by
  match c with
  | .next false =>
    have hr := mirrors_nextRaw h
    exact .some ⟨congrArg (fun t => [t]) hr.value, hr.state, hr.grounded⟩
  | .peek false =>
    have hr := mirrors_nextRaw h
    refine .some ⟨congrArg (fun t => [t]) hr.value, ?_, hr.grounded⟩
    simp only [hr.value, hr.state]
    rfl
  | .group t false => exact .some (mirrors_groupRaw t h)
  | .next true =>
    have hanswer : e.answer fuel (.next true) = (e.next fuel).map fun r => ([r.1], r.2) := rfl
    have hnext : Option.Rel Mirrors (e.flatten.next fuel) (e.next fuel) := by
      refine mirrors_next h ?_
      rw [answerReached, hanswer] at hquiet
      cases hr : e.next fuel <;> rw [hr] at hquiet <;> exact hquiet
    exact Mirrors.map hnext fun q r hr => ⟨congrArg (fun t => [t]) hr.value, hr.state, hr.grounded⟩
  | .peek true =>
    have hanswer : e.answer fuel (.peek true) =
        (e.next fuel).map fun r => ([r.1], { r.2 with peeked := some r.1 }) := Option.map_map ..
    have hnext : Option.Rel Mirrors (e.flatten.next fuel) (e.next fuel) := by
      refine mirrors_next h ?_
      rw [answerReached, hanswer] at hquiet
      cases hr : e.next fuel <;> rw [hr] at hquiet <;> exact hquiet
    rw [hanswer]
    refine Mirrors.map hnext fun q r hr => ⟨congrArg (fun t => [t]) hr.value, ?_, hr.grounded⟩
    simp only [hr.value, hr.state]
    rfl
  | .group t true =>
    by_cases hopening : t.kind = .opening
    · have hanswer : e.answer fuel (.group t true) =
          (groupRest fuel 0 e).map fun g => (t :: g.1, g.2) := if_pos hopening
      have hflat : e.flatten.answer fuel (.group t true) =
          (Flat.groupRest fuel 0 e.flatten).map fun g => (t :: g.1, g.2) := if_pos hopening
      have hrest : Option.Rel Mirrors (Flat.groupRest fuel 0 e.flatten) (groupRest fuel 0 e) := by
        refine mirrors_groupRest h ?_
        rw [answerReached, hanswer] at hquiet
        cases hr : groupRest fuel 0 e with
        | none =>
          rw [hr] at hquiet
          exact hquiet
        | some r =>
          rw [hr] at hquiet
          rw [groupReached_of_groupRest hr]
          exact hquiet
      rw [hanswer, hflat]
      exact Mirrors.map hrest fun q r hr => ⟨congrArg _ hr.value, hr.state, hr.grounded⟩
    · have hanswer : e.answer fuel (.group t true) = some ([t], e) := if_neg hopening
      have hflat : e.flatten.answer fuel (.group t true) = some ([t], e.flatten) := if_neg hopening
      rw [hanswer, hflat]
      exact .some ⟨rfl, rfl, h⟩

theorem grows_answer {fuel : Nat} {c : Call} {e : Expander δ} {r : List Token × Expander δ}
    (h : e.answer fuel c = some r) : e.Grows r.2 := by
  match c with
  | .next false =>
    obtain rfl := Option.some.inj h
    exact grows_nextRaw e
  | .peek false =>
    obtain rfl := Option.some.inj h
    exact grows_nextRaw e
  | .group t false =>
    obtain rfl := Option.some.inj h
    exact grows_groupRaw t e
  | .next true =>
    obtain ⟨q, hnext, rfl⟩ := Option.map_eq_some_iff.1 h
    exact grows_next hnext
  | .peek true =>
    obtain ⟨q, hpeek, rfl⟩ := Option.map_eq_some_iff.1 h
    obtain ⟨q, hnext, rfl⟩ := Option.map_eq_some_iff.1 hpeek
    exact grows_next hnext
  | .group t true =>
    have h : e.group fuel t = some r := h
    unfold group at h
    split at h
    · obtain ⟨q, hrest, rfl⟩ := Option.map_eq_some_iff.1 h
      rw [← groupReached_of_groupRest hrest]
      exact grows_groupReached ..
    · obtain rfl := Option.some.inj h
      exact .refl e

theorem grows_answerReached (fuel : Nat) (c : Call) (e : Expander δ) :
    e.Grows (e.answerReached fuel c) := by
  unfold answerReached
  split
  · rename_i r hr
    exact grows_answer hr
  · split
    · exact grows_groupReached ..
    · exact grows_reached ..
    · exact grows_reached ..

theorem after_cons {fuel : Nat} {c : Call} {e : Expander δ} {r : List Token × Expander δ}
    (h : e.answer fuel c = some r) (cs : List Call) :
    e.after fuel (c :: cs) = r.2.after fuel cs := by
  have hreached : e.answerReached fuel c = r.2 := by
    unfold answerReached
    rw [h]
  rw [after, hreached, h]
  rfl

theorem grows_after (fuel : Nat) (cs : List Call) (e : Expander δ) : e.Grows (e.after fuel cs) := by
  induction cs generalizing e with
  | nil => exact .refl e
  | cons c cs ih =>
    rw [after]
    split
    · exact (grows_answerReached ..).trans (ih _)
    · exact grows_answerReached ..

/-- A dialogue from any state on. -/
theorem replies_flatten {fuel : Nat} {cs : List Call} {e : Expander δ}
    (h : Stack.Grounded e.stack.sources) (hquiet : (e.after fuel cs).Quiet) :
    e.flatten.replies fuel cs = e.replies fuel cs := by
  induction cs generalizing e with
  | nil => rfl
  | cons c cs ih =>
    -- a report is never taken back, so no call was given up before the end either
    have hreached : (e.answerReached fuel c).Quiet := by
      refine hquiet.of_grows ?_
      rw [after]
      split
      · exact grows_after ..
      · exact .refl _
    have hanswer := mirrors_answer h hreached
    unfold replies Flat.replies
    rw [dialogue_cons, dialogue_cons]
    cases hr : e.answer fuel c with
    | none =>
      rw [hr] at hanswer
      cases hq : e.flatten.answer fuel c with
      | none => rfl
      | some q =>
        rw [hq] at hanswer
        cases hanswer
    | some r =>
      rw [after_cons hr] at hquiet
      rw [hr] at hanswer
      cases hq : e.flatten.answer fuel c with
      | none =>
        rw [hq] at hanswer
        cases hanswer
      | some q =>
        rw [hq] at hanswer
        cases hanswer with
        | some hm =>
          change (Flat.replies fuel cs q.2).map (⟨q.1, q.2.diagnostics, q.2.scopes.depth⟩ :: ·) =
            (r.2.replies fuel cs).map (⟨r.1, r.2.diagnostics, r.2.scopes.depth⟩ :: ·)
          rw [hm.value, hm.state, ih hm.grounded hquiet]
          rfl

/-- In a dialogue in which every call has returned, a call that was given up shows in a reply. -/
theorem quiet_after_iff {fuel : Nat} {cs : List Call} {e : Expander δ} {rs : List Reply}
    (he : e.Quiet) (h : e.replies fuel cs = some rs) :
    (e.after fuel cs).Quiet ↔ ∀ r ∈ rs, ∀ d ∈ r.diagnostics, d.cause ≠ .nestingExceeded := by
  induction cs generalizing e rs with
  | nil =>
    obtain rfl := Option.some.inj h
    exact iff_of_true he (by simp)
  | cons c cs ih =>
    unfold replies at h
    rw [dialogue_cons] at h
    obtain ⟨r, hr, h⟩ := Option.bind_eq_some_iff.1 h
    obtain ⟨rest, hrest, rfl⟩ := Option.map_eq_some_iff.1 h
    have hdiagnostics : r.2.Quiet ↔ ∀ d ∈ r.2.diagnostics, d.cause ≠ .nestingExceeded := by
      simp only [Quiet, diagnostics, List.mem_reverse]
    rw [after_cons hr, List.forall_mem_cons, ← hdiagnostics]
    constructor
    · intro hafter
      have hquiet := hafter.of_grows (grows_after ..)
      exact ⟨hquiet, (ih hquiet hrest).1 hafter⟩
    · rintro ⟨hquiet, hall⟩
      exact (ih hquiet hrest).2 hall

/-- **The stack of sources is one list of tokens to the caller.** As long as no call is given up at
the limit, the replies of an expander to any calls are those of the flat interpreter, and they stay
out in both or in neither. If they do not stay out, they tell whether a call was given up. -/
theorem replies_flat (s : Source) (scopes : Scopes δ) (limit fuel : Nat) (calls : List Call) :
    (((ofSource s scopes limit).after fuel calls).Quiet →
      (Flat.ofSource s scopes).replies fuel calls = (ofSource s scopes limit).replies fuel calls) ∧
    ∀ rs, (ofSource s scopes limit).replies fuel calls = some rs →
      (((ofSource s scopes limit).after fuel calls).Quiet ↔
        ∀ r ∈ rs, ∀ d ∈ r.diagnostics, d.cause ≠ .nestingExceeded) := by
  have hgrounded : Stack.Grounded (ofSource s scopes limit).stack.sources := by
    intro t ht
    cases ht
  have hquiet : (ofSource s scopes limit).Quiet := by
    intro d hd
    cases hd
  have hflatten : (ofSource s scopes limit).flatten = Flat.ofSource s scopes := by
    simp [flatten, ofSource, Flat.ofSource, Stack.ofSource, Stack.tokens, Stack.finish, diagnostics]
  refine ⟨fun h => ?_, fun rs => quiet_after_iff hquiet⟩
  rw [← hflatten]
  exact replies_flatten hgrounded h

/-- A call of two arguments at the end of a replacement that holds only the first of them. -/
def straddling : Source :=
  .ofText .tex "\\def\\pair#1#2\x7b#2;#1\x7d\\def\\half\x7b\\pair a\x7d\\half\x7bbc\x7d"

/-- A look, two tokens and a group of the replacement, and the token after it as it stands. -/
def straddlingCalls : List Call :=
  [.peek true, .next true, .group ⟨.opening, "\x7b", {}, false⟩ true, .next true, .next false]

theorem replies_straddling :
    ((ofSource straddling (.builtin : Scopes Unit) 2).after 9 straddlingCalls).Quiet ∧
    ((Flat.ofSource straddling (.builtin : Scopes Unit)).replies 9 straddlingCalls).map
        (·.map fun r => (Token.displayAll r.tokens, r.diagnostics.length, r.depth)) =
      some [("\x7b", 0, 2), ("\x7b", 0, 2), ("\x7bbc\x7d", 0, 1), (";", 0, 1), ("a", 0, 1)] := by
  have hquiet : ((ofSource straddling (.builtin : Scopes Unit) 2).after 9
      straddlingCalls).Quiet := by
    decide +kernel
  refine ⟨hquiet, ?_⟩
  rw [(replies_flat straddling .builtin 2 9 straddlingCalls).1 hquiet]
  decide +kernel

end Expander

end Jianpu.Macro
