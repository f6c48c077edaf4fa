import Jianpu.Proofs.Smf.Distances
import Jianpu.Publish

/-!
# What is left of the output

Compiling fails at one of three places: the input is no text, something is wrong with the text, or
an event of a track is too far from the one before it for a file. `Ending` says once which of them a
compilation came to, and what was written then.

In the first two cases the output has not been opened, and is as it was before. In the last case it
has, and what it held is lost: the output is all or nothing if and only if no event is too far, or
there was nothing in it to lose (`publish_atomic_iff`).
-/

namespace Jianpu

/-! ## How a compilation ends -/

theorem Compiled.result_of_diagnostics {c : Compiled} (h : c.diagnostics = []) :
    c.result = .ok c.composition := by
  rw [result, h]
  rfl

theorem Compiled.result_of_diagnostics_ne {c : Compiled} (h : c.diagnostics ≠ []) :
    c.result = .error (.source c.diagnostics) := by
  rw [result, if_neg (by simpa using h)]
  rfl

/-- What becomes of the bytes of a source. -/
inductive Ending (fuel : Nat) (o : Options) (input : List UInt8) : Published → Prop
  | notText : Utf8.decode? input = none → Ending fuel o input ⟨.error (.file .notText), none⟩
  | faulty {text : String} {c : Compiled} : Utf8.decode? input = some text →
      compile fuel o text = some c → c.diagnostics ≠ [] →
      Ending fuel o input ⟨.error (.source c.diagnostics), none⟩
  /-- The first event that is too far, of the first track with one, is reported. -/
  | tooFar {text : String} {c : Compiled} {v : Smf.Overflow} : Utf8.decode? input = some text →
      compile fuel o text = some c → c.diagnostics = [] →
      c.composition.tracks.findSome? Smf.overflow? = some v →
      Ending fuel o input ⟨.error (.overflow v), some []⟩
  | finished {text : String} {c : Compiled} {bytes : List UInt8} : Utf8.decode? input = some text →
      compile fuel o text = some c → c.diagnostics = [] →
      (∀ t ∈ c.composition.tracks, Smf.Writable t) → Smf.encode c.composition = .ok bytes →
      Ending fuel o input ⟨.ok c.composition, some bytes⟩

variable {fuel : Nat} {o : Options} {input : List UInt8} {p : Published}

theorem ending_of_publish (h : publish fuel o input = some p) : Ending fuel o input p := by
  unfold publish at h
  split at h
  · rename_i hdecode
    obtain rfl := Option.some.inj h
    exact .notText hdecode
  · rename_i text hdecode
    obtain ⟨c, hc, rfl⟩ := Option.map_eq_some_iff.1 h
    by_cases hdiagnostics : c.diagnostics = []
    · rw [c.result_of_diagnostics hdiagnostics]
      dsimp only [OpenFile.write, encodeFile]
      -- the file is empty when the writing starts, and nothing is written if the encoding fails
      cases hencode : Smf.encode c.composition with
      | error v => exact .tooFar hdecode hc hdiagnostics (Smf.encode_eq_error_iff.1 hencode)
      | ok bytes =>
        have hwritable := Smf.exists_encode_eq_ok_iff.1 ⟨bytes, hencode⟩
        exact .finished hdecode hc hdiagnostics hwritable hencode
    · rw [c.result_of_diagnostics_ne hdiagnostics]
      exact .faulty hdecode hc hdiagnostics

/-! ## All or nothing -/

namespace Published

/-- The output is the file of the composition, or what it was before if there is none. -/
def Atomic (p : Published) (before : Option (List UInt8)) : Prop :=
  match p.outcome with
  | .ok c => ∃ bytes, Smf.encode c = .ok bytes ∧ p.output before = some bytes
  | .error _ => p.output before = before

end Published

/-- The input is a text that nothing is wrong with, but an event of a track is too far from the one
before it for a file. -/
def Overreaches (fuel : Nat) (o : Options) (input : List UInt8) : Prop :=
  ∃ text c, Utf8.decode? input = some text ∧ compile fuel o text = some c ∧ c.diagnostics = [] ∧
    ∃ t ∈ c.composition.tracks, ∃ e ∈ t.events, Smf.Quantity.largest < e.delta

namespace Ending

/-- An event is too far if and only if one is reported. -/
theorem overreaches_iff (h : Ending fuel o input p) :
    Overreaches fuel o input ↔ ∃ v, p.outcome = .error (.overflow v) := by
  -- the text and what it is compiled to are the same for both sides
  have hwhich {text : String} {c : Compiled} (hdecode : Utf8.decode? input = some text)
      (hc : compile fuel o text = some c) : Overreaches fuel o input ↔
        c.diagnostics = [] ∧ ¬∀ t ∈ c.composition.tracks, Smf.Writable t := by
    simp [Overreaches, Smf.Writable, hdecode, hc]
  cases h with
  | notText hdecode => simp [Overreaches, hdecode]
  | faulty hdecode hc hdiagnostics => simp [hwhich hdecode hc, hdiagnostics]
  | @tooFar _ _ v hdecode hc hdiagnostics hv =>
    refine iff_of_true ((hwhich hdecode hc).2 ⟨hdiagnostics, fun hwritable => ?_⟩) ⟨v, rfl⟩
    obtain ⟨bytes, hbytes⟩ := Smf.exists_encode_eq_ok_iff.2 hwritable
    rw [Smf.encode_eq_error_iff.2 hv] at hbytes
    cases hbytes
  | finished hdecode hc _ hwritable => simpa [hwhich hdecode hc] using fun _ => hwritable

theorem atomic_iff (h : Ending fuel o input p) (before : Option (List UInt8)) :
    p.Atomic before ↔ before = some [] ∨ ∀ v, p.outcome ≠ .error (.overflow v) := by
  cases h with
  | notText | faulty => simp [Published.Atomic, Published.output]
  | tooFar => simp [Published.Atomic, Published.output, eq_comm]
  | @finished _ _ bytes _ _ _ _ hencode =>
    exact iff_of_true ⟨bytes, hencode, rfl⟩ (.inr (by simp))

end Ending

/-- **The output is all or nothing, unless an event is too far from the one before it for a file.**
Then the output is empty, whatever was in it. -/
theorem publish_atomic_iff (h : publish fuel o input = some p) (before : Option (List UInt8)) :
    Ending fuel o input p ∧ (p.Atomic before ↔ before = some [] ∨ ¬Overreaches fuel o input) ∧
      (Overreaches fuel o input → p.output before = some []) := by
  have hending := ending_of_publish h
  refine ⟨hending, ?_, fun hover => ?_⟩
  · rw [hending.atomic_iff, hending.overreaches_iff, not_exists]
  · obtain ⟨v, hv⟩ := hending.overreaches_iff.1 hover
    cases hending with
    | tooFar => rfl
    | notText | faulty | finished => simp at hv

/-- A source with a fault leaves what is in the output alone. -/
theorem publish_atomic_fault : ∃ p, publish 100 {} (Utf8.encode "1 9") = some p ∧
    p.outcome = .error (.source [⟨.unknownNote 9, ⟨⟨1, 3⟩, ⟨1, 4⟩⟩⟩]) ∧
    Ending 100 {} (Utf8.encode "1 9") p ∧ p.Atomic (some [0x4D]) ∧
    p.output (some [0x4D]) = some [0x4D] := by
  have hpublish : (publish 100 {} (Utf8.encode "1 9")).any (fun p =>
      p.outcome = .error (.source [⟨.unknownNote 9, ⟨⟨1, 3⟩, ⟨1, 4⟩⟩⟩])) = true := by
    decide +kernel
  obtain ⟨p, hp, houtcome⟩ := (Option.any_eq_true _ _).1 hpublish
  have houtcome := of_decide_eq_true houtcome
  obtain ⟨hending, hatomic, -⟩ := publish_atomic_iff hp (some [0x4D])
  have hover : ¬Overreaches 100 {} (Utf8.encode "1 9") := by
    rw [hending.overreaches_iff, houtcome]
    simp
  have hatomic := hatomic.2 (.inr hover)
  exact ⟨p, hp, houtcome, hending, hatomic, by simpa [Published.Atomic, houtcome] using hatomic⟩

/-- A note after a rest that is a tick too long for a file. -/
def belated : String :=
  "\\div\x7b8192\x7d\x7b\x7b\x7b\x7b\x7b0-------\x7d-------\x7d-------\x7d-------\x7d-------\x7d1"

/-- The compilation fails, and a file that was there before is empty. -/
theorem exists_output_emptied : ∃ p, publish 100 {} (Utf8.encode belated) = some p ∧
    p.outcome = .error (.overflow ⟨"Track 1", 0x10000000⟩) ∧
    p.output (some [0x4D]) = some [] ∧ p.output none = some [] ∧
    ¬p.Atomic (some [0x4D]) ∧ ¬p.Atomic none := by
  have hpublish : (publish 100 {} (Utf8.encode belated)).any (fun p =>
      p.outcome = .error (.overflow ⟨"Track 1", 0x10000000⟩) ∧ p.written = some []) = true := by
    decide +kernel
  obtain ⟨p, hp, hfacts⟩ := (Option.any_eq_true _ _).1 hpublish
  obtain ⟨houtcome, hwritten⟩ := of_decide_eq_true hfacts
  refine ⟨p, hp, houtcome, ?_, ?_, ?_, ?_⟩ <;>
    simp [Published.Atomic, Published.output, houtcome, hwritten]

end Jianpu
