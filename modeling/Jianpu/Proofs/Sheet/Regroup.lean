import Jianpu.Compile
import Jianpu.Proofs.Sheet.Entries
import Jianpu.Proofs.Sheet.Manuscript
import Jianpu.Proofs.Sheet.Script

/-!
# Switching tracks and voices

Bodies for voices of tracks can be written in any order, each under its own headings
(`Entry.inOrder`), or with the headings of each voice once and all its bodies under them
(`Entry.byVoice`). Both texts make the same composition: `Entry.compile_byVoice`.

Each text writes a manuscript. The sheet states of the two manuscripts hold the same music, and what
is played only depends on that.
-/

namespace Jianpu

open Token (Cuts InTurn)

/-! ## Things one after another -/

namespace Token

variable {α β : Type} {W : α → List Token → Prop} {xs : List α}

theorem InTurn.append {us vs : List Token} {ys : List α} (h : InTurn W xs us)
    (h' : InTurn W ys vs) : InTurn W (xs ++ ys) (us ++ vs) := by
  induction xs generalizing us with
  | nil =>
    obtain rfl : us = [] := h
    exact h'
  | cons x xs ih =>
    obtain ⟨ts, us, rfl, hts, hus⟩ := h
    exact ⟨ts, us ++ vs, List.append_assoc .., hts, ih hus⟩

theorem InTurn.flatMap {f : β → List α} {ys : List β} {ts : List Token}
    (h : InTurn (fun y => InTurn W (f y)) ys ts) : InTurn W (ys.flatMap f) ts := by
  induction ys generalizing ts with
  | nil => exact h
  | cons y ys ih =>
    obtain ⟨us, vs, rfl, hus, hvs⟩ := h
    exact hus.append (ih hvs)

theorem InTurn.map {f : β → α} {ys : List β} {ts : List Token}
    (h : InTurn (fun y => W (f y)) ys ts) : InTurn W (ys.map f) ts := by
  induction ys generalizing ts with
  | nil => exact h
  | cons y ys ih =>
    obtain ⟨us, vs, rfl, hus, hvs⟩ := h
    exact ⟨us, vs, rfl, hus, ih hvs⟩

theorem Cuts.join {a : Alphabet} {f : α → String} (h : ∀ x ∈ xs, Cuts a (f x).toList (W x)) :
    Cuts a (String.join (xs.map f)).toList (InTurn W xs) := by
  induction xs with
  | nil => exact .blanks (by simp) (by simp)
  | cons x xs ih =>
    obtain ⟨hx, hxs⟩ := List.forall_mem_cons.1 h
    rw [List.map_cons, String.join_cons, String.toList_append]
    exact hx.append (ih hxs)

end Token

/-! ## Texts -/

namespace Entry

/-- The headings of a voice, and bodies under them, each with a line end. -/
def block (gap : String) (e : Entry (List String)) : String :=
  (Heading.track e.track).text ++ (Heading.voice e.voice).text ++ gap ++
    String.join (e.body.map (· ++ "\n"))

/-- Every body under its own headings. -/
def inOrder (es : List (Entry String)) : String :=
  String.join ((es.map (map ([·]))).map (block " "))

/-- The headings of each voice once, and all its bodies under them. -/
def byVoice (gap : String) (es : List (Entry String)) : String :=
  String.join ((gather es).map (block gap))

/-- Track and voice have names of letters and digits. -/
def Named {α : Type} (e : Entry α) : Prop :=
  (∀ c ∈ e.track.toList, c.isAlphanum = true) ∧ ∀ c ∈ e.voice.toList, c.isAlphanum = true

/-- No track has the name that a track without a heading gets. -/
theorem unnamed_notMem {es : List (Entry String)} (hnamed : ∀ e ∈ es, e.Named) :
    SheetState.unnamed ∉ tracks es := by
  intro hmem
  obtain ⟨e, he, htrack⟩ := List.mem_map.1 (List.mem_eraseDups.1 hmem)
  have hname := (hnamed e he).1
  rw [htrack] at hname
  exact absurd (hname ' ' (by decide)) (by decide)

/-- The trees of bodies, one after another. -/
def tree (read : String → Passage) (e : Entry (List String)) : Entry Passage :=
  e.map fun texts => .join (texts.map read)

section Blocks

variable {read : String → Passage} {gap : String}

theorem cuts_block {e : Entry (List String)} (hgap : ∀ c ∈ gap.toList, c ∈ [' ', '\t', '\n'])
    (hnamed : e.Named)
    (hbodies : ∀ text ∈ e.body, Cuts .music (text.toList ++ ['\n']) (read text).Written) :
    Cuts .music (block gap e).toList (InTurn Section.Written (e.tree read).sections) := by
  have hblank : ∀ c ∈ [' ', '\t', '\n'], Token.isBlank c = true ∧ c ≠ '\r' := by
    simp [Token.isBlank]
  have hcuts : Cuts .music gap.toList (· = []) :=
    .blanks (fun c hc => (hblank c (hgap c hc)).1) fun c hc => (hblank c (hgap c hc)).2
  have hjoin : Cuts .music (String.join (e.body.map (· ++ "\n"))).toList
      (InTurn (fun text => (read text).Written) e.body) := by
    refine .join fun text htext => ?_
    rw [String.toList_append]
    exact hbodies text htext
  have htrack := (Heading.track e.track).cuts hnamed.1
  have hvoice := (Heading.voice e.voice).cuts hnamed.2
  rw [block, String.toList_append, String.toList_append, String.toList_append]
  refine (((htrack.append hvoice).append hcuts).append hjoin).mono ?_
  rintro _ ⟨_, ws, rfl, ⟨_, _, rfl, ⟨us, vs, rfl, hus, hvs⟩, rfl⟩, hws⟩
  refine ⟨us, vs ++ ws, by simp, ⟨us, [], by simp, hus, rfl⟩, vs ++ ws, [], by simp, ?_, rfl⟩
  exact ⟨vs, ws, rfl, hvs, .join hws.map⟩

/-- A text of blocks writes the manuscript of its trees. -/
theorem written_blocks (es : List (Entry (List String)))
    (hgap : ∀ c ∈ gap.toList, c ∈ [' ', '\t', '\n']) (hnamed : ∀ e ∈ es, e.Named)
    (hbodies : ∀ e ∈ es, ∀ text ∈ e.body,
      Cuts .music (text.toList ++ ['\n']) (read text).Written) :
    Manuscript.Written { sections := (es.map (tree read)).flatMap sections }
      ((Token.scan .music (String.join (es.map (block gap)))).takeWhile fun t => !t.isEof) := by
  refine Cuts.scan ((Cuts.join fun e he => cuts_block hgap (hnamed e he) (hbodies e he)).mono ?_)
  intro ts hts
  exact ⟨[], ts, rfl, rfl, InTurn.flatMap (InTurn.map (f := tree read) hts)⟩

theorem map_tree_singleton (es : List (Entry String)) :
    (es.map (map ([·]))).map (tree read) = es.map (map read) := by
  rw [List.map_map]
  refine List.map_congr_left fun e _ => ?_
  exact congrArg (Entry.mk e.track e.voice) (Passage.append_nil (read e.body))

theorem map_tree_gather (es : List (Entry String)) :
    (gather es).map (tree read) = (gather (es.map (map read))).map (map Passage.join) := by
  rw [gather_map, List.map_map]
  rfl

/-- Clean bodies have trees. -/
theorem exists_read {es : List (Entry String)} {limit : Nat}
    (h : ∀ e ∈ es, Sheet.Clean limit e.body) :
    ∃ read : String → Passage, ∀ e ∈ es, (read e.body).Plain ∧
      Cuts .music (e.body.toList ++ ['\n']) (read e.body).Written := by
  have hpassage : ∀ text, ∃ p : Passage, Sheet.Clean limit text →
      p.Plain ∧ Cuts .music (text.toList ++ ['\n']) p.Written := by
    intro text
    by_cases htext : Sheet.Clean limit text
    · obtain ⟨p, hp⟩ := htext.exists_passage
      exact ⟨p, fun _ => hp⟩
    · exact ⟨.nil, fun hclean => absurd hclean htext⟩
  choose read hread using hpassage
  exact ⟨read, fun e he => hread e.body (h e he)⟩

theorem plain_sections {es : List (Entry Passage)} (h : ∀ e ∈ es, e.body.Plain) :
    Manuscript.Plain { sections := es.flatMap sections } := by
  refine ⟨rfl, fun s hs => ?_⟩
  obtain ⟨e, he, hs⟩ := List.mem_flatMap.1 hs
  rcases List.mem_pair.1 hs with rfl | rfl
  · trivial
  · exact h e he

end Blocks

end Entry

theorem compile_of_parse {fuel : Nat} {o : Options} {text : String} {r : Sheet.Result}
    (h : Sheet.parse fuel (.ofText o.alphabet text) o.limit = some r) :
    compile fuel o text =
      some ⟨r.sheet.arrange.1, r.diagnostics, r.journal ++ r.sheet.arrange.2⟩ := by
  rw [compile, h]
  rfl

namespace Entry

/-- **Switching tracks and voices is only bookkeeping.** Bodies that are clean alone can be written
in any order, each under the headings of its voice, or with the headings of each voice once: the
same composition is made, and nothing is reported. -/
theorem compile_byVoice (es : List (Entry String)) (gap : String) (limit fuel : Nat)
    (hgap : ∀ c ∈ gap.toList, c ∈ [' ', '\t', '\n']) (hnamed : ∀ e ∈ es, e.Named)
    (hclean : ∀ e ∈ es, Sheet.Clean limit e.body)
    (hf : (Token.scan .music (inOrder es)).length + 3 ≤ fuel)
    (hf' : (Token.scan .music (byVoice gap es)).length + 3 ≤ fuel) :
    ∃ c c', compile fuel { limit } (inOrder es) = some c ∧
      compile fuel { limit } (byVoice gap es) = some c' ∧ c.composition = c'.composition ∧
      c.diagnostics = [] ∧ c'.diagnostics = [] := by
  obtain ⟨read, hread⟩ := exists_read hclean
  have hplain : ∀ e ∈ es.map (map read), e.body.Plain :=
    List.forall_mem_map.2 fun e he => (hread e he).1
  have hblank : ∀ c ∈ " ".toList, c ∈ [' ', '\t', '\n'] := by simp
  have hwritten := written_blocks (es.map (map ([·]))) hblank
    (List.forall_mem_map.2 hnamed) (List.forall_mem_map.2 fun e he => by
      simpa [map] using (hread e he).2)
  have hwritten' := written_blocks (gather es) hgap
    (fun g hg => by
      obtain ⟨e, he, htrack, hvoice⟩ := (of_mem_gather hg).1
      rw [Named, ← htrack, ← hvoice]
      exact hnamed e he)
    (fun g hg text htext => by
      obtain ⟨e, he, rfl⟩ := (of_mem_gather hg).2 text htext
      exact (hread e he).2)
  rw [map_tree_singleton] at hwritten
  rw [map_tree_gather] at hwritten'
  obtain ⟨d, h, hall, hd, hclear⟩ := Sheet.exists_draft limit hwritten hf
  obtain ⟨d', h', hall', hd', hclear'⟩ := Sheet.exists_draft limit hwritten' hf'
  obtain ⟨rfl, hreported⟩ := hclear (plain_sections hplain)
  obtain ⟨rfl, hreported'⟩ := hclear' (plain_sections (plain_gather hplain))
  have hunnamed : SheetState.unnamed ∉ (Manuscript.state
      { sections := (es.map (map read)).flatMap sections }).tracks := by
    rw [Manuscript.state, Manuscript.defaults, List.foldl_nil,
      (SheetState.holds_foldl hplain).tracks, tracks_map]
    exact unnamed_notMem hnamed
  have harrange := hd.arrange_eq hd' (SheetState.alike_gather hplain) hunnamed
  refine ⟨_, _, compile_of_parse (Sheet.parse_of_all hall),
    compile_of_parse (Sheet.parse_of_all hall'), congrArg Prod.fst harrange, ?_, ?_⟩
  · exact List.reverse_eq_nil_iff.2 hreported
  · exact List.reverse_eq_nil_iff.2 hreported'

/-- Two tracks with two voices each, in turn. One body is empty, and one ends with a comment and a
carriage return. -/
def interleaved : List (Entry String) := [
  ⟨"A", "x", "1\x7b2|3_\x7d"⟩, ⟨"B", "1", "5--"⟩, ⟨"A", "y", "\x7b1,\x7b3\x7d\x7d' % low\r"⟩,
  ⟨"A", "x", "6_ 7"⟩, ⟨"B", "1", ""⟩, ⟨"B", "2", "0\x7b\x7d 4#."⟩, ⟨"A", "y", "5"⟩]

theorem compile_byVoice_interleaved : (∀ e ∈ interleaved, Sheet.Clean 100 e.body) ∧
    ∃ c c', compile 88 { limit := 100 } (inOrder interleaved) = some c ∧
      compile 88 { limit := 100 } (byVoice "\n" interleaved) = some c' ∧
      c.composition = c'.composition ∧ c.diagnostics = [] ∧ c'.diagnostics = [] ∧
      c.composition.tracks.map (fun t => (t.name, t.events.length)) = [("A", 16), ("B", 4)] := by
  have hclean : ∀ e ∈ interleaved, Sheet.Clean 100 e.body := by
    have hplain : ∀ e ∈ interleaved, ∀ t ∈ Token.scan .music e.body, t.kind ≠ .control := by
      decide +kernel
    have hparse : ∀ e ∈ interleaved, (Sheet.parse (2 * (Token.scan .music e.body).length + 1)
        (.ofText .music e.body) 100).any (·.diagnostics = []) = true := by
      decide +kernel
    exact fun e he => Sheet.clean_of_parse (hplain e he) (hparse e he)
  obtain ⟨c, c', hc, hc', hsame, hnil, hnil'⟩ := compile_byVoice interleaved "\n" 100 88
    (by simp) (by simp [interleaved, Named]) hclean (by decide +kernel) (by decide +kernel)
  have htracks : (compile 88 { limit := 100 } (inOrder interleaved)).map (fun c =>
      c.composition.tracks.map fun t => (t.name, t.events.length)) =
        some [("A", 16), ("B", 4)] := by
    decide +kernel
  rw [hc] at htracks
  exact ⟨hclean, c, c', hc, hc', hsame, hnil, hnil', Option.some.inj htracks⟩

end Entry

end Jianpu
