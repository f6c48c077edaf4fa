import Jianpu.Proofs.Macro.Moves

/-!
# Groups that are closed where they are opened

If every group that some tokens open is closed by these tokens (`matched`), then so it is with the
tokens that are left after some of them are taken, and with the replacement of a call whose body and
arguments are such tokens (`matched_replacement`). An expander that starts from such a source keeps
to such tokens (`Tidy.moves`). No group is then cut short by the end of the source, and no argument
of a call is left unfinished: `Tidy.not_cutsShort`.
-/

namespace Jianpu.Macro.Expander

variable {δ : Type} {e e' m : Expander δ} {t : Token} {ts us vs body : List Token} {level n : Nat}
  {args : Arguments}

/-! ## Closing a group -/

/-- Whether the tokens have the brace that closes a group in which `level` further braces are open.
No group goes on beyond an end mark. -/
def closesWithin : Nat → List Token → Bool
  | _, [] => false
  | level, t :: ts =>
    !t.isEof && match levelAfter t.kind level with
      | none => true
      | some level => closesWithin level ts

/-- Whether the tokens close every group that they open. -/
def matched : List Token → Bool
  | [] => true
  | t :: ts => (t.kind ≠ .opening || closesWithin 0 ts) && matched ts

theorem closesWithin_cons_iff : closesWithin level (t :: ts) = true ↔
    t.isEof = false ∧ ∀ n, levelAfter t.kind level = some n → closesWithin n ts = true := by
  rw [closesWithin]
  cases levelAfter t.kind level <;> simp

theorem matched_cons_iff : matched (t :: ts) = true ↔
    (t.kind = .opening → closesWithin 0 ts = true) ∧ matched ts = true := by
  simp [matched, imp_iff_not_or]

theorem closesWithin_append (h : closesWithin level ts = true) (us : List Token) :
    closesWithin level (ts ++ us) = true := by
  induction ts generalizing level with
  | nil => cases h
  | cons t ts ih =>
    obtain ⟨heof, hrest⟩ := closesWithin_cons_iff.1 h
    exact closesWithin_cons_iff.2 ⟨heof, fun n hn => ih (hrest n hn)⟩

/-- Fewer open braces are closed as well. -/
theorem closesWithin_of_le (h : closesWithin level ts = true) (hn : n ≤ level) :
    closesWithin n ts = true := by
  obtain ⟨k, rfl⟩ := Nat.exists_eq_add_of_le hn
  induction ts generalizing n with
  | nil => cases h
  | cons t ts ih =>
    obtain ⟨heof, hrest⟩ := closesWithin_cons_iff.1 h
    refine closesWithin_cons_iff.2 ⟨heof, fun l hl => ih ?_ (Nat.le_add_right l k)⟩
    exact hrest _ (levelAfter_add k hl)

/-- After a group the braces that were open before it are to be closed. -/
theorem Closes.closesWithin_add_append (h : Closes level ts) (n : Nat) (us : List Token) :
    closesWithin (level + (n + 1)) (ts ++ us) = closesWithin n us := by
  induction h with
  | @last t level hl =>
    obtain ⟨hk, rfl⟩ := levelAfter_eq_none_iff.1 hl
    have heof : t.isEof = false := by simp [Token.isEof, hk]
    rw [List.singleton_append, closesWithin, heof, hk, Nat.zero_add]
    rfl
  | @more t level level' ts heof hl _ ih =>
    rw [List.cons_append, closesWithin, heof, levelAfter_add _ hl]
    exact ih

theorem Closes.closesWithin (h : Closes level ts) : closesWithin level ts = true := by
  induction h with
  | @last t level hl =>
    have heof : t.isEof = false := by simp [Token.isEof, (levelAfter_eq_none_iff.1 hl).1]
    refine closesWithin_cons_iff.2 ⟨heof, fun n hn => ?_⟩
    rw [hl] at hn
    cases hn
  | @more t level level' ts heof hl _ ih =>
    refine closesWithin_cons_iff.2 ⟨heof, fun n hn => ?_⟩
    rw [hl] at hn
    obtain rfl := Option.some.inj hn
    exact ih

/-- Pieces in between close groups at most earlier. -/
theorem Pieces.closesWithin_append (h : Pieces ts) (hus : Expander.closesWithin level us = true) :
    Expander.closesWithin level (ts ++ us) = true := by
  induction h generalizing level with
  | nil => exact hus
  | @token t ts heof ht _ ih =>
    refine closesWithin_cons_iff.2 ⟨heof, fun n hn => ih (closesWithin_of_le hus ?_)⟩
    cases hk : t.kind with
    | opening => exact absurd hk ht
    | closing =>
      rw [hk] at hn
      cases level with
      | zero => cases hn
      | succ level =>
        obtain rfl := Option.some.inj hn
        exact Nat.le_succ _
    | eof | control | param k | other =>
      rw [hk] at hn
      exact Nat.le_of_eq (Option.some.inj hn).symm
  | @group t vs ts ht hvs _ ih =>
    have hl : levelAfter t.kind level = some (level + 1) := by rw [ht]; rfl
    rw [List.cons_append, List.append_assoc]
    refine closesWithin_cons_iff.2 ⟨by simp [Token.isEof, ht], fun n hn => ?_⟩
    rw [hl] at hn
    obtain rfl := Option.some.inj hn
    rw [← Nat.zero_add (level + 1), hvs.closesWithin_add_append]
    exact ih hus

/-! ## Closing every group -/

theorem Closes.matched_append (h : Closes level ts) (hus : matched us = true) :
    matched (ts ++ us) = true := by
  induction h with
  | @last t level hl =>
    refine matched_cons_iff.2 ⟨fun ht => ?_, hus⟩
    rw [(levelAfter_eq_none_iff.1 hl).1] at ht
    cases ht
  | @more t level level' ts _ _ hrest ih =>
    refine matched_cons_iff.2 ⟨fun _ => ?_, ih⟩
    exact closesWithin_append (closesWithin_of_le hrest.closesWithin (Nat.zero_le _)) us

/-- Without its last brace a group closes what it opens. -/
theorem Closes.matched_dropLast (h : Closes level ts) : matched ts.dropLast = true ∧
    ∀ n < level, Expander.closesWithin n ts.dropLast = true := by
  induction h with
  | last hl =>
    rw [(levelAfter_eq_none_iff.1 hl).2]
    exact ⟨rfl, fun n hn => absurd hn (Nat.not_lt_zero n)⟩
  | @more t level level' ts heof hl hrest ih =>
    obtain ⟨hmatched, hlevels⟩ := ih
    have hne : ts ≠ [] := by
      rintro rfl
      cases hrest
    rw [List.dropLast_cons_of_ne_nil hne]
    refine ⟨matched_cons_iff.2 ⟨fun ht => ?_, hmatched⟩, fun n hn => ?_⟩
    · rw [ht] at hl
      obtain rfl := Option.some.inj hl
      exact hlevels 0 (Nat.succ_pos _)
    · refine closesWithin_cons_iff.2 ⟨heof, fun l hn' => hlevels l ?_⟩
      obtain ⟨k, rfl⟩ := Nat.exists_eq_add_of_lt hn
      have hl' := levelAfter_add (k + 1) hn'
      rw [← Nat.add_assoc, hl] at hl'
      rw [Option.some.inj hl']
      exact Nat.lt_add_of_pos_right (Nat.succ_pos k)

theorem Pieces.matched_append (h : Pieces ts) (hus : matched us = true) :
    matched (ts ++ us) = true := by
  induction h with
  | nil => exact hus
  | token _ ht _ ih => exact matched_cons_iff.2 ⟨fun hk => absurd hk ht, ih⟩
  | @group t vs ts ht hvs _ ih =>
    rw [List.cons_append, List.append_assoc]
    exact matched_cons_iff.2 ⟨fun _ => Expander.closesWithin_append hvs.closesWithin _,
      hvs.matched_append ih⟩

/-! ## Replacements -/

theorem closesWithin_congr (h : ts.map (·.kind) = us.map (·.kind)) :
    closesWithin level ts = closesWithin level us := by
  induction ts generalizing us level with
  | nil =>
    obtain rfl := List.map_eq_nil_iff.1 h.symm
    rfl
  | cons t ts ih =>
    cases us with
    | nil => cases h
    | cons u us =>
      obtain ⟨hk : t.kind = u.kind, hrest⟩ := List.cons.inj h
      have heof : t.isEof = u.isEof := by rw [Token.isEof, Token.isEof, hk]
      rw [closesWithin, closesWithin, heof, hk]
      cases levelAfter u.kind level with
      | none => rfl
      | some n => exact congrArg _ (ih hrest)

theorem matched_congr (h : ts.map (·.kind) = us.map (·.kind)) : matched ts = matched us := by
  induction ts generalizing us with
  | nil =>
    obtain rfl := List.map_eq_nil_iff.1 h.symm
    rfl
  | cons t ts ih =>
    cases us with
    | nil => cases h
    | cons u us =>
      obtain ⟨hk : t.kind = u.kind, hrest⟩ := List.cons.inj h
      rw [matched, matched, ih hrest, closesWithin_congr hrest, hk]

theorem Pieces.withSpace (h : Pieces ts) (spaced : Bool) : Pieces (withSpace spaced ts) := by
  cases h with
  | nil => exact .nil
  | token heof ht hts => exact .token heof ht hts
  | group ht hvs hts => exact .group ht hvs hts

theorem substitute_cons (args : Arguments) (t : Token) (body : List Token) :
    substitute args (t :: body) =
      (match slot? t with
        | some i => withSpace t.spaced (args i)
        | none => [t]) ++ substitute args body := rfl

theorem levelAfter_of_slot? {i : Nat} (h : slot? t = some i) (level : Nat) :
    t.kind ≠ .opening ∧ levelAfter t.kind level = some level := by
  unfold slot? at h
  split at h
  · rename_i hk
    rw [hk]
    exact ⟨by simp, rfl⟩
  · cases h

theorem closesWithin_substitute (hargs : ∀ i, Pieces (args i))
    (h : closesWithin level body = true) : closesWithin level (substitute args body) = true := by
  induction body generalizing level with
  | nil => cases h
  | cons t body ih =>
    obtain ⟨heof, hrest⟩ := closesWithin_cons_iff.1 h
    rw [substitute_cons]
    split
    · rename_i i hi
      have hlevel := (levelAfter_of_slot? hi level).2
      exact ((hargs i).withSpace t.spaced).closesWithin_append (ih (hrest level hlevel))
    · exact closesWithin_cons_iff.2 ⟨heof, fun n hn => ih (hrest n hn)⟩

theorem matched_substitute (hargs : ∀ i, Pieces (args i)) (h : matched body = true) :
    matched (substitute args body) = true := by
  induction body with
  | nil => rfl
  | cons t body ih =>
    obtain ⟨hopening, hrest⟩ := matched_cons_iff.1 h
    rw [substitute_cons]
    split
    · rename_i i hi
      exact ((hargs i).withSpace t.spaced).matched_append (ih hrest)
    · exact matched_cons_iff.2 ⟨fun ht => closesWithin_substitute hargs (hopening ht), ih hrest⟩

/-- Where arguments are made of pieces, a replacement closes the groups that it opens. -/
theorem matched_replacement (call : Token) (hargs : ∀ i, Pieces (args i))
    (h : matched body = true) : matched (replacement call args body) = true := by
  rw [← matched_substitute hargs h]
  refine matched_congr ?_
  unfold replacement
  split <;> rename_i heq <;> rw [heq]
  rfl

/-! ## Bodies of definitions -/

theorem closesWithin_filter_legal (count : Nat) (ts : List Token) (level : Nat) :
    closesWithin level (ts.filter (legal count)) = closesWithin level ts := by
  induction ts generalizing level with
  | nil => rfl
  | cons t ts ih =>
    cases hlegal : legal count t with
    | true =>
      rw [List.filter_cons_of_pos hlegal, closesWithin, closesWithin]
      cases levelAfter t.kind level with
      | none => rfl
      | some n => exact congrArg _ (ih n)
    | false =>
      obtain ⟨k, hk⟩ : ∃ k, t.kind = .param k := by
        unfold legal at hlegal
        split at hlegal
        · exact ⟨_, ‹_›⟩
        · exact ⟨_, ‹_›⟩
        · cases hlegal
      rw [List.filter_cons_of_neg (by simp [hlegal]), ih, closesWithin, Token.isEof, hk]
      rfl

theorem matched_filter_legal (count : Nat) (h : matched ts = true) :
    matched (ts.filter (legal count)) = true := by
  induction ts with
  | nil => rfl
  | cons t ts ih =>
    obtain ⟨hopening, hrest⟩ := matched_cons_iff.1 h
    cases hlegal : legal count t with
    | true =>
      rw [List.filter_cons_of_pos hlegal]
      refine matched_cons_iff.2 ⟨fun ht => ?_, ih hrest⟩
      rw [closesWithin_filter_legal]
      exact hopening ht
    | false =>
      rw [List.filter_cons_of_neg (by simp [hlegal])]
      exact ih hrest

/-- A body closes the groups that it opens. -/
theorem Closes.matched_body (h : Closes 0 ts) (t : Token) (count : Nat) :
    matched ((unwrap (t :: ts)).filter (legal count)) = true := by
  refine matched_filter_legal count ?_
  unfold unwrap
  dsimp only
  split
  · exact h.matched_dropLast.1
  · rw [← List.append_nil ts]
    exact h.matched_append rfl

/-! ## Expanders -/

/-- All sources and all bodies close the groups that they open. -/
structure Tidy (e : Expander δ) : Prop where
  sources : ∀ s ∈ e.stack.sources, matched s.tokens = true
  bodies : e.scopes.Each fun d => matched d.body = true

theorem matched_of_rest {ss ss' : List Source} (h : Stack.Rest ss ss')
    (hss : ∀ s ∈ ss, matched s.tokens = true) : ∀ s ∈ ss', matched s.tokens = true := by
  induction h with
  | refl ss => exact hss
  | token _ ih =>
    obtain ⟨hfirst, hbelow⟩ := List.forall_mem_cons.1 hss
    exact ih (List.forall_mem_cons.2 ⟨(matched_cons_iff.1 hfirst).2, hbelow⟩)
  | drop _ ih => exact ih (List.forall_mem_cons.1 hss).2

theorem Tidy.reads (h : e.Tidy) (hreads : e.Reads e') : e'.Tidy :=
  ⟨matched_of_rest hreads.rest h.sources, hreads.each _ h.bodies⟩

theorem Tidy.of_plainly (h : e.Tidy) (hplain : Plainly e ts e') : e'.Tidy := by
  induction hplain with
  | nil e => exact h
  | cons _ _ ih => exact ih (h.reads (reads_nextRaw _))

theorem pull_of_sources {endless : Option Position} {below : List Source}
    (h : e.stack.sources = ⟨t :: ts, endless⟩ :: below) :
    e.pull.1 = t ∧ e.pull.2.stack.sources = ⟨ts, endless⟩ :: below := by
  obtain ⟨scopes, ⟨sources, size, hsize⟩, peeked, reported, remarked, limit, position⟩ := e
  obtain rfl : sources = ⟨t :: ts, endless⟩ :: below := h
  exact ⟨rfl, rfl⟩

theorem nextRaw_of_sources {endless : Option Position} {below : List Source}
    (hpeeked : e.peeked = none) (h : e.stack.sources = ⟨t :: ts, endless⟩ :: below) :
    e.nextRaw.1 = t ∧ e.nextRaw.2.stack.sources = ⟨ts, endless⟩ :: below := by
  rw [nextRaw_of_peeked_eq_none hpeeked, stack_track]
  exact pull_of_sources h

/-- A group that the source on top closes is read up to its end. -/
theorem plainly_groupRestRaw {endless : Option Position} {below : List Source}
    (hsources : e.stack.sources = ⟨ts, endless⟩ :: below) (hpeeked : e.peeked = none)
    (h : closesWithin level ts = true) :
    Plainly e (groupRestRaw level e).1 (groupRestRaw level e).2 := by
  induction ts generalizing e level with
  | nil => cases h
  | cons t ts ih =>
    obtain ⟨heof, hrest⟩ := closesWithin_cons_iff.1 h
    obtain ⟨hnext, hstack⟩ := nextRaw_of_sources hpeeked hsources
    rw [← hnext] at heof hrest
    have hend : ¬e.nextRaw.1.isEof = true := by rw [heof]; simp
    rw [groupRestRaw]
    dsimp only
    rw [dif_neg hend]
    cases hl : levelAfter e.nextRaw.1.kind level with
    | none => exact .one heof
    | some n => exact .cons heof (ih hstack (peeked_nextRaw e) (hrest n hl))

theorem Tidy.not_cut (h : e.Tidy) : ¬e.Cut := by
  intro hcut
  have heof : e.nextRaw.1.isEof = false := by simp [Token.isEof, hcut.opening]
  obtain ⟨above, us, endless, below, hsources, hnext⟩ :=
    (takes_nextRaw hcut.peeked heof).exists_sources
  have hmem : (⟨e.nextRaw.1 :: us, endless⟩ : Source) ∈ e.stack.sources := by
    rw [hsources]
    exact List.mem_append_right above List.mem_cons_self
  have hcloses := (matched_cons_iff.1 (h.sources _ hmem)).1 hcut.opening
  have hplain := plainly_groupRestRaw hnext (peeked_nextRaw e) hcloses
  have hlt := hcut.missing_lt
  rw [hplain.missing_eq, missing_nextRaw heof] at hlt
  exact Nat.lt_irrefl _ hlt

theorem Tidy.not_meetsCut (h : e.Tidy) : ¬e.MeetsCut e' := by
  rintro ⟨ts, m, hplain, hcut, -⟩
  exact (h.of_plainly hplain).not_cut hcut

theorem Tidy.define (h : e.Tidy) (everywhere : Bool) : (e.define everywhere).Tidy := by
  rcases define_cases everywhere e with
    ⟨hreads, -⟩ | ⟨m, g, name, d, count, hm, hpeeked, ht, hg, -, hbody, heq⟩
  · exact h.reads hreads
  · have hm := h.reads hm
    have hg := ((hm.reads (reads_nextRaw m)).reads (reads_groupRestRaw 0 _)).reads hg
    have hcloses := (closes_of_not_cut hpeeked ht hm.not_cut).2
    rw [heq]
    refine ⟨hg.sources, hg.bodies.define ?_ name everywhere⟩
    rw [hbody]
    exact hcloses.matched_body _ _

theorem Tidy.expand (h : e.Tidy) (hpeeked : e.peeked = none) {name : String} {d : Definition}
    (hd : e.scopes.get? name = some (.user d)) (call : Token) : (e.expand call d).Tidy := by
  have hmatch := h.reads (reads_matchPattern d.name d.pattern .empty e)
  rcases expand_cases e call d with ⟨m, hm, heq⟩ | ⟨args, m, hm, ⟨-, remarked, heq⟩ | ⟨-, heq⟩⟩ <;>
    rw [hm] at hmatch <;> rw [heq]
  · exact hmatch
  · exact ⟨fun s hs => hmatch.sources s (List.mem_of_mem_drop hs), hmatch.bodies⟩
  · obtain ⟨us, -, -, hargs⟩ := (matchPattern_cases hm inPieces_empty (.inl hpeeked)).resolve_right
      h.not_meetsCut
    refine ⟨List.forall_mem_cons.2 ⟨?_, hmatch.sources⟩, hmatch.bodies⟩
    exact matched_replacement call (fun i => (hargs i).1) (h.bodies.get? hd)

/-- What is tidy stays tidy, whatever a caller asks for. -/
theorem Tidy.moves (h : e.Tidy) (hmoves : e.Moves e') : e'.Tidy := by
  induction hmoves with
  | refl => exact h
  | reads _ hreads ih => exact ih.reads hreads
  | define everywhere _ ih => exact ih.define everywhere
  | call _ hpeeked _ hd ih =>
    exact (ih.reads (reads_pull _)).expand (by rw [peeked_pull, hpeeked]) hd _

/-- The next token calls a definition, and the call takes its arguments although the end of the
source comes before the brace that closes one of their groups. -/
structure CutsShort (e : Expander δ) : Prop where
  peeked : e.peeked = none
  control : e.pull.1.kind = .control
  taken : ∃ d args m, e.pull.2.scopes.get? e.pull.1.text = some (.user d) ∧
    matchPattern d.name d.pattern .empty e.pull.2 = (some args, m) ∧ e.missing < m.missing

theorem Tidy.not_cutsShort (h : e.Tidy) : ¬e.CutsShort := by
  rintro ⟨hpeeked, hcontrol, d, args, m, -, hm, hlt⟩
  have hpulled : e.pull.2.peeked = none := by rw [peeked_pull, hpeeked]
  obtain ⟨us, hplain, -, -⟩ := (matchPattern_cases hm inPieces_empty (.inl hpulled)).resolve_right
    (h.reads (reads_pull e)).not_meetsCut
  rw [hplain.missing_eq, missing_pull] at hlt
  exact Nat.lt_irrefl _ hlt

end Jianpu.Macro.Expander
