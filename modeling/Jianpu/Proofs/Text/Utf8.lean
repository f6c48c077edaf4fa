import Jianpu.Text.Utf8

/-!
# Reading back a text

The bytes of a text are read as this text (`decodeLossy_encode`). The bytes of one character are its
value in digits of base 64, the first of them in a byte that says how many follow; `next_encode`
reads them back, whatever comes after them.
-/

namespace Jianpu.Utf8

theorem toNat_byte {n : Nat} (h : n < 256) : (UInt8.ofNat n).toNat = n := UInt8.toNat_ofNat_of_lt' h

/-- A byte after the first one of a character adds a digit to its value. -/
theorem trail_digit {lo hi : UInt8} {k : Nat} (hk : k < 64) (hlo : lo.toNat ≤ k + 128)
    (hhi : k + 128 ≤ hi.toNat) (n value : Nat) (bs : List UInt8) :
    trail (n + 1) lo hi value (UInt8.ofNat (k + 128) :: bs) =
      trail n 0x80 0xBF (64 * value + k) bs := by
  have hbyte : (UInt8.ofNat (k + 128)).toNat = k + 128 := toNat_byte (by omega)
  rw [trail, if_pos, hbyte, Nat.add_sub_cancel]
  rw [UInt8.le_iff_toNat_le, UInt8.le_iff_toNat_le, hbyte]
  exact ⟨hlo, hhi⟩

/-- A digit that any value can go on with. -/
theorem trail_tail {k : Nat} (hk : k < 64) (n value : Nat) (bs : List UInt8) :
    trail (n + 1) 0x80 0xBF value (UInt8.ofNat (k + 128) :: bs) =
      trail n 0x80 0xBF (64 * value + k) bs :=
  trail_digit hk (Nat.le_add_left ..) (by simpa using by omega) n value bs

/-! ## The first byte -/

theorem lead?_two {x : Nat} (hlow : 2 ≤ x) (hx : x < 32) :
    lead? (UInt8.ofNat (x + 192)) = some (1, 0x80, 0xBF, x) := by
  have h : ∀ x : Fin 32, 2 ≤ x.val →
      lead? (UInt8.ofNat (x.val + 192)) = some (1, 0x80, 0xBF, x.val) := by decide
  exact h ⟨x, hx⟩ hlow

/-- The second byte of three is in the range that the first one asks for, since the value needs
three bytes and is no surrogate. -/
theorem lead?_three {x k : Nat} (hx : x < 16) (hk : k < 64) (hlow : x = 0 → 32 ≤ k)
    (hhigh : x = 13 → k < 32) :
    ∃ lo hi : UInt8, lead? (UInt8.ofNat (x + 224)) = some (2, lo, hi, x) ∧ lo.toNat ≤ k + 128 ∧
      k + 128 ≤ hi.toNat := by
  have h : ∀ x : Fin 16, lead? (UInt8.ofNat (x.val + 224)) =
      some (2, if x = 0 then 0xA0 else 0x80, if x = 13 then 0x9F else 0xBF, x.val) := by decide
  refine ⟨_, _, h ⟨x, hx⟩, ?_, ?_⟩
  · split
    · rename_i h0
      have := hlow (congrArg Fin.val h0)
      simpa using by omega
    · simp
  · split
    · rename_i h13
      have := hhigh (congrArg Fin.val h13)
      simpa using by omega
    · simpa using by omega

/-- The second byte of four is in the range that the first one asks for, since the value needs four
bytes and is no larger than the last character. -/
theorem lead?_four {x k : Nat} (hx : x ≤ 4) (hk : k < 64) (hlow : x = 0 → 16 ≤ k)
    (hhigh : x = 4 → k < 16) :
    ∃ lo hi : UInt8, lead? (UInt8.ofNat (x + 240)) = some (3, lo, hi, x) ∧ lo.toNat ≤ k + 128 ∧
      k + 128 ≤ hi.toNat := by
  have h : ∀ x : Fin 5, lead? (UInt8.ofNat (x.val + 240)) =
      some (3, if x = 0 then 0x90 else 0x80, if x = 4 then 0x8F else 0xBF, x.val) := by decide
  refine ⟨_, _, h ⟨x, Nat.lt_succ_of_le hx⟩, ?_, ?_⟩
  · split
    · rename_i h0
      have := hlow (congrArg Fin.val h0)
      simpa using by omega
    · simp
  · split
    · rename_i h4
      have := hhigh (congrArg Fin.val h4)
      simpa using by omega
    · simpa using by omega

theorem next_of_lead? {b lo hi : UInt8} {n value : Nat} (h : lead? b = some (n, lo, hi, value))
    (hb : 0x80 ≤ b.toNat) (bs : List UInt8) :
    next b bs = ((trail n lo hi value bs).1.map Char.ofNat, (trail n lo hi value bs).2) := by
  have hge : ¬ b < 0x80 := by
    rw [UInt8.lt_iff_toNat_lt]
    exact Nat.not_lt.2 hb
  rw [next, if_neg hge, h]

/-! ## Characters and texts -/

/-- The bytes of a character are read as this character, whatever follows. -/
theorem next_encode (c : Char) (bs : List UInt8) :
    ∃ b more, String.utf8EncodeChar c = b :: more ∧ next b (more ++ bs) = (some c, bs) := by
  have hchar : ∀ n, n = c.toNat → Char.ofNat n = c := by
    rintro _ rfl
    exact Char.ofNat_toNat c
  have hval : c.val.toNat = c.toNat := rfl
  have hvalid : c.toNat < 0xD800 ∨ 0xDFFF < c.toNat ∧ c.toNat < 0x110000 := c.valid
  rw [String.utf8EncodeChar, hval]
  generalize c.toNat = v at hchar hvalid
  split
  · -- one byte
    refine ⟨_, [], rfl, ?_⟩
    have hlt : UInt8.ofNat v < 0x80 := by
      rw [UInt8.lt_iff_toNat_lt, toNat_byte (n := v) (by omega)]
      exact Nat.lt_succ_of_le ‹_›
    rw [next, if_pos hlt, toNat_byte (n := v) (by omega), hchar v rfl, List.nil_append]
  · split
    · -- two bytes
      refine ⟨_, [_], rfl, ?_⟩
      have hlead := lead?_two (x := v / 64 % 32) (by omega) (by omega)
      rw [next_of_lead? hlead (by rw [toNat_byte (by omega)]; omega), List.singleton_append,
        trail_tail (by omega)]
      rw [trail, Option.map_some, hchar _ (by omega)]
    · split
      · -- three bytes
        refine ⟨_, [_, _], rfl, ?_⟩
        obtain ⟨lo, hi, hlead, hlo, hhi⟩ := lead?_three (x := v / 4096 % 16) (k := v / 64 % 64)
          (by omega) (by omega) (by omega) (by omega)
        rw [next_of_lead? hlead (by rw [toNat_byte (by omega)]; omega)]
        simp only [List.cons_append, List.nil_append]
        rw [trail_digit (by omega) hlo hhi, trail_tail (by omega)]
        rw [trail, Option.map_some, hchar _ (by omega)]
      · -- four bytes
        refine ⟨_, [_, _, _], rfl, ?_⟩
        obtain ⟨lo, hi, hlead, hlo, hhi⟩ := lead?_four (x := v / 262144 % 8) (k := v / 4096 % 64)
          (by omega) (by omega) (by omega) (by omega)
        rw [next_of_lead? hlead (by rw [toNat_byte (by omega)]; omega)]
        simp only [List.cons_append, List.nil_append]
        rw [trail_digit (by omega) hlo hhi, trail_tail (by omega), trail_tail (by omega)]
        rw [trail, Option.map_some, hchar _ (by omega)]

theorem chars_flatMap (cs : List Char) :
    chars (cs.flatMap String.utf8EncodeChar) = cs.map some := by
  induction cs with
  | nil => rw [List.flatMap_nil, chars, List.map_nil]
  | cons c cs ih =>
    obtain ⟨b, more, hc, hnext⟩ := next_encode c (cs.flatMap String.utf8EncodeChar)
    rw [List.flatMap_cons, hc, List.cons_append, chars, hnext, ih, List.map_cons]

/-- **The bytes of a text are read as this text.** -/
theorem decodeLossy_encode (s : String) : decodeLossy (encode s) = s := by
  rw [decodeLossy, encode, chars_flatMap, List.map_map]
  exact (congrArg String.ofList (List.map_id _)).trans String.ofList_toList

end Jianpu.Utf8
