import Jianpu.Proofs.Text.Utf8
import Jianpu.Smf.Reader
import Mathlib.Algebra.Group.Nat.Defs

/-!
# Reading back messages

The messages of a track are read back from its bytes (`readMessages_encodeMessages`), as long as
their numbers fit the fields that they are written to. The status byte in force is part of the
statement: where the writer leaves one out, the reader has the same one in force.
-/

namespace Jianpu.Smf

open Utf8 (toNat_byte)

/-! ## Numbers -/

theorem foldl_bigEndian (width n a : Nat) :
    (bigEndian width n).foldl (fun n b => 256 * n + b.toNat) a =
      256 ^ width * a + n % 256 ^ width := by
  induction width generalizing a with
  | zero => simp [bigEndian, Nat.mod_one]
  | succ width ih =>
    have hbyte : (UInt8.ofNat (n >>> (8 * width))).toNat = n / 256 ^ width % 256 := by
      rw [UInt8.toNat_ofNat', Nat.shiftRight_eq_div_pow, Nat.pow_mul]
    rw [bigEndian, List.foldl_cons, ih, hbyte, Nat.mod_pow_succ, Nat.pow_succ, Nat.mul_add,
      Nat.mul_assoc, Nat.add_assoc, Nat.add_comm (256 ^ width * _) (n % 256 ^ width)]

theorem ofBigEndian_bigEndian {width n : Nat} (h : n < 256 ^ width) :
    ofBigEndian (bigEndian width n) = n := by
  rw [ofBigEndian, foldl_bigEndian, Nat.mul_zero, Nat.zero_add, Nat.mod_eq_of_lt h]

namespace Quantity

theorem decodeFrom_more (k value n : Nat) (bs : List UInt8) :
    decodeFrom (k + 1) value (more n :: bs) = decodeFrom k (128 * value + n % 128) bs := by
  have hbyte : (more n).toNat = n % 128 + 128 := toNat_byte (by omega)
  rw [decodeFrom, hbyte]
  simp only [if_neg (by omega : ¬ n % 128 + 128 < 128), Nat.add_mod_right, Nat.mod_mod]

theorem decodeFrom_last (k value n : Nat) (bs : List UInt8) :
    decodeFrom (k + 1) value (last n :: bs) = (128 * value + n % 128, bs) := by
  have hbyte : (last n).toNat = n % 128 := toNat_byte (by omega)
  rw [decodeFrom, hbyte]
  simp [Nat.mod_lt]

/-- A quantity is read back, whatever follows. -/
theorem decode_encode {n : Nat} (h : n ≤ largest) (bs : List UInt8) :
    decode (encode n ++ bs) = (n, bs) := by
  have hlt : n < 0x10000000 := Nat.lt_succ_of_le h
  rw [decode, encode]
  split
  · simp only [List.cons_append, List.nil_append, decodeFrom_last]
    congr 1
    omega
  · split
    · simp only [List.cons_append, List.nil_append, decodeFrom_more, decodeFrom_last]
      congr 1
      omega
    · split
      · simp only [List.cons_append, List.nil_append, decodeFrom_more, decodeFrom_last]
        congr 1
        omega
      · simp only [List.cons_append, List.nil_append, decodeFrom_more, decodeFrom_last]
        congr 1
        omega

theorem encode_ne_nil (n : Nat) : encode n ≠ [] := by
  unfold encode
  split
  · simp
  · split
    · simp
    · split <;> simp

end Quantity

/-! ## One message -/

/-- The numbers of a message fit the fields that they are written to, and a reader looks into it. -/
def Message.Fits : Message → Prop
  | noteOff c n v | noteOn c n v | polyPressure c n v | controlChange c n v =>
    c < 16 ∧ n < 128 ∧ v < 128
  | programChange c p | channelPressure c p => c < 16 ∧ p < 128
  | pitchBend c v => c < 16 ∧ v < 0x4000
  | text s | trackName s => (Utf8.encode s).length ≤ Quantity.largest
  | tempo t => t < 0x1000000
  | keySignature .. | timeSignature .. | endOfTrack => True
  | other .. => False
  | sysex data => data.length ≤ Quantity.largest

theorem lengthData_encode {data : List UInt8} (h : data.length ≤ Quantity.largest)
    (bs : List UInt8) : lengthData (Quantity.encode data.length ++ (data ++ bs)) = (data, bs) := by
  rw [lengthData, Quantity.decode_encode h]
  simp

/-- The kind of a meta message is read first, then its data with their length. -/
theorem readMessage_meta {data : List UInt8} {kind : UInt8} {m : Message}
    (h : data.length ≤ Quantity.largest) (hm : metaMessage kind data = some m)
    (running : Option UInt8) (bs : List UInt8) :
    readMessage running (0xFF :: kind :: Quantity.encode data.length ++ data ++ bs) =
      some ⟨m, none, bs⟩ := by
  have hstep : metaStep (kind :: Quantity.encode data.length ++ (data ++ bs)) =
      some ⟨m, none, bs⟩ := by
    rw [List.cons_append, metaStep, lengthData_encode h, hm]
    rfl
  rw [List.append_assoc, List.cons_append, readMessage, messageStep, if_neg (by decide),
    if_neg (by decide), if_pos rfl, hstep]

/-- A status byte says the kind of a message to a channel, and the channel. -/
theorem status_of_channelBytes {s c : Nat} {ns : List Nat} {status : UInt8} {data : List UInt8}
    (hw : Message.channelBytes s c ns = .channel status data)
    (hs : s % 16 = 0 ∧ 0x80 ≤ s ∧ s < 0xF0) (hc : c < 16) :
    data = ns.map UInt8.ofNat ∧ status.toNat / 16 = s / 16 ∧ status.toNat % 16 = c ∧
      0x80 ≤ status ∧ status < 0xF0 := by
  obtain ⟨rfl, rfl⟩ := Written.channel.inj hw
  have hbyte : (UInt8.ofNat (s + c)).toNat = s + c := toNat_byte (by omega)
  rw [UInt8.le_iff_toNat_le, UInt8.lt_iff_toNat_lt, hbyte]
  refine ⟨rfl, by omega, by omega, ?_, ?_⟩
  · exact Nat.le_trans hs.2.1 (Nat.le_add_right ..)
  · change s + c < 0xF0
    omega

theorem data_byte {n : Nat} (hn : n < 128) : UInt8.ofNat n < 0x80 ∧ (UInt8.ofNat n).toNat = n := by
  have hbyte : (UInt8.ofNat n).toNat = n := toNat_byte (by omega)
  refine ⟨?_, hbyte⟩
  rw [UInt8.lt_iff_toNat_lt, hbyte]
  exact hn

/-- A message to a channel is read under its status byte. -/
theorem channelMessage_written {m : Message} {status : UInt8} {data : List UInt8} (hm : m.Fits)
    (hw : m.written = .channel status data) (bs : List UInt8) :
    channelMessage status (data ++ bs) = some (m, bs) ∧ 0x80 ≤ status ∧ status < 0xF0 ∧
      ∃ a more, data = a :: more ∧ a < 0x80 := by
  cases m with
  | noteOff c n v | noteOn c n v | polyPressure c n v | controlChange c n v =>
    obtain ⟨hc, hn, hv⟩ := hm
    obtain ⟨rfl, hkind, hchannel, hge, hlt⟩ := status_of_channelBytes hw (by decide) hc
    refine ⟨?_, hge, hlt, _, _, rfl, (data_byte hn).1⟩
    simp only [channelMessage, hkind, hchannel, Nat.reduceDiv, List.map_cons, List.map_nil,
      List.cons_append, List.nil_append, data_byte hn, data_byte hv, and_self, if_true]
  | programChange c p | channelPressure c p =>
    obtain ⟨hc, hp⟩ := hm
    obtain ⟨rfl, hkind, hchannel, hge, hlt⟩ := status_of_channelBytes hw (by decide) hc
    refine ⟨?_, hge, hlt, _, _, rfl, (data_byte hp).1⟩
    simp only [channelMessage, hkind, hchannel, Nat.reduceDiv, List.map_cons, List.map_nil,
      List.cons_append, List.nil_append, data_byte hp, if_true]
  | pitchBend c v =>
    obtain ⟨hc, hv⟩ := hm
    obtain ⟨rfl, hkind, hchannel, hge, hlt⟩ := status_of_channelBytes hw (by decide) hc
    have hfine : v % 128 < 128 := Nat.mod_lt v (by decide)
    have hcoarse : v / 128 < 128 := Nat.div_lt_of_lt_mul hv
    refine ⟨?_, hge, hlt, _, _, rfl, (data_byte hfine).1⟩
    simp only [channelMessage, hkind, hchannel, Nat.reduceDiv, List.map_cons, List.map_nil,
      List.cons_append, List.nil_append, data_byte hfine, data_byte hcoarse, and_self, if_true,
      Nat.div_add_mod']
  | text | trackName | tempo | keySignature | timeSignature | endOfTrack | other | sysex => cases hw

/-- A message that is written as a whole is read as a whole, and ends the status byte in force. -/
theorem readMessage_written {m : Message} {bytes : List UInt8} (hm : m.Fits)
    (hw : m.written = .whole bytes) (running : Option UInt8) (bs : List UInt8) :
    readMessage running (bytes ++ bs) = some ⟨m, none, bs⟩ := by
  cases m with
  | noteOff | noteOn | polyPressure | controlChange | programChange | channelPressure | pitchBend =>
    cases hw
  | text s =>
    obtain rfl := Written.whole.inj hw
    exact readMessage_meta hm (by rw [metaMessage, Utf8.decodeLossy_encode]) running bs
  | trackName s =>
    obtain rfl := Written.whole.inj hw
    exact readMessage_meta hm (by rw [metaMessage, Utf8.decodeLossy_encode]) running bs
  | tempo t =>
    obtain rfl := Written.whole.inj hw
    have hdata : metaMessage 0x51 (bigEndian 3 t) = some (.tempo (ofBigEndian (bigEndian 3 t))) :=
      rfl
    rw [ofBigEndian_bigEndian hm] at hdata
    exact readMessage_meta (by rw [length_bigEndian]; decide) hdata running bs
  | keySignature sharps minor =>
    obtain rfl := Written.whole.inj hw
    have hdata : metaMessage 0x59 [sharps.toUInt8, if minor then 1 else 0] =
        some (.keySignature sharps minor) := by
      cases minor <;> simp [metaMessage]
    exact readMessage_meta (by simp [Quantity.largest]) hdata running bs
  | timeSignature n e c t =>
    obtain rfl := Written.whole.inj hw
    exact readMessage_meta (by simp [Quantity.largest]) rfl running bs
  | endOfTrack =>
    obtain rfl := Written.whole.inj hw
    exact readMessage_meta (Nat.zero_le _) rfl running bs
  | other => exact hm.elim
  | sysex data =>
    obtain rfl := Written.whole.inj hw
    rw [List.append_assoc, List.cons_append, readMessage, messageStep, if_neg (by decide),
      if_neg (by decide), if_neg (by decide), if_pos (.inl rfl), lengthData_encode hm]

/-- A message to a channel is read with its status byte, or without it where that is in force. -/
theorem readMessage_channel {m : Message} {status : UInt8} {data : List UInt8} (hm : m.Fits)
    (hw : m.written = .channel status data) (running : Option UInt8) (bs : List UInt8) :
    readMessage running ((if running = some status then data else status :: data) ++ bs) =
      some ⟨m, some status, bs⟩ := by
  obtain ⟨hread, hge, hlt, a, more, rfl, ha⟩ := channelMessage_written hm hw bs
  have hstep : channelStep status (a :: more ++ bs) = some ⟨m, some status, bs⟩ := by
    rw [channelStep, hread]
    rfl
  split
  · -- the byte in place of the status byte is no status byte
    rename_i hrunning
    rw [List.cons_append, readMessage, messageStep, if_pos ha, hrunning]
    exact hstep
  · rw [List.cons_append, readMessage, messageStep, if_neg (UInt8.not_lt.2 hge), if_pos hlt]
    exact hstep

/-! ## The messages of a track -/

theorem readMessages_step {running : Option UInt8} {bs rest : List UInt8} {delta : Nat} {s : Step}
    (hne : bs ≠ []) (hdelta : Quantity.decode bs = (delta, rest))
    (hread : readMessage running rest = some s) :
    readMessages running bs = ⟨delta, s.message⟩ :: readMessages s.running s.rest := by
  have hrest : rest = (Quantity.decode bs).2 := by rw [hdelta]
  subst hrest
  rw [readMessages, if_neg (by simpa using hne)]
  dsimp only
  split
  · rename_i hnone
    rw [hread] at hnone
    cases hnone
  · rename_i s' hsome
    rw [hread] at hsome
    obtain rfl := Option.some.inj hsome
    rw [hdelta]

/-- **The messages of a track are read back from its bytes**, whatever status byte is in force. -/
theorem readMessages_encodeMessages {ms : List TimedMessage}
    (h : ∀ m ∈ ms, m.delta ≤ Quantity.largest ∧ m.message.Fits) (running : Option UInt8) :
    readMessages running (encodeMessages running ms) = ms := by
  induction ms generalizing running with
  | nil => rw [encodeMessages, readMessages, if_pos List.isEmpty_nil]
  | cons m ms ih =>
    obtain ⟨⟨hdelta, hfits⟩, hms⟩ := List.forall_mem_cons.1 h
    have hne : ∀ bs, Quantity.encode m.delta ++ bs ≠ [] := by
      intro bs
      simp [Quantity.encode_ne_nil]
    rw [encodeMessages]
    cases hw : m.message.written with
    | channel status data =>
      rw [readMessages_step (hne _) (Quantity.decode_encode hdelta _)
        (readMessage_channel hfits hw running _), ih hms]
    | whole bytes =>
      rw [readMessages_step (hne _) (Quantity.decode_encode hdelta _)
        (readMessage_written hfits hw running _), ih hms]

end Jianpu.Smf
