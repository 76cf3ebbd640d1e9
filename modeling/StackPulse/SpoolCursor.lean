import StackPulse.Bytes
import StackPulse.Model
import StackPulse.Varint

/-!
The cursor of the spool readers: record tags, byte ranges and varints. A read
that runs past the end of the file leaves the cursor at the end and reports
`unexpectedEof`; every other error means that the bytes are wrong.
-/
namespace StackPulse.SpoolCursor

open Bytes Varint Model

abbrev Reader := ByteReader Stop

/-- `none` at the end of the file. -/
def readTag : Reader (Option UInt8) := fun c =>
  if c.position = c.mmap.len then (.ok none, c)
  else match c.mmap.bytes[c.position]? with
    | some tag => (.ok (some tag), c.advance 1)
    | none => (.error (invalidData "truncated spool record tag"), c)

/-- The bytes of the range; every caller slices the mapping with it at once. -/
def readBytesRange (len : ℕ) : Reader (List UInt8) := fun c =>
  if 2 ^ 64 ≤ c.position + len then (.error (invalidData "spool byte range overflow"), c)
  else if c.mmap.len < c.position + len then
    -- The partial tail is consumed, so that `atEof` holds afterwards.
    (.error (unexpectedEof "truncated spool byte range"), c.moveTo c.mmap.len)
  else (.ok (c.rest.take len), c.moveTo (c.position + len))

def atEof (c : Cursor) : Bool := c.position == c.mmap.len

/-- Varint types of the spool. `fromRawVarint` is the conversion of the inline
decoder; `encodeVar` and `decodeVar` are those of the codec, and `wire` is the
base-128 number that stands for a value. -/
class SpoolVarint (VI : Type) where
  fromRawVarint : UInt64 → Option VI
  encodeVar : IntegerEncoding → VI → List UInt8
  decodeVar : IntegerEncoding → List UInt8 → Option (VI × ℕ)
  wire : VI → ℕ
  fromRawVarint_iff : ∀ raw x, fromRawVarint raw = some x ↔ raw.toNat = wire x
  encodeVar_eq : ∀ V x,
    base128 10 (encodeVar V x) = some (wire x, (encodeVar V x).length)
  decodeVar_iff : ∀ V bytes x len, decodeVar V bytes = some (x, len) ↔
    base128 10 bytes = some (wire x, len)

open SpoolVarint

instance : SpoolVarint UInt64 where
  fromRawVarint raw := some raw
  encodeVar V := V.encodeU64
  decodeVar V := V.decodeU64
  wire := UInt64.toNat
  fromRawVarint_iff raw x := by rw [Option.some.injEq, UInt64.toNat_inj]
  encodeVar_eq V := V.encodeU64_eq
  decodeVar_iff V := V.decodeU64_iff

instance : SpoolVarint UInt32 where
  fromRawVarint raw := if raw.toNat < 2 ^ 32 then some raw.toUInt32 else none
  encodeVar V := V.encodeU32
  decodeVar V := V.decodeU32
  wire := UInt32.toNat
  fromRawVarint_iff raw x := by
    have hx := x.toNat_lt
    split
    · rw [Option.some.injEq, ← UInt32.toNat_inj, UInt64.toNat_toUInt32,
        Nat.mod_eq_of_lt ‹_›]
    · simp only [reduceCtorEq, false_iff]
      omega
  encodeVar_eq V := V.encodeU32_eq
  decodeVar_iff V := V.decodeU32_iff

/-- Zigzag decoding as the inline decoder does it. -/
def zigzagDecode (raw : UInt64) : Int64 :=
  (raw >>> 1).toInt64 ^^^ -((raw &&& 1).toInt64)

theorem toInt_toInt64_of_lt (n : UInt64) (h : n.toNat < 2 ^ 63) : n.toInt64.toInt = n.toNat := by
  rw [← Int64.toInt_toBitVec, UInt64.toBitVec_toInt64, BitVec.toInt_eq_toNat_of_lt]
  · rfl
  · change 2 * n.toNat < 2 ^ 64
    omega

theorem toInt_zigzagDecode (raw : UInt64) : (zigzagDecode raw).toInt = unzigzag raw.toNat := by
  have hlt := raw.toNat_lt
  have hshift : (raw >>> 1).toNat = raw.toNat / 2 := by
    rw [UInt64.toNat_shiftRight]
    simp [Nat.shiftRight_eq_div_pow]
  have hlow : (raw &&& 1).toNat = raw.toNat % 2 := by
    rw [UInt64.toNat_and]
    exact Nat.and_one_is_mod _
  have hhigh : (raw >>> 1).toInt64.toInt = (raw.toNat / 2 : ℕ) := by
    rw [toInt_toInt64_of_lt _ (by omega), hshift]
  unfold zigzagDecode unzigzag
  by_cases hpar : raw.toNat % 2 = 0
  · have hzero : raw &&& 1 = 0 := by
      apply UInt64.toNat_inj.mp
      rw [hlow, hpar]
      rfl
    rw [hzero, if_pos hpar]
    have hneg : -(0 : UInt64).toInt64 = 0 := by decide
    rw [hneg, Int64.xor_zero, hhigh]
  · have hone : raw &&& 1 = 1 := by
      apply UInt64.toNat_inj.mp
      rw [hlow]
      change raw.toNat % 2 = 1
      omega
    rw [hone, if_neg hpar]
    have hneg : -(1 : UInt64).toInt64 = -1 := by decide
    rw [hneg, Int64.xor_neg_one, Int64.toInt_not, hhigh, Int.bmod_eq_of_le] <;> omega

instance : SpoolVarint Int64 where
  fromRawVarint raw := some (zigzagDecode raw)
  encodeVar V := V.encodeI64
  decodeVar V := V.decodeI64
  wire x := zigzag x.toInt
  fromRawVarint_iff raw x := by
    rw [Option.some.injEq, ← Int64.toInt_inj, toInt_zigzagDecode]
    constructor
    · intro h
      rw [← h, zigzag_unzigzag]
    · intro h
      rw [h, unzigzag_zigzag]
  encodeVar_eq V := V.encodeI64_eq
  decodeVar_iff V := V.decodeI64_iff

variable {VI : Type} [SpoolVarint VI]

/-- The loop of the inline decoder over the first bytes of the input. -/
def inlineVarint (VI : Type) [SpoolVarint VI] : ℕ → UInt64 → List UInt8 → Option (VI × ℕ)
  | _, _, [] => none
  | index, raw, byte :: bytes =>
      let raw := raw ||| ((byte &&& 0x7f).toUInt64 <<< UInt64.ofNat (7 * index))
      if byte &&& 0x80 = 0 then (fromRawVarint raw).map fun value => (value, index + 1)
      else inlineVarint VI (index + 1) raw bytes

def readVarintSlow (V : IntegerEncoding) (VI : Type) [SpoolVarint VI] : Reader VI := fun c =>
  match decodeVar V c.rest with
  | some (value, len) => (.ok value, c.advance len)
  | none =>
      if 10 ≤ c.rest.length then (.error (invalidData "invalid spool varint"), c)
      else (.error (unexpectedEof "truncated spool varint"), c.moveTo c.mmap.len)

def readVarint (V : IntegerEncoding) (VI : Type) [SpoolVarint VI] : Reader VI := fun c =>
  -- The slice `mmap[position..]` panics past the end.
  if c.mmap.len < c.position then (.error (.panic "slice index"), c)
  else match inlineVarint VI 0 0 (c.rest.take 9) with
    | some (value, len) => (.ok value, c.advance len)
    | none => readVarintSlow V VI c

theorem low_bits (byte : UInt8) : (byte &&& 0x7f).toNat = byte.toNat % 128 := by
  rw [UInt8.toNat_and]
  exact Nat.and_two_pow_sub_one_eq_mod byte.toNat 7

theorem high_bit (byte : UInt8) : byte &&& 0x80 = 0 ↔ byte.toNat < 128 := by
  have h : ∀ b : Fin 256, (b.val &&& 128 = 0 ↔ b.val < 128) := by decide +kernel
  rw [← UInt8.toNat_inj, UInt8.toNat_and]
  exact h ⟨byte.toNat, byte.toNat_lt⟩

/-- One group enters the accumulator of the inline decoder. -/
theorem toNat_group (index : ℕ) (raw : UInt64) (byte : UInt8) (hindex : index < 9)
    (hraw : raw.toNat < 2 ^ (7 * index)) :
    (raw ||| ((byte &&& 0x7f).toUInt64 <<< UInt64.ofNat (7 * index))).toNat =
      raw.toNat + 2 ^ (7 * index) * (byte.toNat % 128) := by
  have hmod : byte.toNat % 128 < 128 := Nat.mod_lt _ (by omega)
  have hamount : (UInt64.ofNat (7 * index)).toNat % 64 = 7 * index := by
    rw [UInt64.toNat_ofNat']
    omega
  have hbig : byte.toNat % 128 * 2 ^ (7 * index) < 2 ^ 64 := by
    calc byte.toNat % 128 * 2 ^ (7 * index) < 128 * 2 ^ (7 * index) :=
          Nat.mul_lt_mul_of_pos_right hmod (by positivity)
      _ = 2 ^ (7 * index + 7) := by rw [Nat.pow_add]; ring
      _ ≤ 2 ^ 64 := Nat.pow_le_pow_right (by omega) (by omega)
  rw [UInt64.toNat_or, UInt64.toNat_shiftLeft, hamount, UInt8.toNat_toUInt64, low_bits,
    Nat.shiftLeft_eq, Nat.mod_eq_of_lt hbig, Nat.or_comm, Nat.mul_comm,
    ← Nat.two_pow_add_eq_or_of_lt hraw, Nat.add_comm]

/-- The inline decoder reads the base-128 number of its bytes. -/
theorem inlineVarint_eq (bytes : List UInt8) (limit index : ℕ) (raw : UInt64)
    (hlimit : bytes.length ≤ limit) (hindex : index + bytes.length ≤ 9)
    (hraw : raw.toNat < 2 ^ (7 * index)) (x : VI) (len : ℕ) :
    inlineVarint VI index raw bytes = some (x, len) ↔
      ∃ value n, base128 limit bytes = some (value, n) ∧ len = index + n ∧
        raw.toNat + 2 ^ (7 * index) * value = wire x := by
  induction bytes generalizing limit index raw with
  | nil =>
    cases limit <;> simp [inlineVarint, base128]
  | cons byte bytes ih =>
    obtain ⟨limit, rfl⟩ : ∃ l, limit = l + 1 := ⟨limit - 1, by
      simp only [List.length_cons] at hlimit
      omega⟩
    simp only [List.length_cons] at hlimit hindex
    have hgroup := toNat_group index raw byte (by omega) hraw
    have hpow : 2 ^ (7 * (index + 1)) = 2 ^ (7 * index) * 128 := by
      rw [Nat.mul_add, Nat.pow_add]
    have hpos : 0 < 2 ^ (7 * index) := by positivity
    have hbound : raw.toNat + 2 ^ (7 * index) * (byte.toNat % 128) < 2 ^ (7 * (index + 1)) := by
      have hmod : byte.toNat % 128 < 128 := Nat.mod_lt _ (by omega)
      rw [hpow]
      nlinarith
    rw [inlineVarint, base128]
    simp only [high_bit]
    by_cases hlast : byte.toNat < 128
    · rw [if_pos hlast, if_pos hlast, Option.map_eq_some_iff]
      constructor
      · rintro ⟨y, hy, heq⟩
        cases heq
        refine ⟨byte.toNat, 1, rfl, rfl, ?_⟩
        rw [← (fromRawVarint_iff _ _).mp hy, hgroup, Nat.mod_eq_of_lt hlast]
      · rintro ⟨value, n, heq, rfl, hx⟩
        cases heq
        refine ⟨x, (fromRawVarint_iff _ _).mpr ?_, rfl⟩
        rw [hgroup, Nat.mod_eq_of_lt hlast, hx]
    · have hbyte : byte.toNat % 128 = byte.toNat - 128 := by
        have := byte.toNat_lt
        omega
      rw [if_neg hlast, if_neg hlast,
        ih limit (index + 1) _ (by omega) (by omega) (by rw [hgroup]; exact hbound), hgroup, hpow,
        hbyte]
      constructor
      · rintro ⟨value, n, hb, rfl, hx⟩
        refine ⟨byte.toNat - 128 + 128 * value, n + 1, ?_, by omega, ?_⟩
        · rw [hb]
          rfl
        · rw [← hx]
          ring
      · rintro ⟨value, n, hb, rfl, hx⟩
        obtain ⟨⟨v, m⟩, hv, heq⟩ := Option.map_eq_some_iff.mp hb
        cases heq
        refine ⟨v, m, hv, by omega, ?_⟩
        rw [← hx]
        ring

theorem base128_take (limit : ℕ) (bytes : List UInt8) :
    base128 limit (bytes.take limit) = base128 limit bytes := by
  induction limit generalizing bytes with
  | zero => rfl
  | succ limit ih =>
    cases bytes with
    | nil => rfl
    | cons byte bytes => simp only [List.take_succ_cons, base128, ih]

section

variable (V : IntegerEncoding)

include V

/-- The inline path only saves the call of the codec: both see the same number. -/
theorem readVarint_eq_slow (c : Cursor) (hc : c.Valid) :
    readVarint V VI c = readVarintSlow V VI c := by
  unfold readVarint
  rw [if_neg (Nat.not_lt.mpr hc)]
  cases hin : inlineVarint VI 0 0 (c.rest.take 9) with
  | none => rfl
  | some p =>
    obtain ⟨y, n⟩ := p
    obtain ⟨value, m, hb, hn, hy⟩ :=
      (inlineVarint_eq (c.rest.take 9) 9 0 0 (List.length_take_le _ _)
        (by simp) (by simp) y n).mp hin
    rw [base128_take] at hb
    simp only [UInt64.toNat_zero, Nat.mul_zero, Nat.pow_zero, Nat.one_mul, Nat.zero_add] at hy hn
    have hdecode : decodeVar V c.rest = some (y, n) := by
      rw [decodeVar_iff, ← hy, hn]
      exact base128_congr hb rfl ((base128_length hb).2.1.trans (Nat.le_succ _))
    simp only [readVarintSlow, hdecode]

theorem readVarint_of_base128 (c : Cursor) (hc : c.Valid) (x : VI) (len : ℕ)
    (h : base128 10 c.rest = some (wire x, len)) : readVarint V VI c = (.ok x, c.advance len) := by
  have hdecode : decodeVar V c.rest = some (x, len) := (decodeVar_iff V _ _ _).mpr h
  rw [readVarint_eq_slow V c hc, readVarintSlow, hdecode]

/-- Without a number of the type at hand the read fails, and the remaining
length decides between the two errors. -/
theorem readVarint_of_none (c : Cursor) (hc : c.Valid)
    (h : ∀ (x : VI) len, base128 10 c.rest ≠ some (wire x, len)) :
    readVarint V VI c =
      if 10 ≤ c.rest.length then (.error (invalidData "invalid spool varint"), c)
      else (.error (unexpectedEof "truncated spool varint"), c.moveTo c.mmap.len) := by
  have hdecode : decodeVar V c.rest = (none : Option (VI × ℕ)) := by
    cases hd : (decodeVar V c.rest : Option (VI × ℕ)) with
    | none => rfl
    | some p => exact absurd ((decodeVar_iff V _ _ _).mp hd) (h p.1 p.2)
  rw [readVarint_eq_slow V c hc, readVarintSlow, hdecode]

/-- The two outcomes of a varint read. -/
theorem readVarint_cases (VI : Type) [SpoolVarint VI] (c : Cursor) (hc : c.Valid) :
    (∃ x len, base128 10 c.rest = some (wire (x : VI), len) ∧
      readVarint V VI c = (.ok x, c.advance len)) ∨
    ((∀ (x : VI) len, base128 10 c.rest ≠ some (wire x, len)) ∧
      readVarint V VI c =
        if 10 ≤ c.rest.length then (.error (invalidData "invalid spool varint"), c)
        else (.error (unexpectedEof "truncated spool varint"), c.moveTo c.mmap.len)) := by
  by_cases h : ∃ (x : VI) (len : ℕ), base128 10 c.rest = some (wire x, len)
  · obtain ⟨x, len, hx⟩ := h
    exact .inl ⟨x, len, hx, readVarint_of_base128 V c hc x len hx⟩
  · have hnone : ∀ (x : VI) len, base128 10 c.rest ≠ some (wire x, len) :=
      fun x len hx => h ⟨x, len, hx⟩
    exact .inr ⟨hnone, readVarint_of_none V c hc hnone⟩

end

theorem base128_lt {limit value len : ℕ} {bytes : List UInt8}
    (h : base128 limit bytes = some (value, len)) : value < 128 ^ len := by
  induction limit generalizing bytes value len with
  | zero => simp [base128] at h
  | succ limit ih =>
    cases bytes with
    | nil => simp [base128] at h
    | cons byte bytes =>
      unfold base128 at h
      split at h
      · cases h
        simpa using ‹byte.toNat < 128›
      · obtain ⟨⟨v, n⟩, hv, heq⟩ := Option.map_eq_some_iff.mp h
        cases heq
        have hlt := ih hv
        have hbyte := byte.toNat_lt
        rw [Nat.pow_succ]
        omega

/-- A number that does not end although the limit is not reached lacks its last byte. -/
theorem continued_of_base128 {limit : ℕ} {bytes : List UInt8} (hlen : bytes.length < limit)
    (h : base128 limit bytes = none) : ∀ byte ∈ bytes, byte &&& 0x80 ≠ 0 := by
  induction bytes generalizing limit with
  | nil => simp
  | cons byte bytes ih =>
    obtain ⟨limit, rfl⟩ : ∃ l, limit = l + 1 := ⟨limit - 1, by omega⟩
    unfold base128 at h
    split at h
    · cases h
    · exact List.forall_mem_cons.mpr ⟨by rwa [ne_eq, high_bit],
        ih (Nat.lt_of_succ_lt_succ hlen) (Option.map_eq_none_iff.mp h)⟩

/-- The read returns what the codec decodes from the remaining bytes, and fails
when the codec does. -/
def Agrees (V : IntegerEncoding) (VI : Type) [SpoolVarint VI] (c : Cursor) : Prop :=
  match decodeVar V c.rest with
  | some (value, len) => readVarint V VI c = (.ok (value : VI), c.advance len)
  | none => ∃ e d, readVarint V VI c = (.error e, d)

/-- Fewer than ten bytes remain and each of them announces another. -/
def Truncated (c : Cursor) : Prop := c.rest.length < 10 ∧ ∀ byte ∈ c.rest, byte &&& 0x80 ≠ 0

/-- Without a value the read ends the file where the varint is cut short, and
reports wrong bytes where it is not. -/
def Classifies (V : IntegerEncoding) (VI : Type) [SpoolVarint VI] (c : Cursor) : Prop :=
  (decodeVar V c.rest : Option (VI × ℕ)) = none →
    (Truncated c → readVarint V VI c =
      (.error (unexpectedEof "truncated spool varint"), c.moveTo c.mmap.len)) ∧
    (¬ Truncated c → readVarint V VI c = (.error (invalidData "invalid spool varint"), c))

theorem agrees (V : IntegerEncoding) (VI : Type) [SpoolVarint VI] {c : Cursor} (hc : c.Valid) :
    Agrees V VI c := by
  unfold Agrees
  rw [readVarint_eq_slow V c hc]
  unfold readVarintSlow
  cases (decodeVar V c.rest : Option (VI × ℕ)) with
  | some decoded => rfl
  | none =>
    by_cases hten : 10 ≤ c.rest.length
    · exact ⟨_, _, if_pos hten⟩
    · exact ⟨_, _, if_neg hten⟩

theorem classifies (V : IntegerEncoding) {c : Cursor} (hc : c.Valid)
    (hraw : ∀ raw, ∃ x : VI, fromRawVarint raw = some x) : Classifies V VI c := by
  intro hnone
  have hslow : readVarint V VI c = _ := readVarint_eq_slow V c hc
  simp only [readVarintSlow, hnone] at hslow
  by_cases hten : 10 ≤ c.rest.length
  · rw [if_pos hten] at hslow
    exact ⟨fun h => absurd h.1 (by omega), fun _ => hslow⟩
  · rw [if_neg hten] at hslow
    have hend : base128 10 c.rest = none := by
      rcases hb : base128 10 c.rest with _ | ⟨value, len⟩
      · rfl
      · -- A number of at most nine bytes fits 64 bits, so the codec would have decoded it.
        have hlen : len ≤ 9 := by
          have := (base128_length hb).2.2
          omega
        have hlt : value < 2 ^ 64 := calc
          value < 128 ^ len := base128_lt hb
          _ ≤ 128 ^ 9 := Nat.pow_le_pow_right (by omega) hlen
          _ ≤ 2 ^ 64 := by norm_num
        obtain ⟨x, hx⟩ := hraw (UInt64.ofNat value)
        rw [fromRawVarint_iff, UInt64.toNat_ofNat_of_lt' hlt] at hx
        rw [(decodeVar_iff V c.rest x len).mpr (by rw [hb, hx])] at hnone
        cases hnone
    exact ⟨fun _ => hslow, fun h =>
      absurd ⟨by omega, continued_of_base128 (by omega) hend⟩ h⟩

/-- The inline decoder and the path behind it read what the codec decodes. -/
theorem readVarint_matches_codec (V : IntegerEncoding) (c : Cursor) (hc : c.Valid) :
    Agrees V UInt64 c ∧ Agrees V UInt32 c ∧ Agrees V Int64 c ∧
      Classifies V UInt64 c ∧ Classifies V Int64 c :=
  ⟨agrees V UInt64 hc, agrees V UInt32 hc, agrees V Int64 hc,
    classifies V hc fun raw => ⟨raw, rfl⟩, classifies V hc fun raw => ⟨zigzagDecode raw, rfl⟩⟩

theorem readVarint_matches_codec_cut :
    readVarint standard Int64 ⟨⟨[0x01, 0x80, 0x80], by decide⟩, 1⟩ =
      (.error (unexpectedEof "truncated spool varint"), ⟨⟨[0x01, 0x80, 0x80], by decide⟩, 3⟩) :=
  ((readVarint_matches_codec standard _ (by simp [Cursor.Valid, Mmap.len])).2.2.2.2 rfl).1
    ⟨by decide, by decide +kernel⟩

theorem readVarint_parses (V : IntegerEncoding) (x : VI) :
    (readVarint V VI).Parses (encodeVar V x) (.ok x) := by
  intro c tail hc hrest
  have h := base128_append tail (encodeVar_eq V x)
  rw [← hrest] at h
  rw [readVarint_of_base128 V c hc x _ h]
  exact ⟨rfl, fun _ _ => rfl⟩

theorem readBytesRange_parses (bs : List UInt8) :
    (readBytesRange bs.length).Parses bs (.ok bs) := by
  intro c tail hc hrest
  have hle := c.valid_of_rest_append hc bs tail hrest
  have hlt := c.mmap.length_lt
  unfold Mmap.len at hle
  unfold readBytesRange
  rw [if_neg (by omega), if_neg (by unfold Mmap.len; omega)]
  refine ⟨?_, fun _ _ => rfl⟩
  rw [hrest, List.take_left]

theorem readVarint_stable (V : IntegerEncoding) (VI : Type) [SpoolVarint VI] :
    (readVarint V VI).Stable Stop.isEof := by
  refine ByteReader.Stable.of_outcome fun c hc => ?_
  obtain ⟨x, len, hx, -⟩ | ⟨hnone, heq⟩ := readVarint_cases V VI c hc
  · refine .read x len ?_ fun c' hext => ?_
    · have hlen := (base128_length hx).2.2
      rw [Cursor.length_rest] at hlen
      unfold Cursor.Valid at hc
      omega
    · obtain ⟨tail, htail⟩ := hext.rest_eq hc
      have hx' := base128_append tail hx
      rw [← htail] at hx'
      exact readVarint_of_base128 V c' (hext.valid hc) x len hx'
  · split at heq
    · rename_i hten
      refine .fault _ c rfl heq rfl le_rfl hc fun c' hext => ?_
      obtain ⟨tail, htail⟩ := hext.rest_eq hc
      -- Ten bytes are enough to see that no number of the type stands here.
      have hnone' : ∀ (y : VI) len, base128 10 c'.rest ≠ some (wire y, len) := by
        intro y len hy
        rw [htail] at hy
        cases hb : base128 10 c.rest with
        | none =>
          rw [base128_none_append tail hten hb] at hy
          cases hy
        | some p =>
          rw [base128_append tail hb] at hy
          exact hnone y len (hb.trans hy)
      rw [readVarint_of_none V c' (hext.valid hc) hnone', if_pos (by
        rw [htail, List.length_append]
        omega)]
    · refine .ended _ rfl heq fun c' x d hext hx => ?_
      obtain ⟨y, len, hy, heq'⟩ | ⟨_, heq'⟩ := readVarint_cases V VI c' (hext.valid hc)
      · rw [heq'] at hx
        cases hx
        show c.mmap.len < c'.position + len
        by_contra hle
        obtain ⟨tail, htail⟩ := hext.rest_eq hc
        rw [htail] at hy
        have hpos := hext.position
        exact hnone x len (base128_of_append hy (by rw [Cursor.length_rest]; omega))
      · rw [heq'] at hx
        split at hx <;> cases hx

/-- The three outcomes of a byte range read. -/
theorem readBytesRange_cases (len : ℕ) (c : Cursor) :
    (2 ^ 64 ≤ c.position + len ∧
      readBytesRange len c = (.error (invalidData "spool byte range overflow"), c)) ∨
    (c.position + len < 2 ^ 64 ∧ c.mmap.len < c.position + len ∧ readBytesRange len c =
      (.error (unexpectedEof "truncated spool byte range"), c.moveTo c.mmap.len)) ∨
    (c.position + len < 2 ^ 64 ∧ c.position + len ≤ c.mmap.len ∧
      readBytesRange len c = (.ok (c.rest.take len), c.moveTo (c.position + len))) := by
  unfold readBytesRange
  by_cases h1 : 2 ^ 64 ≤ c.position + len
  · exact .inl ⟨h1, if_pos h1⟩
  · by_cases h2 : c.mmap.len < c.position + len
    · exact .inr (.inl ⟨by omega, h2, by rw [if_neg h1, if_pos h2]⟩)
    · exact .inr (.inr ⟨by omega, by omega, by rw [if_neg h1, if_neg h2]⟩)

theorem readBytesRange_stable (len : ℕ) : (readBytesRange len).Stable Stop.isEof := by
  refine ByteReader.Stable.of_outcome fun c hc => ?_
  obtain ⟨hbig, heq⟩ | ⟨_, hlt, heq⟩ | ⟨hlt, hle, heq⟩ := readBytesRange_cases len c
  · refine .fault _ c rfl heq rfl le_rfl hc fun c' hext => ?_
    unfold readBytesRange
    rw [hext.position, if_pos hbig]
  · refine .ended _ rfl heq fun c' a d hext ha => ?_
    obtain ⟨_, heq'⟩ | ⟨_, _, heq'⟩ | ⟨_, _, heq'⟩ := readBytesRange_cases len c' <;>
      rw [heq'] at ha <;> cases ha
    show c.mmap.len < c'.position + len
    rw [hext.position]
    exact hlt
  · refine .read (c.rest.take len) len hle fun c' hext => ?_
    obtain ⟨tail, htail⟩ := hext.rest_eq hc
    have hlen := hext.len_le
    have hpos := hext.position
    have hrest : len ≤ c.rest.length := by
      rw [Cursor.length_rest]
      omega
    unfold readBytesRange
    rw [hpos, if_neg (by omega), if_neg (by omega), htail, List.take_append_of_le_length hrest,
      Cursor.advance, hpos]

theorem readVarint_triple (V : IntegerEncoding) (VI : Type) [SpoolVarint VI] :
    (readVarint V VI).Triple (fun _ => True) (fun e => e.isIo = true) := by
  intro c hc
  have hwithin := (readVarint_stable V VI).within c hc
  refine ⟨fun a d h => ⟨trivial, by rw [h] at hwithin; exact hwithin⟩, fun e d h => ?_⟩
  obtain ⟨x, len, _, heq⟩ | ⟨_, heq⟩ := readVarint_cases V VI c hc
  · rw [heq] at h
    cases h
  · rw [heq] at h
    split at h <;> cases h <;> rfl

theorem readBytesRange_triple (len : ℕ) :
    (readBytesRange len).Triple (fun _ => True) (fun e => e.isIo = true) := by
  intro c hc
  have hwithin := (readBytesRange_stable len).within c hc
  refine ⟨fun a d h => ⟨trivial, by rw [h] at hwithin; exact hwithin⟩, fun e d h => ?_⟩
  obtain ⟨_, heq⟩ | ⟨_, _, heq⟩ | ⟨_, _, heq⟩ := readBytesRange_cases len c <;> rw [heq] at h <;>
    cases h <;> rfl

end StackPulse.SpoolCursor
