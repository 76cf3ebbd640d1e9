import StackPulse.PerfRing
import StackPulse.MemoryWords

/-!
Reading the fields of a record that lies somewhere in memory. A slice knows its address, since
arrays of words are borrowed only where they are aligned. A reader is described by the bytes that
it takes for each result: `Decodes` is an equivalence, so what is accepted is known as well as what
is refused, and the descriptions compose along a sequence of reads.
-/
namespace StackPulse.ByteReaders

open PerfRing MemoryWords

/-- A borrowed slice: where it lies and its elements. -/
structure Slice (α : Type) where
  addr : ℕ
  elems : List α
  deriving DecidableEq, Repr

def isU64Aligned (bytes : Slice UInt8) : Bool := bytes.addr % 8 == 0

/-- The part of a slice from `start` up to `stop`. -/
def Slice.get (bytes : Slice UInt8) (start stop : ℕ) : Option (Slice UInt8) :=
  if start ≤ stop ∧ stop ≤ bytes.elems.length then
    some ⟨bytes.addr + start, (bytes.elems.drop start).take (stop - start)⟩
  else none

def checkedMul (a b : ℕ) : Option ℕ := if a * b < 2 ^ 64 then some (a * b) else none

structure ByteCursor where
  bytes : Slice UInt8
  offset : ℕ
  deriving DecidableEq, Repr

abbrev Reader (α : Type) := StateT ByteCursor Option α

def ByteCursor.new (bytes : Slice UInt8) : ByteCursor := ⟨bytes, 0⟩

def isFinished : Reader Bool := fun c => some (c.offset == c.bytes.elems.length, c)

def readBytes (len : ℕ) : Reader (Slice UInt8) := fun c => do
  let stop ← checkedAdd c.offset len
  let bytes ← c.bytes.get c.offset stop
  pure (bytes, { c with offset := stop })

/-- A word of its width, which need not be aligned. -/
def readWord {α : Type} (W : Word α) : Reader α := do
  let bytes ← readBytes W.width
  pure (W.decode bytes.elems)

def readU16 : Reader UInt16 := readWord u16
def readU32 : Reader UInt32 := readWord u32
def readU64 : Reader UInt64 := readWord u64

/-- An array of words, borrowed from the record. -/
def readU64Slice (len : ℕ) : Reader (Slice UInt64) := do
  let byteLen ← checkedMul len 8
  let bytes ← readBytes byteLen
  if isU64Aligned bytes then pure ⟨bytes.addr, u64.decodeArray len bytes.elems⟩ else failure

variable {α β : Type} {bytes : Slice UInt8} {offset : ℕ}

/-- From the offset on, the reader returns `a` exactly when bytes that stand for `a` come next, and
it stops behind them. -/
def Decodes (bytes : Slice UInt8) (offset : ℕ) (m : Reader α) (L : List UInt8 → α → Prop) : Prop :=
  offset ≤ bytes.elems.length → bytes.elems.length < 2 ^ 64 → ∀ a c,
    m ⟨bytes, offset⟩ = some (a, c) ↔
      ∃ bs, bs <+: bytes.elems.drop offset ∧ L bs a ∧ c = ⟨bytes, offset + bs.length⟩

theorem prefix_drop_length {bs : List UInt8} (h : bs <+: bytes.elems.drop offset)
    (hoffset : offset ≤ bytes.elems.length) : offset + bs.length ≤ bytes.elems.length := by
  have hlen := h.length_le
  rw [List.length_drop] at hlen
  omega

/-- Two blocks come next when the first does and the second does behind it. -/
theorem append_prefix_drop {bs₁ bs₂ : List UInt8} :
    bs₁ ++ bs₂ <+: bytes.elems.drop offset ↔
      bs₁ <+: bytes.elems.drop offset ∧ bs₂ <+: bytes.elems.drop (offset + bs₁.length) := by
  constructor
  · rintro ⟨rest, hrest⟩
    rw [List.append_assoc] at hrest
    refine ⟨⟨_, hrest⟩, rest, ?_⟩
    rw [← List.drop_drop, ← hrest, List.drop_left]
  · rintro ⟨⟨rest, hrest⟩, tail, htail⟩
    refine ⟨tail, ?_⟩
    rw [← List.drop_drop, ← hrest, List.drop_left] at htail
    rw [List.append_assoc, htail, hrest]

theorem Decodes.congr {m : Reader α} {L L' : List UInt8 → α → Prop} (h : Decodes bytes offset m L)
    (heq : ∀ bs a, bs.length < 2 ^ 64 → (L bs a ↔ L' bs a)) : Decodes bytes offset m L' := by
  intro hoffset hlen a c
  rw [h hoffset hlen]
  refine exists_congr fun bs => and_congr_right fun hbs => ?_
  rw [heq bs a (by have := prefix_drop_length hbs hoffset; omega)]

theorem Decodes.pure (a : α) : Decodes bytes offset (pure a) fun bs a' => bs = [] ∧ a' = a := by
  intro _ _ a' c
  show some (a, _) = some (a', c) ↔ _
  constructor
  · intro h
    cases h
    exact ⟨[], List.nil_prefix, ⟨rfl, rfl⟩, rfl⟩
  · rintro ⟨bs, -, ⟨rfl, rfl⟩, rfl⟩
    rfl

theorem Decodes.fail : Decodes bytes offset (failure : Reader α) fun _ _ => False := by
  intro _ _ a c
  refine ⟨fun h => (by cases h), ?_⟩
  rintro ⟨bs, -, h, -⟩
  exact h.elim

theorem Decodes.guard {m : Reader α} {L : List UInt8 → α → Prop} (h : Decodes bytes offset m L)
    (p : Prop) [Decidable p] : Decodes bytes offset (if p then m else failure) fun bs a =>
      p ∧ L bs a := by
  by_cases hp : p
  · rw [if_pos hp]
    exact h.congr fun bs a _ => (and_iff_right hp).symm
  · rw [if_neg hp]
    exact Decodes.fail.congr fun bs a _ => ⟨False.elim, fun h => hp h.1⟩

theorem Decodes.reject {m : Reader α} {L : List UInt8 → α → Prop} (h : Decodes bytes offset m L)
    (p : Prop) [Decidable p] : Decodes bytes offset (if p then failure else m) fun bs a =>
      ¬p ∧ L bs a := by
  rw [← ite_not]
  exact h.guard (¬p)

/-- The block of a sequence is made of the blocks of its parts. -/
theorem Decodes.bind {m : Reader α} {f : α → Reader β} {L : List UInt8 → α → Prop}
    {M : α → List UInt8 → List UInt8 → β → Prop} (hm : Decodes bytes offset m L)
    (hf : ∀ a bs, L bs a → Decodes bytes (offset + bs.length) (f a) (M a bs)) :
    Decodes bytes offset (m >>= f) fun bs b =>
      ∃ a bs₁ bs₂, bs = bs₁ ++ bs₂ ∧ L bs₁ a ∧ M a bs₁ bs₂ b := by
  intro hoffset hlen b c
  have hbind : (m >>= f) ⟨bytes, offset⟩ = some (b, c) ↔
      ∃ a d, m ⟨bytes, offset⟩ = some (a, d) ∧ f a d = some (b, c) := by
    show (m ⟨bytes, offset⟩).bind (fun r => f r.1 r.2) = some (b, c) ↔ _
    rw [Option.bind_eq_some_iff]
    exact ⟨fun ⟨r, hr, hfr⟩ => ⟨r.1, r.2, hr, hfr⟩, fun ⟨a, d, ha, hd⟩ => ⟨(a, d), ha, hd⟩⟩
  rw [hbind]
  constructor
  · rintro ⟨a, d, hfirst, hsecond⟩
    obtain ⟨bs₁, hbs₁, ha, rfl⟩ := (hm hoffset hlen a d).mp hfirst
    obtain ⟨bs₂, hbs₂, hb, rfl⟩ :=
      (hf a bs₁ ha (prefix_drop_length hbs₁ hoffset) hlen b c).mp hsecond
    refine ⟨bs₁ ++ bs₂, append_prefix_drop.mpr ⟨hbs₁, hbs₂⟩, ⟨a, bs₁, bs₂, rfl, ha, hb⟩, ?_⟩
    rw [List.length_append, Nat.add_assoc]
  · rintro ⟨-, hbs, ⟨a, bs₁, bs₂, rfl, ha, hb⟩, rfl⟩
    obtain ⟨hbs₁, hbs₂⟩ := append_prefix_drop.mp hbs
    refine ⟨a, ⟨bytes, offset + bs₁.length⟩, (hm hoffset hlen a _).mpr ⟨bs₁, hbs₁, ha, rfl⟩, ?_⟩
    refine (hf a bs₁ ha (prefix_drop_length hbs₁ hoffset) hlen b _).mpr ⟨bs₂, hbs₂, hb, ?_⟩
    rw [List.length_append, Nat.add_assoc]

/-- A value that may be missing reads nothing. -/
theorem Decodes.lift (o : Option α) :
    Decodes bytes offset (liftM o : Reader α) fun bs a => bs = [] ∧ o = some a := by
  intro _ _ a c
  cases o with
  | none =>
    refine ⟨fun h => (by cases h), ?_⟩
    rintro ⟨bs, -, ⟨-, h⟩, -⟩
    cases h
  | some v =>
    constructor
    · intro h
      cases h
      exact ⟨[], List.nil_prefix, ⟨rfl, rfl⟩, rfl⟩
    · rintro ⟨bs, -, ⟨rfl, h⟩, rfl⟩
      cases h
      rfl

theorem Decodes.get : Decodes bytes offset (get : Reader ByteCursor) fun bs c =>
    bs = [] ∧ c = ⟨bytes, offset⟩ := by
  intro _ _ a c
  constructor
  · intro h
    cases h
    exact ⟨[], List.nil_prefix, ⟨rfl, rfl⟩, rfl⟩
  · rintro ⟨bs, -, ⟨rfl, rfl⟩, rfl⟩
    rfl

/-- A block that a flag announces. -/
theorem Decodes.optional {X : Type} {present : Reader β} {absent : β} {P : X → Prop}
    {enc : Option X → List UInt8} {val : Option X → β} (flag : Bool)
    (h : Decodes bytes offset present fun bs b => ∃ x, P x ∧ bs = enc (some x) ∧ b = val (some x))
    (henc : enc none = []) (hval : val none = absent) :
    Decodes bytes offset (if flag then present else Pure.pure absent) fun bs b =>
      ∃ x : Option X, x.isSome = flag ∧ (∀ y, x = some y → P y) ∧ bs = enc x ∧ b = val x := by
  cases flag with
  | false =>
    rw [if_neg Bool.false_ne_true]
    refine (Decodes.pure absent).congr fun bs b _ => ?_
    constructor
    · rintro ⟨rfl, rfl⟩
      exact ⟨none, rfl, fun y hy => (by cases hy), henc.symm, hval.symm⟩
    · rintro ⟨x, hx, -, rfl, rfl⟩
      cases x with
      | none => exact ⟨henc, hval⟩
      | some y => cases hx
  | true =>
    rw [if_pos rfl]
    refine h.congr fun bs b _ => ?_
    constructor
    · rintro ⟨x, hx, rfl, rfl⟩
      refine ⟨some x, rfl, fun y hy => ?_, rfl, rfl⟩
      cases hy
      exact hx
    · rintro ⟨x, hsome, hx, rfl, rfl⟩
      obtain ⟨y, rfl⟩ := Option.isSome_iff_exists.mp hsome
      exact ⟨y, hx y rfl, rfl, rfl⟩

theorem decodes_readBytes (len : ℕ) : Decodes bytes offset (readBytes len) fun bs a =>
    bs.length = len ∧ a = ⟨bytes.addr + offset, bs⟩ := by
  intro hoffset hlen a c
  unfold readBytes checkedAdd Slice.get
  constructor
  · intro h
    obtain ⟨stop, hstop, h⟩ := Option.bind_eq_some_iff.mp h
    obtain ⟨part, hpart, h⟩ := Option.bind_eq_some_iff.mp h
    split at hstop
    · cases hstop
      split at hpart
      · rename_i _ hbounds
        cases hpart
        cases h
        have htake : ((bytes.elems.drop offset).take len).length = len := by
          rw [List.length_take, List.length_drop]
          exact Nat.min_eq_left (by have := hbounds.2; dsimp only at this; omega)
        refine ⟨(bytes.elems.drop offset).take len, List.take_prefix _ _, ⟨htake, ?_⟩, ?_⟩
        · rw [Nat.add_sub_cancel_left]
        · rw [htake]
      · cases hpart
    · cases hstop
  · rintro ⟨bs, hbs, ⟨rfl, rfl⟩, rfl⟩
    have hbound := prefix_drop_length hbs hoffset
    have hstop : offset + bs.length < 2 ^ 64 := lt_of_le_of_lt hbound hlen
    have htake : (bytes.elems.drop offset).take bs.length = bs :=
      (List.prefix_iff_eq_take.mp hbs).symm
    simp only [if_pos hstop, Option.bind_eq_bind, Option.bind_some]
    rw [if_pos ⟨Nat.le_add_right _ _, hbound⟩]
    simp only [Option.bind_some, Nat.add_sub_cancel_left, htake]
    rfl

theorem decodes_readWord (W : Word α) :
    Decodes bytes offset (readWord W) fun bs a => bs = W.encode a := by
  refine ((decodes_readBytes W.width).bind fun part bs _ => Decodes.pure _).congr fun bs a _ => ?_
  constructor
  · rintro ⟨part, bs₁, bs₂, rfl, ⟨hlen, rfl⟩, rfl, rfl⟩
    rw [List.append_nil, W.encode_decode hlen]
  · rintro rfl
    exact ⟨_, W.encode a, [], (List.append_nil _).symm, ⟨W.length_encode a, rfl⟩, rfl,
      (W.decode_encode a).symm⟩

/-- Reading moves the cursor over the same bytes. -/
theorem readWord_bytes {W : Word α} {a : α} {c c' : ByteCursor} (h : readWord W c = some (a, c')) :
    c'.bytes = c.bytes := by
  obtain ⟨⟨part, d⟩, hpart, h⟩ := Option.bind_eq_some_iff.mp h
  obtain ⟨stop, -, hpart⟩ := Option.bind_eq_some_iff.mp hpart
  obtain ⟨part', -, hpart⟩ := Option.bind_eq_some_iff.mp hpart
  cases hpart
  cases h
  rfl

/-- An array of words is returned where the reader stands, if that is aligned. -/
theorem decodes_readU64Slice (len : ℕ) : Decodes bytes offset (readU64Slice len) fun bs a =>
    (bytes.addr + offset) % 8 = 0 ∧ a.addr = bytes.addr + offset ∧ a.elems.length = len ∧
      bs = u64.encodeArray a.elems := by
  have hbody : Decodes bytes offset (readU64Slice len) _ :=
    (Decodes.lift (checkedMul len 8)).bind fun byteLen bs₀ _ =>
      (decodes_readBytes byteLen).bind fun part bs₁ _ =>
        (Decodes.pure (⟨part.addr, u64.decodeArray len part.elems⟩ : Slice UInt64)).guard
          (isU64Aligned part = true)
  refine hbody.congr fun bs a hshort => ?_
  constructor
  · rintro ⟨byteLen, -, bs', rfl, ⟨rfl, hmul⟩, part, bs₁, -, rfl, ⟨hlen, rfl⟩, haligned, rfl, rfl⟩
    have hbytes : bs₁.length = 8 * len := by
      unfold checkedMul at hmul
      split at hmul
      · cases hmul
        omega
      · cases hmul
    rw [List.nil_append, List.append_nil]
    refine ⟨beq_iff_eq.mp haligned, rfl, u64.length_decodeArray _ _, ?_⟩
    exact (u64.encodeArray_decodeArray hbytes).symm
  · rintro ⟨haligned, haddr, rfl, rfl⟩
    have hlen : (u64.encodeArray a.elems).length = a.elems.length * 8 := by
      rw [u64.length_encodeArray]
      exact Nat.mul_comm _ _
    refine ⟨a.elems.length * 8, [], u64.encodeArray a.elems, rfl, ⟨rfl, if_pos (by omega)⟩,
      ⟨bytes.addr + offset, u64.encodeArray a.elems⟩, u64.encodeArray a.elems, [],
      (List.append_nil _).symm, ⟨hlen, rfl⟩, beq_iff_eq.mpr haligned, rfl, ?_⟩
    rw [u64.decodeArray_encodeArray, ← haddr]

end StackPulse.ByteReaders
