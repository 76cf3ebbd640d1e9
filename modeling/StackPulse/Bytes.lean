import Mathlib.Algebra.GroupWithZero.Nat
import Mathlib.Data.List.Infix

/-!
A reader over bytes mapped into memory. The cursor survives a failed read, so
a caller can tell an input that ended too early from an input that is wrong.
Three judgements about readers are closed under sequencing: `Parses` (the
result on a known encoding), `Stable` (what happens when the input grows at its
end) and `Triple` (facts about values and about errors).
-/
namespace StackPulse.Bytes

/-- Bytes mapped into memory. An allocation never exceeds `isize::MAX` bytes. -/
structure Mmap where
  bytes : List UInt8
  length_lt : bytes.length < 2 ^ 63
  deriving DecidableEq

namespace Mmap

def len (m : Mmap) : ℕ := m.bytes.length

/-- The first bytes of a mapping are a mapping. -/
def take (m : Mmap) (n : ℕ) : Mmap where
  bytes := m.bytes.take n
  length_lt := lt_of_le_of_lt (List.length_take_le' n m.bytes) m.length_lt

theorem len_take (m : Mmap) (n : ℕ) : (m.take n).len = min n m.len := List.length_take

theorem take_bytes (m : Mmap) (n : ℕ) : (m.take n).bytes <+: m.bytes := List.take_prefix n m.bytes

theorem ext_bytes {m m' : Mmap} (h : m.bytes = m'.bytes) : m = m' := by
  cases m
  cases m'
  simpa using h

end Mmap

structure Cursor where
  mmap : Mmap
  position : ℕ
  deriving DecidableEq

namespace Cursor

/-- The unread bytes. -/
def rest (c : Cursor) : List UInt8 := c.mmap.bytes.drop c.position

def moveTo (c : Cursor) (position : ℕ) : Cursor := { c with position := position }

def advance (c : Cursor) (n : ℕ) : Cursor := c.moveTo (c.position + n)

def Valid (c : Cursor) : Prop := c.position ≤ c.mmap.len

/-- `c'` stands at the same place of a mapping that extends the mapping of `c`. -/
structure Extends (c c' : Cursor) : Prop where
  bytes : c.mmap.bytes <+: c'.mmap.bytes
  position : c'.position = c.position

section

variable (c : Cursor)

include c

@[simp] theorem moveTo_mmap (p : ℕ) : (c.moveTo p).mmap = c.mmap := rfl
@[simp] theorem moveTo_position (p : ℕ) : (c.moveTo p).position = p := rfl
@[simp] theorem moveTo_moveTo (p q : ℕ) : (c.moveTo p).moveTo q = c.moveTo q := rfl
@[simp] theorem moveTo_self : c.moveTo c.position = c := rfl
@[simp] theorem advance_mmap (n : ℕ) : (c.advance n).mmap = c.mmap := rfl
@[simp] theorem advance_position (n : ℕ) : (c.advance n).position = c.position + n := rfl
@[simp] theorem advance_zero : c.advance 0 = c := rfl

theorem advance_advance (m n : ℕ) : (c.advance m).advance n = c.advance (m + n) := by
  simp only [advance, moveTo, Nat.add_assoc]

theorem rest_advance (n : ℕ) : (c.advance n).rest = c.rest.drop n := by
  simp only [rest, advance_mmap, advance_position, List.drop_drop]

theorem rest_advance_append (bs tail : List UInt8) (h : c.rest = bs ++ tail) :
    (c.advance bs.length).rest = tail := by
  rw [rest_advance, h, List.drop_left]

theorem length_rest : c.rest.length = c.mmap.len - c.position := by
  simp only [rest, List.length_drop, Mmap.len]

theorem valid_of_rest_append (hc : c.Valid) (bs tail : List UInt8) (h : c.rest = bs ++ tail) :
    c.position + bs.length ≤ c.mmap.len := by
  have hlen := congrArg List.length h
  rw [length_rest, List.length_append] at hlen
  unfold Valid at hc
  omega

end

theorem Valid.advance {c : Cursor} (hc : c.Valid) (bs tail : List UInt8)
    (h : c.rest = bs ++ tail) : (c.advance bs.length).Valid :=
  c.valid_of_rest_append hc bs tail h

namespace Extends

variable {c c' : Cursor}

theorem refl (c : Cursor) : c.Extends c := ⟨List.prefix_rfl, rfl⟩

theorem len_le (h : c.Extends c') : c.mmap.len ≤ c'.mmap.len := h.bytes.length_le

theorem valid (h : c.Extends c') (hc : c.Valid) : c'.Valid := by
  have hle := h.len_le
  have hpos := h.position
  unfold Valid at *
  omega

/-- The longer mapping continues the unread bytes. -/
theorem rest_eq (h : c.Extends c') (hc : c.Valid) : ∃ tail, c'.rest = c.rest ++ tail := by
  obtain ⟨tail, htail⟩ := h.bytes
  refine ⟨tail, ?_⟩
  unfold Cursor.rest
  rw [h.position, ← htail, List.drop_append_of_le_length hc]

end Extends
end Cursor

/-- A read returns a value or an error, and moves the cursor in both cases. -/
def ByteReader (ε α : Type) := Cursor → Except ε α × Cursor

variable {ε α β : Type}

namespace ByteReader

variable {m : ByteReader ε α} {d c : Cursor} {f : α → ByteReader ε β}

instance : Monad (ByteReader ε) where
  pure a := fun c => (.ok a, c)
  bind m f := fun c => match m c with
    | (.ok a, d) => f a d
    | (.error e, d) => (.error e, d)

/-- Fail where the cursor stands. -/
def fail (e : ε) : ByteReader ε α := fun c => (.error e, c)

def ofExcept (r : Except ε α) : ByteReader ε α := fun c => (r, c)

theorem pure_apply (a : α) (c : Cursor) : (pure a : ByteReader ε α) c = (.ok a, c) := rfl

theorem bind_of_ok {a : α} (h : m c = (.ok a, d)) : (m >>= f) c = f a d := by
  change (match m c with
    | (.ok a, d) => f a d
    | (.error e, d) => (.error e, d)) = _
  rw [h]

theorem bind_of_error {e : ε} (h : m c = (.error e, d)) : (m >>= f) c = (.error e, d) := by
  change (match m c with
    | (.ok a, d) => f a d
    | (.error e, d) => (.error e, d)) = _
  rw [h]

theorem map_id_eq (m : ByteReader ε α) : id <$> m = m := by
  funext c
  change (match m c with
    | (.ok a, d) => (.ok a, d)
    | (.error e, d) => (.error e, d)) = m c
  rcases m c with ⟨_ | _, _⟩ <;> rfl

theorem bind_bind_eq {γ : Type} (m : ByteReader ε α) (f : α → ByteReader ε β)
    (g : β → ByteReader ε γ) : m >>= f >>= g = m >>= fun a => f a >>= g := by
  funext c
  rcases hm : m c with ⟨e | a, d⟩
  · rw [bind_of_error (bind_of_error hm), bind_of_error hm]
  · rw [bind_of_ok hm]
    rcases hf : f a d with ⟨e | b, d'⟩
    · rw [bind_of_error ((bind_of_ok hm).trans hf), bind_of_error hf]
    · rw [bind_of_ok ((bind_of_ok hm).trans hf), bind_of_ok hf]

instance : LawfulMonad (ByteReader ε) :=
  LawfulMonad.mk' _ map_id_eq (fun _ _ => rfl) bind_bind_eq

/-- A successful sequence has a successful first read. -/
theorem bind_eq_ok {b : β} (h : (m >>= f) c = (.ok b, d)) :
    ∃ a c', m c = (.ok a, c') ∧ f a c' = (.ok b, d) := by
  rcases hm : m c with ⟨r, c'⟩
  cases r with
  | error e =>
    rw [bind_of_error hm] at h
    cases h
  | ok a =>
    rw [bind_of_ok hm] at h
    exact ⟨a, c', rfl, h⟩

theorem map_of_ok {f : α → β} {a : α} (h : m c = (.ok a, d)) : (f <$> m) c = (.ok (f a), d) :=
  bind_of_ok h

theorem map_of_error {f : α → β} {e : ε} (h : m c = (.error e, d)) : (f <$> m) c = (.error e, d) :=
  bind_of_error h

theorem map_eq_ok {f : α → β} {b : β} (h : (f <$> m) c = (.ok b, d)) :
    ∃ a, m c = (.ok a, d) ∧ b = f a := by
  obtain ⟨a, c', hm, hpure⟩ := bind_eq_ok h
  cases hpure
  exact ⟨a, hm, rfl⟩

/-- On every input that continues the bytes `bs` the reader gives the result `r`,
and a successful read consumes exactly `bs`. -/
def Parses (m : ByteReader ε α) (bs : List UInt8) (r : Except ε α) : Prop :=
  ∀ (c : Cursor) (tail : List UInt8), c.Valid → c.rest = bs ++ tail →
    (m c).1 = r ∧ ∀ a, r = .ok a → (m c).2 = c.advance bs.length

namespace Parses

variable {bs : List UInt8} {r : Except ε α} {g : α → Except ε β}

theorem pure (a : α) : Parses (Pure.pure a : ByteReader ε α) [] (.ok a) := by
  intro c tail _ _
  exact ⟨rfl, fun _ _ => rfl⟩

theorem fail (e : ε) (bs : List UInt8) :
    Parses (ByteReader.fail e : ByteReader ε α) bs (.error e) := by
  intro c tail _ _
  exact ⟨rfl, fun a ha => by cases ha⟩

theorem ofExcept (r : Except ε α) : Parses (ByteReader.ofExcept r) [] r := by
  intro c tail _ _
  exact ⟨rfl, fun _ _ => rfl⟩

theorem run {a : α} (h : Parses m bs (.ok a)) {tail : List UInt8} (hc : c.Valid)
    (hrest : c.rest = bs ++ tail) : m c = (.ok a, c.advance bs.length) := by
  obtain ⟨h1, h2⟩ := h c tail hc hrest
  exact Prod.ext h1 (h2 a rfl)

theorem run_error {e : ε} (h : Parses m bs (.error e)) {tail : List UInt8}
    (hc : c.Valid) (hrest : c.rest = bs ++ tail) : ∃ d, m c = (.error e, d) :=
  ⟨(m c).2, Prod.ext (h c tail hc hrest).1 rfl⟩

theorem bind {bs' : List UInt8} {a : α} {r : Except ε β} (hm : Parses m bs (.ok a))
    (hf : Parses (f a) bs' r) : Parses (m >>= f) (bs ++ bs') r := by
  intro c tail hc hrest
  rw [List.append_assoc] at hrest
  rw [bind_of_ok (hm.run hc hrest)]
  obtain ⟨h1, h2⟩ := hf (c.advance bs.length) tail (hc.advance bs _ hrest)
    (c.rest_advance_append bs _ hrest)
  refine ⟨h1, fun b hb => ?_⟩
  rw [h2 b hb, Cursor.advance_advance, List.length_append]

theorem bind_error {e : ε} (bs' : List UInt8) (hm : Parses m bs (.error e)) :
    Parses (m >>= f) (bs ++ bs') (.error e) := by
  intro c tail hc hrest
  rw [List.append_assoc] at hrest
  obtain ⟨d, hd⟩ := hm.run_error hc hrest
  rw [bind_of_error hd]
  exact ⟨rfl, fun b hb => by cases hb⟩

/-- The encoding is part of a mapping, so its length is bounded. -/
theorem of_length_lt (h : bs.length < 2 ^ 63 → Parses m bs r) : Parses m bs r := by
  intro c tail hc hrest
  have hle := c.valid_of_rest_append hc bs tail hrest
  have hlt := c.mmap.length_lt
  unfold Mmap.len at hle
  exact h (by omega) c tail hc hrest

/-- A read whose result is `r`, followed by a read for each value it can give. -/
theorem bind_except {bs' : List UInt8} (hm : Parses m bs r)
    (hf : ∀ a, r = .ok a → Parses (f a) bs' (g a)) : Parses (m >>= f) (bs ++ bs') (r >>= g) := by
  cases r with
  | error e => exact bind_error bs' hm
  | ok a => exact bind hm (hf a rfl)

/-- A check reads nothing. -/
theorem check_bind (hf : ∀ a, r = .ok a → Parses (f a) bs (g a)) :
    Parses (ByteReader.ofExcept r >>= f) bs (r >>= g) := by
  cases r with
  | error e => exact fail e bs
  | ok a => exact hf a rfl

/-- The last read of an encoding. -/
theorem bind_nil {a : α} {r : Except ε β} (hm : Parses m bs (.ok a)) (hf : Parses (f a) [] r) :
    Parses (m >>= f) bs r := by
  have h := hm.bind hf
  rw [List.append_nil] at h
  exact h

theorem bind_except_nil (hm : Parses m bs r) (hf : ∀ a, r = .ok a → Parses (f a) [] (g a)) :
    Parses (m >>= f) bs (r >>= g) := by
  have h := hm.bind_except hf
  rw [List.append_nil] at h
  exact h

theorem map (f : α → β) (hm : Parses m bs r) : Parses (f <$> m) bs (f <$> r) := by
  intro c tail hc hrest
  cases r with
  | error e =>
    obtain ⟨d, hd⟩ := hm.run_error hc hrest
    rw [map_of_error hd]
    exact ⟨rfl, fun b hb => by cases hb⟩
  | ok a =>
    rw [map_of_ok (hm.run hc hrest)]
    exact ⟨rfl, fun _ _ => rfl⟩

end Parses

/-- Every value of the reader satisfies `Q` and every error satisfies `E`. -/
def Triple (m : ByteReader ε α) (Q : α → Prop) (E : ε → Prop) : Prop :=
  ∀ c, c.Valid → (∀ a d, m c = (.ok a, d) → Q a ∧ d.Valid) ∧
    (∀ e d, m c = (.error e, d) → E e)

namespace Triple

variable {Q : α → Prop} {R : β → Prop} {E : ε → Prop}

theorem pure {a : α} (h : Q a) : Triple (Pure.pure a : ByteReader ε α) Q E := by
  intro c hc
  refine ⟨fun b d hb => ?_, fun e d he => ?_⟩
  · cases hb
    exact ⟨h, hc⟩
  · cases he

theorem fail {e : ε} (h : E e) : Triple (ByteReader.fail e : ByteReader ε α) Q E := by
  intro c hc
  refine ⟨fun b d hb => ?_, fun e' d he => ?_⟩
  · cases hb
  · cases he
    exact h

theorem bind (hm : Triple m Q E) (hf : ∀ a, Q a → Triple (f a) R E) : Triple (m >>= f) R E := by
  intro c hc
  rcases hmc : m c with ⟨r, d⟩
  cases r with
  | ok a =>
    obtain ⟨ha, hd⟩ := (hm c hc).1 a d hmc
    rw [bind_of_ok hmc]
    exact hf a ha d hd
  | error e =>
    have he := (hm c hc).2 e d hmc
    rw [bind_of_error hmc]
    refine ⟨fun b d' hb => ?_, fun e' d' he' => ?_⟩
    · cases hb
    · cases he'
      exact he

theorem map {f : α → β} (hm : Triple m (fun a => R (f a)) E) : Triple (f <$> m) R E :=
  hm.bind fun _ ha => pure ha

end Triple

/-- Successful reads and definite errors do not depend on bytes after the end of
the input. An error marked by `eof` is raised only when the input is used up, and
the read can then succeed only by going beyond that end. -/
structure Stable (eof : ε → Bool) (m : ByteReader ε α) : Prop where
  mmap_eq : ∀ c, c.Valid → (m c).2.mmap = c.mmap
  forward : ∀ c, c.Valid → c.position ≤ (m c).2.position
  within : ∀ c, c.Valid → (m c).2.Valid
  done : ∀ c c' a, c.Valid → c.Extends c' → (m c).1 = .ok a →
    m c' = (.ok a, c'.moveTo (m c).2.position)
  fault : ∀ c c' e, c.Valid → c.Extends c' → (m c).1 = .error e → eof e = false →
    (m c').1 = .error e
  ended : ∀ c e, c.Valid → (m c).1 = .error e → eof e = true →
    (m c).2.position = c.mmap.len
  beyond : ∀ c c' e a, c.Valid → c.Extends c' → (m c).1 = .error e → eof e = true →
    (m c').1 = .ok a → c.mmap.len < (m c').2.position

/-- What a reader does at a place, now and after the input has grown. -/
inductive Outcome (eof : ε → Bool) (m : ByteReader ε α) (c : Cursor) : Prop
  | read (a : α) (n : ℕ) (hle : c.position + n ≤ c.mmap.len)
      (hread : ∀ c', c.Extends c' → m c' = (.ok a, c'.advance n))
  | fault (e : ε) (d : Cursor) (hdef : eof e = false) (hnow : m c = (.error e, d))
      (hmmap : d.mmap = c.mmap) (hle : c.position ≤ d.position) (hd : d.Valid)
      (hlater : ∀ c', c.Extends c' → (m c').1 = .error e)
  | ended (e : ε) (heof : eof e = true) (hnow : m c = (.error e, c.moveTo c.mmap.len))
      (hlater : ∀ c' a d, c.Extends c' → m c' = (.ok a, d) → c.mmap.len < d.position)

namespace Stable

variable {eof : ε → Bool}

theorem outcome (h : Stable eof m) (hc : c.Valid) : Outcome eof m c := by
  have hmmap := h.mmap_eq c hc
  have hforward := h.forward c hc
  have hwithin := h.within c hc
  rcases hmc : m c with ⟨e | a, d⟩ <;> rw [hmc] at hmmap hforward hwithin
  · cases heof : eof e with
    | false =>
      exact .fault e d heof hmc hmmap hforward hwithin fun c' hext =>
        h.fault c c' e hc hext (by rw [hmc]) heof
    | true =>
      have hended := h.ended c e hc (by rw [hmc]) heof
      rw [hmc] at hended
      refine .ended e heof ?_ fun c' a d' hext ha => ?_
      · rw [hmc, ← hended, Cursor.moveTo, ← hmmap]
      · have hbeyond := h.beyond c c' e a hc hext (by rw [hmc]) heof (by rw [ha])
        rw [ha] at hbeyond
        exact hbeyond
  · refine .read a (d.position - c.position) ?_ fun c' hext => ?_
    · rw [Nat.add_sub_cancel' hforward, ← hmmap]
      exact hwithin
    · rw [h.done c c' a hc hext (by rw [hmc]), hmc, Cursor.advance, hext.position,
        Nat.add_sub_cancel' hforward]

theorem of_outcome (h : ∀ c, c.Valid → Outcome eof m c) : Stable eof m := by
  have read : ∀ c, c.Valid → (m c).2.mmap = c.mmap ∧ c.position ≤ (m c).2.position ∧
      (m c).2.Valid := by
    intro c hc
    obtain ⟨a, n, hle, hread⟩ | ⟨e, d, -, hnow, hmmap, hle, hd, -⟩ | ⟨e, -, hnow, -⟩ := h c hc
    · rw [hread c (.refl c)]
      exact ⟨rfl, Nat.le_add_right _ _, hle⟩
    · rw [hnow]
      exact ⟨hmmap, hle, hd⟩
    · rw [hnow]
      exact ⟨rfl, hc, le_rfl⟩
  refine ⟨fun c hc => (read c hc).1, fun c hc => (read c hc).2.1, fun c hc => (read c hc).2.2,
    fun c c' a hc hext ha => ?_, fun c c' e hc hext he hdef => ?_, fun c e hc he heof => ?_,
    fun c c' e a hc hext he heof ha => ?_⟩ <;>
  obtain ⟨b, n, -, hread⟩ | ⟨f, d, hf, hnow, -, -, -, hlater⟩ | ⟨f, hf, hnow, hlater⟩ := h c hc
  · rw [hread c (.refl c)] at ha ⊢
    cases ha
    rw [hread c' hext, Cursor.advance, hext.position]
    rfl
  all_goals first
    | (rw [hnow] at ha; cases ha)
    | (rw [hread c (.refl c)] at he; cases he)
    | (rw [hnow] at he; cases he)
  · exact hlater c' hext
  · rw [hdef] at hf
    cases hf
  · rw [heof] at hf
    cases hf
  · rw [hnow]
    rfl
  · rw [hlater c' hext] at ha
    cases ha
  · exact hlater c' a (m c').2 hext (Prod.ext ha rfl)

theorem pure (a : α) : Stable eof (Pure.pure a : ByteReader ε α) :=
  of_outcome fun _ hc => .read a 0 hc fun _ _ => rfl

theorem fail (e : ε) (he : eof e = false) : Stable eof (ByteReader.fail e : ByteReader ε α) :=
  of_outcome fun c hc => .fault e c he rfl rfl le_rfl hc fun _ _ => rfl

theorem ofExcept (r : Except ε α) (hr : ∀ e, r = .error e → eof e = false) :
    Stable eof (ByteReader.ofExcept r) := by
  cases r with
  | ok a => exact pure a
  | error e => exact fail e (hr e rfl)

/-- The rest of a sequence has to be stable only for the values that can come first. -/
theorem bind_of {Q : α → Prop} (hm : Stable eof m) (hvalues : ∀ c a d, m c = (.ok a, d) → Q a)
    (hrest : ∀ a, Q a → Stable eof (f a)) : Stable eof (m >>= f) := by
  refine of_outcome fun c hc => ?_
  obtain ⟨a, n, hle, hread⟩ | ⟨e, d, hdef, hnow, hmmap, hle, hd, hlater⟩ |
    ⟨e, heof, hnow, hlater⟩ :=
    hm.outcome hc
  · have hbind : ∀ c', c.Extends c' → (m >>= f) c' = f a (c'.advance n) := fun c' hext =>
      bind_of_ok (hread c' hext)
    have hadvance : ∀ c', c.Extends c' → (c.advance n).Extends (c'.advance n) := fun c' hext =>
      ⟨hext.bytes, congrArg (· + n) hext.position⟩
    have hf := hrest a (hvalues c a _ (hread c (.refl c)))
    obtain ⟨b, k, hle', hread'⟩ | ⟨e, d, hdef, hnow, hmmap, hle', hd, hlater⟩ |
      ⟨e, heof, hnow, hlater⟩ := hf.outcome (c := c.advance n) hle
    · refine .read b (n + k) ?_ fun c' hext => ?_
      · rw [← Nat.add_assoc]
        exact hle'
      · rw [hbind c' hext, hread' _ (hadvance c' hext), Cursor.advance_advance]
    · refine .fault e d hdef ((hbind c (.refl c)).trans hnow) hmmap
        ((Nat.le_add_right _ _).trans hle') hd fun c' hext => ?_
      rw [hbind c' hext]
      exact hlater _ (hadvance c' hext)
    · refine .ended e heof ((hbind c (.refl c)).trans hnow) fun c' b d hext hb => ?_
      rw [hbind c' hext] at hb
      exact hlater _ b d (hadvance c' hext) hb
  · refine .fault e d hdef (bind_of_error hnow) hmmap hle hd fun c' hext => ?_
    rw [bind_of_error (d := (m c').2) (Prod.ext (hlater c' hext) rfl)]
  · refine .ended e heof (bind_of_error hnow) fun c' b d hext hb => ?_
    obtain ⟨a, d', ha, hb⟩ := bind_eq_ok hb
    have hvalid := hm.within c' (hext.valid hc)
    rw [ha] at hvalid
    have hforward := (hrest a (hvalues c' a d' ha)).forward d' hvalid
    rw [hb] at hforward
    exact Nat.lt_of_lt_of_le (hlater c' a d' hext ha) hforward

theorem bind (hm : Stable eof m) (hf : ∀ a, Stable eof (f a)) : Stable eof (m >>= f) :=
  hm.bind_of (Q := fun _ => True) (fun _ _ _ _ => trivial) fun a _ => hf a

theorem map (f : α → β) (hm : Stable eof m) : Stable eof (f <$> m) := hm.bind fun a => pure (f a)

end Stable
end ByteReader
end StackPulse.Bytes
