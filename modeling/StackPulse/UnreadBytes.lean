import StackPulse.SpoolCursor

/-!
Readers look at unread bytes only. Two mappings of one length that agree from the
cursor on are read alike, whatever the bytes before the cursor have become; so the
pages of a spool that were consumed can be given back while it is being followed.
-/
namespace StackPulse.UnreadBytes

open Bytes Bytes.ByteReader Varint SpoolCursor

/-- Two cursors at one place with the same bytes ahead of them. -/
structure Agrees (c c' : Cursor) : Prop where
  position : c.position = c'.position
  len : c.mmap.len = c'.mmap.len
  rest : c.rest = c'.rest

/-- The reader gives the same result on agreeing cursors, and they agree afterwards. -/
def Ahead {ε α : Type} (m : ByteReader ε α) : Prop :=
  ∀ c c', Agrees c c' → (m c).1 = (m c').1 ∧ Agrees (m c).2 (m c').2

namespace Agrees

variable {c c' : Cursor}

theorem advance (h : Agrees c c') (n : ℕ) : Agrees (c.advance n) (c'.advance n) where
  position := congrArg (· + n) h.position
  len := h.len
  rest := by rw [c.rest_advance, c'.rest_advance, h.rest]

/-- At the end of the mapping nothing is left to read. -/
theorem toEnd (h : Agrees c c') : Agrees (c.moveTo c.mmap.len) (c'.moveTo c'.mmap.len) where
  position := h.len
  len := h.len
  rest := by
    show c.mmap.bytes.drop c.mmap.len = c'.mmap.bytes.drop c'.mmap.len
    rw [Mmap.len, List.drop_length, Mmap.len, List.drop_length]

theorem getElem? (h : Agrees c c') : c.mmap.bytes[c.position]? = c'.mmap.bytes[c'.position]? := by
  have hhead : ∀ c : Cursor, c.mmap.bytes[c.position]? = c.rest[0]? := by
    intro c
    rw [Cursor.rest, List.getElem?_drop, Nat.add_zero]
  rw [hhead, hhead, h.rest]

end Agrees

namespace Ahead

variable {ε α β : Type} {m : ByteReader ε α}

theorem pure (a : α) : Ahead (Pure.pure a : ByteReader ε α) := fun _ _ h => ⟨rfl, h⟩

theorem fail (e : ε) : Ahead (ByteReader.fail e : ByteReader ε α) := fun _ _ h => ⟨rfl, h⟩

theorem bind {f : α → ByteReader ε β} {Q : α → Prop} (hm : Ahead m)
    (hvalues : ∀ c a d, m c = (.ok a, d) → Q a) (hf : ∀ a, Q a → Ahead (f a)) :
    Ahead (m >>= f) := by
  intro c c' h
  obtain ⟨hresult, hagrees⟩ := hm c c' h
  rcases hc : m c with ⟨e | a, d⟩ <;> rcases hc' : m c' with ⟨e' | a', d'⟩ <;>
    rw [hc, hc'] at hresult hagrees
  · cases hresult
    rw [bind_of_error hc, bind_of_error hc']
    exact ⟨rfl, hagrees⟩
  · cases hresult
  · cases hresult
  · cases hresult
    rw [bind_of_ok hc, bind_of_ok hc']
    exact hf a (hvalues c a d hc) d d' hagrees

end Ahead

theorem readTag_ahead : Ahead readTag := by
  intro c c' h
  unfold readTag
  rw [h.position, h.len, ← h.position, h.getElem?, h.position]
  split
  · exact ⟨rfl, h⟩
  · split
    · exact ⟨rfl, h.advance 1⟩
    · exact ⟨rfl, h⟩

theorem readBytesRange_ahead (len : ℕ) : Ahead (readBytesRange len) := by
  intro c c' h
  unfold readBytesRange
  rw [h.position, h.len, h.rest]
  split
  · exact ⟨rfl, h⟩
  · split
    · have hend := h.toEnd
      rw [h.len] at hend
      exact ⟨rfl, hend⟩
    · have hadvance := h.advance len
      rw [Cursor.advance, h.position] at hadvance
      exact ⟨rfl, hadvance⟩

variable (V : IntegerEncoding)

theorem readVarint_ahead (VI : Type) [SpoolVarint VI] : Ahead (readVarint V VI) := by
  intro c c' h
  unfold readVarint
  rw [h.position, h.len, h.rest]
  split
  · exact ⟨rfl, h⟩
  · split
    · exact ⟨rfl, h.advance _⟩
    · unfold readVarintSlow
      rw [h.rest]
      split
      · exact ⟨rfl, h.advance _⟩
      · split
        · exact ⟨rfl, h⟩
        · exact ⟨rfl, h.toEnd⟩

end StackPulse.UnreadBytes
