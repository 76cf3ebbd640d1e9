import StackPulse.RingCommits

/-!
Consumption of a perf ring, over every run of the kernel, the reader and the
holders of records. Records show the bytes of the stream for as long as they are
held, the tail follows the oldest record that is still mapped, and a failed call
changes nothing.
-/
namespace StackPulse.RingConsumption

open Model IntervalSet PerfRing RingCommits

variable {stream : ℕ → UInt8} {w w' : World} {rs : List (ℕ × ℕ)} {len p q : ℕ} {r : ℕ × ℕ}

def streamBytes (stream : ℕ → UInt8) (start len : ℕ) : List UInt8 :=
  (List.range len).map fun i => stream (start + i)

/-- The extent of a record that is still mapped. -/
def extent (h : Held) : Option (ℕ × ℕ) :=
  match h.record with
  | .mapped start stop _ _ => some (start, stop)
  | .owned _ => none

def mappedExtents (w : World) : List (ℕ × ℕ) := w.held.filterMap extent

theorem offsetOf_eq (m : RingMapping) (position : ℕ) :
    m.offsetOf position = position % m.dataSize := by
  obtain ⟨k, hk⟩ := m.isPowerOfTwo
  unfold RingMapping.offsetOf
  rw [hk]
  exact Nat.and_two_pow_sub_one_eq_mod position k

theorem dataSize_pos (m : RingMapping) : 0 < m.dataSize := by
  obtain ⟨k, hk⟩ := m.isPowerOfTwo
  rw [hk]
  exact Nat.two_pow_pos k

/-- The cells of the positions from `low` up to `high` hold the stream. -/
def Shows (m : RingMapping) (stream : ℕ → UInt8) (low high : ℕ) : Prop :=
  ∀ p, low ≤ p → p < high → m.data (p % m.dataSize) = stream p

section

variable {m : RingMapping} {low high : ℕ}

theorem Shows.byteAt (h : Shows m stream low high) (hlow : low ≤ p) (hhigh : p < high) :
    m.byteAt p = stream p := by
  unfold RingMapping.byteAt
  rw [offsetOf_eq]
  exact h p hlow hhigh

theorem Shows.slice (h : Shows m stream low high) {start offset : ℕ} (hlow : low ≤ start)
    (hhigh : start + len ≤ high) (hoffset : offset = start % m.dataSize)
    (hfits : offset + len ≤ m.dataSize) : m.slice offset len = streamBytes stream start len := by
  apply List.map_congr_left
  intro i hi
  have hi' := List.mem_range.mp hi
  have hcell : (start + i) % m.dataSize = offset + i := by
    have hdiv := Nat.div_add_mod start m.dataSize
    have hsum : start + i = (offset + i) + m.dataSize * (start / m.dataSize) := by omega
    rw [hsum, Nat.add_mul_mod_self_left]
    exact Nat.mod_eq_of_lt (by omega)
  rw [← hcell]
  exact h (start + i) (by omega) (by omega)

theorem streamBytes_append (stream : ℕ → UInt8) (start a b : ℕ) :
    streamBytes stream start a ++ streamBytes stream (start + a) b =
      streamBytes stream start (a + b) := by
  unfold streamBytes
  rw [List.range_add, List.map_append, List.map_map]
  congr 1
  apply List.map_congr_left
  intro i _
  show stream (start + a + i) = stream (start + (a + i))
  rw [Nat.add_assoc]

/-- The two slices of a record that wraps around the end of the ring. -/
theorem Shows.wrapped (h : Shows m stream low high) {start offset : ℕ} (hlow : low ≤ start)
    (hhigh : start + len ≤ high) (hlen : len ≤ m.dataSize) (hoffset : offset = start % m.dataSize)
    (hwraps : m.dataSize < offset + len) :
    m.slice offset (m.dataSize - offset) ++ m.slice 0 (len - (m.dataSize - offset)) =
      streamBytes stream start len := by
  have hpos := dataSize_pos m
  have hlt : offset < m.dataSize := hoffset ▸ Nat.mod_lt start hpos
  have hturn : (start + (m.dataSize - offset)) % m.dataSize = 0 := by
    have hdiv := Nat.div_add_mod start m.dataSize
    have hsum : start + (m.dataSize - offset) = m.dataSize * (start / m.dataSize + 1) := by
      rw [Nat.mul_add, Nat.mul_one]
      omega
    rw [hsum, Nat.mul_mod_right]
  have hsecond : m.slice 0 (len - (m.dataSize - offset)) =
      streamBytes stream (start + (m.dataSize - offset)) (len - (m.dataSize - offset)) :=
    h.slice (by omega) (by omega) hturn.symm (by omega)
  rw [h.slice hlow (by omega) hoffset (by omega), hsecond, streamBytes_append]
  congr 1
  omega

end

/-- A mapping whose tail is the committed position of its commit state. -/
structure Tailed (m : RingMapping) (readPos : ℕ) (mapped : List (ℕ × ℕ)) : Prop where
  commits : Commits m.commits readPos mapped
  tail : m.dataTail = m.commits.committed

theorem Tailed.complete {m : RingMapping} {readPos : ℕ} {rest : List (ℕ × ℕ)}
    (h : Tailed m readPos (r :: rest)) :
    Tailed (m.complete r.1 r.2) readPos rest ∧ m.dataTail ≤ (m.complete r.1 r.2).dataTail ∧
      (m.complete r.1 r.2).data = m.data ∧ (m.complete r.1 r.2).dataSize = m.dataSize := by
  unfold RingMapping.complete
  by_cases hfirst : r.1 = m.commits.committed
  · obtain ⟨c, hcomplete, hle, hcommits⟩ := h.commits.complete_first hfirst
    rw [hcomplete]
    exact ⟨⟨hcommits, rfl⟩, h.tail ▸ hle, rfl, rfl⟩
  · obtain ⟨pending, hcomplete, hcommits⟩ := h.commits.complete_later hfirst
    rw [hcomplete]
    exact ⟨⟨hcommits, h.tail⟩, le_rfl, rfl, rfl⟩

theorem Tailed.perm {m : RingMapping} {readPos : ℕ} {mapped mapped' : List (ℕ × ℕ)}
    (h : Tailed m readPos mapped) (hperm : mapped.Perm mapped') : Tailed m readPos mapped' :=
  ⟨h.commits.perm hperm, h.tail⟩

/-- The length that the stream has in the header of the record at a position. -/
def headerLen (stream : ℕ → UInt8) (position : ℕ) : ℕ :=
  (stream (position + 6)).toNat + 256 * (stream (position + 7)).toNat

/-- A call either changes nothing and returns no record, or takes a record that
passed all checks. -/
theorem nextRecordTo_cases (ring : RingBuffer) (head : ℕ) :
    (∃ result, ring.nextRecordTo head = (result, ring) ∧ ∀ record, result ≠ .ok (some record)) ∨
    ∃ len, len = ring.recordLen (ring.readPos + 6) ∧ 8 ≤ len ∧ len ≤ ring.mapping.dataSize ∧
      ring.readPos + len ≤ head ∧ ring.readPos + len < 2 ^ 64 ∧
      ring.nextRecordTo head = (.ok (some (ring.takeRecord (ring.readPos + len) len).1),
        (ring.takeRecord (ring.readPos + len) len).2) := by
  have herror : ∀ e : Stop, ∀ record, (.error e : Except Stop (Option RingRecord)) ≠
      .ok (some record) := fun e record h => by cases h
  unfold RingBuffer.nextRecordTo
  by_cases hsame : head = ring.readPos
  · rw [if_pos hsame]
    exact .inl ⟨_, rfl, fun record h => by cases h⟩
  rw [if_neg hsame]
  by_cases hless : head < ring.readPos
  · rw [if_pos hless]
    exact .inl ⟨_, rfl, herror _⟩
  rw [if_neg hless]
  dsimp only
  by_cases hcapacity : ring.mapping.dataSize < head - ring.readPos
  · rw [if_pos hcapacity]
    exact .inl ⟨_, rfl, herror _⟩
  rw [if_neg hcapacity]
  by_cases hheader : head - ring.readPos < 8
  · rw [if_pos hheader]
    exact .inl ⟨_, rfl, herror _⟩
  rw [if_neg hheader]
  by_cases hsix : ring.readPos + 6 < 2 ^ 64
  · rw [show checkedAdd ring.readPos 6 = some (ring.readPos + 6) from if_pos hsix]
    dsimp only
    by_cases hlen : 8 ≤ ring.recordLen (ring.readPos + 6) ∧
        ring.recordLen (ring.readPos + 6) ≤ ring.mapping.dataSize
    · rw [if_neg (not_not.mpr hlen)]
      by_cases hpartial : head - ring.readPos < ring.recordLen (ring.readPos + 6)
      · rw [if_pos hpartial]
        exact .inl ⟨_, rfl, herror _⟩
      rw [if_neg hpartial]
      by_cases hstop : ring.readPos + ring.recordLen (ring.readPos + 6) < 2 ^ 64
      · rw [show checkedAdd ring.readPos (ring.recordLen (ring.readPos + 6)) = some _ from
          if_pos hstop]
        exact .inr ⟨_, rfl, hlen.1, hlen.2, by omega, hstop, rfl⟩
      · rw [show checkedAdd ring.readPos (ring.recordLen (ring.readPos + 6)) = none from
          if_neg hstop]
        exact .inl ⟨_, rfl, herror _⟩
    · rw [if_pos hlen]
      exact .inl ⟨_, rfl, herror _⟩
  · rw [show checkedAdd ring.readPos 6 = none from if_neg hsix]
    exact .inl ⟨_, rfl, herror _⟩

theorem takeRecord_cases (ring : RingBuffer) (stop len : ℕ) :
    (ring.mapping.offsetOf ring.readPos + len ≤ ring.mapping.dataSize ∧
      ring.takeRecord stop len =
        (.mapped ring.readPos stop (ring.mapping.offsetOf ring.readPos) len,
          { ring with readPos := stop })) ∨
    (ring.mapping.dataSize < ring.mapping.offsetOf ring.readPos + len ∧
      ring.takeRecord stop len =
        (.owned (ring.mapping.slice (ring.mapping.offsetOf ring.readPos)
            (ring.mapping.dataSize - ring.mapping.offsetOf ring.readPos) ++
          ring.mapping.slice 0
            (len - (ring.mapping.dataSize - ring.mapping.offsetOf ring.readPos))),
          { mapping := ring.mapping.complete ring.readPos stop, readPos := stop })) := by
  unfold RingBuffer.takeRecord
  by_cases hfits : ring.mapping.offsetOf ring.readPos + len ≤ ring.mapping.dataSize
  · exact .inl ⟨hfits, if_pos hfits⟩
  · exact .inr ⟨Nat.not_le.mp hfits, if_neg hfits⟩

/-- Extents laid end to end from one position to another. -/
def Tiles : ℕ → List (ℕ × ℕ) → ℕ → Prop
  | p, [], q => p = q
  | p, r :: rest, q => r.1 = p ∧ r.1 < r.2 ∧ Tiles r.2 rest q

theorem Tiles.snoc {stop : ℕ} (h : Tiles p rs q) (hlt : q < stop) :
    Tiles p (rs ++ [(q, stop)]) stop := by
  induction rs generalizing p with
  | nil => exact ⟨h.symm, hlt, rfl⟩
  | cons r rest ih => exact ⟨h.1, h.2.1, ih h.2.2⟩

theorem Tiles.inside (h : Tiles p rs q) : p ≤ q ∧ ∀ r ∈ rs, p ≤ r.1 ∧ r.1 < r.2 ∧ r.2 ≤ q := by
  induction rs generalizing p with
  | nil => exact ⟨Nat.le_of_eq h, fun r hr => absurd hr List.not_mem_nil⟩
  | cons s rest ih =>
    obtain ⟨hstart, hlt, hrest⟩ := h
    obtain ⟨hle, hall⟩ := ih hrest
    refine ⟨by omega, List.forall_mem_cons.mpr ⟨⟨by omega, hlt, hle⟩, fun r hr => ?_⟩⟩
    obtain ⟨h1, h2, h3⟩ := hall r hr
    exact ⟨by omega, h2, h3⟩

theorem Tiles.cover {x : ℕ} (h : Tiles p rs q) (hp : p ≤ x) (hq : x < q) :
    ∃ r ∈ rs, r.1 ≤ x ∧ x < r.2 := by
  induction rs generalizing p with
  | nil =>
    have heq : p = q := h
    omega
  | cons s rest ih =>
    obtain ⟨hstart, hlt, hrest⟩ := h
    rcases Nat.lt_or_ge x s.2 with hin | hout
    · exact ⟨s, .head _, by omega, hin⟩
    · obtain ⟨r, hr, hx⟩ := ih hrest hout
      exact ⟨r, .tail _ hr, hx⟩

theorem Tiles.unique {x : ℕ} (h : Tiles p rs q) {s : ℕ × ℕ} (hr : r ∈ rs) (hs : s ∈ rs)
    (hxr : r.1 ≤ x ∧ x < r.2) (hxs : s.1 ≤ x ∧ x < s.2) : r = s := by
  induction rs generalizing p with
  | nil => exact absurd hr List.not_mem_nil
  | cons t rest ih =>
    obtain ⟨hstart, hlt, hrest⟩ := h
    have hlater : ∀ u ∈ rest, t.2 ≤ u.1 := fun u hu => (hrest.inside.2 u hu).1
    rcases List.mem_cons.mp hr with rfl | hr'
    · rcases List.mem_cons.mp hs with rfl | hs'
      · rfl
      · have hafter := hlater s hs'
        omega
    · rcases List.mem_cons.mp hs with rfl | hs'
      · have hafter := hlater r hr'
        omega
      · exact ih hrest hr' hs'

/-- What a held record is: a view with the right extent and offset, or a copy of
the stream. -/
def Faithful (stream : ℕ → UInt8) (dataSize : ℕ) (h : Held) : Prop :=
  match h.record with
  | .mapped start stop offset len =>
      start = h.start ∧ stop = start + len ∧ offset = start % dataSize ∧ offset + len ≤ dataSize
  | .owned bytes => bytes = streamBytes stream h.start bytes.length

structure Sound (stream : ℕ → UInt8) (w : World) : Prop where
  tailed : Tailed w.ring.mapping w.ring.readPos (mappedExtents w)
  readable : w.ring.readPos ≤ w.written
  room : w.written ≤ w.ring.mapping.dataTail + w.ring.mapping.dataSize
  cells : Shows w.ring.mapping stream w.ring.mapping.dataTail w.written
  faithful : ∀ h ∈ w.held, Faithful stream w.ring.mapping.dataSize h
  extents : ∀ h ∈ w.held, (h.start, h.start + (h.record.asBytes w.ring.mapping).length) ∈ w.returned
  tiles : ∃ first ≤ w.ring.mapping.dataTail, Tiles first w.returned w.ring.readPos
  position : w.ring.readPos < 2 ^ 64

theorem Sound.tail_le (h : Sound stream w) :
    w.ring.mapping.dataTail ≤ w.ring.readPos := h.tailed.tail ▸ h.tailed.commits.le

theorem sound_start {dataSize dataTail : ℕ} {data : ℕ → UInt8}
    {isPowerOfTwo : ∃ k, dataSize = 2 ^ k} {fits : dataSize < 2 ^ 63} (hpos : dataTail < 2 ^ 64) :
    Sound stream (.start (.new dataSize data dataTail isPowerOfTwo fits)) where
  tailed := ⟨commits_new dataTail, rfl⟩
  readable := Nat.le_refl _
  room := Nat.le_add_right _ _
  cells := by
    intro p hlow hhigh
    exact absurd hhigh (Nat.not_lt.mpr hlow)
  faithful := fun h hh => absurd hh List.not_mem_nil
  extents := fun h hh => absurd hh List.not_mem_nil
  tiles := ⟨dataTail, le_rfl, rfl⟩
  position := hpos

theorem asBytes_length (m m' : RingMapping) (record : RingRecord) :
    (record.asBytes m).length = (record.asBytes m').length := by
  cases record with
  | mapped start stop offset len =>
    show ((List.range len).map _).length = ((List.range len).map _).length
    rw [List.length_map, List.length_map]
  | owned bytes => rfl

theorem streamBytes_length (stream : ℕ → UInt8) (start len : ℕ) :
    (streamBytes stream start len).length = len := by
  unfold streamBytes
  rw [List.length_map, List.length_range]

section

variable (h : Sound stream w)

include h

/-- A held record shows the stream. -/
theorem Sound.bytes {held : Held} (hheld : held ∈ w.held) :
    held.record.asBytes w.ring.mapping =
      streamBytes stream held.start (held.record.asBytes w.ring.mapping).length := by
  have hfaithful := h.faithful held hheld
  obtain ⟨start, record⟩ := held
  cases record with
  | mapped from' stop offset len =>
    obtain ⟨rfl, rfl, hoffset, hfits⟩ := hfaithful
    have hextent : (from', from' + len) ∈ mappedExtents w := List.mem_filterMap.mpr ⟨_, hheld, rfl⟩
    obtain ⟨hlow, _, hhigh⟩ := h.tailed.commits.inside _ hextent
    have hread := h.readable
    have hslice := h.cells.slice (h.tailed.tail ▸ hlow) (by omega) hoffset hfits
    show w.ring.mapping.slice offset len = streamBytes stream from'
      (w.ring.mapping.slice offset len).length
    rw [hslice, streamBytes_length]
  | owned bytes => exact hfaithful

theorem Sound.write (hstep : write stream w = some w') :
    Sound stream w' ∧ w.ring.mapping.dataTail ≤ w'.ring.mapping.dataTail := by
  unfold PerfRing.write at hstep
  by_cases hroom : w.written < w.ring.mapping.dataTail + w.ring.mapping.dataSize
  · simp only [if_pos hroom, Option.some.injEq] at hstep
    subst hstep
    refine ⟨⟨⟨h.tailed.commits, h.tailed.tail⟩, Nat.le_succ_of_le h.readable, hroom, ?_,
      h.faithful, ?_, h.tiles, h.position⟩, le_rfl⟩
    · intro p hlow hhigh
      show Function.update _ _ _ _ = _
      rcases Nat.lt_or_eq_of_le (Nat.lt_succ_iff.mp hhigh) with hbefore | rfl
      · -- two positions less than a ring apart have different cells
        have hcell : p % w.ring.mapping.dataSize ≠ w.written % w.ring.mapping.dataSize := by
          intro hsame
          have hlow' : w.ring.mapping.dataTail ≤ p := hlow
          have hdvd := (Nat.modEq_iff_dvd' hbefore.le).mp hsame
          have hle := Nat.le_of_dvd (by omega) hdvd
          omega
        rw [Function.update_of_ne hcell]
        exact h.cells p hlow hbefore
      · rw [Function.update_self]
    · intro held hheld
      rw [asBytes_length _ w.ring.mapping]
      exact h.extents held hheld
  · simp only [if_neg hroom] at hstep
    cases hstep

/-- The length that the reader finds is the one in the stream. -/
theorem Sound.recordLen (hheader : w.ring.readPos + 8 ≤ w.written) :
    w.ring.recordLen (w.ring.readPos + 6) = headerLen stream w.ring.readPos := by
  have hle := h.tail_le
  unfold RingBuffer.recordLen headerLen
  rw [h.cells.byteAt (by omega) (by omega), h.cells.byteAt (by omega) (by omega)]

/-- Moving the tail on takes nothing from what the ring shows. -/
theorem Sound.advanced {m : RingMapping} (hmono : w.ring.mapping.dataTail ≤ m.dataTail)
    (hdata : m.data = w.ring.mapping.data) (hsize : m.dataSize = w.ring.mapping.dataSize) :
    w.written ≤ m.dataTail + m.dataSize ∧
      Shows m stream m.dataTail w.written ∧ ∀ held ∈ w.held, Faithful stream m.dataSize held := by
  refine ⟨?_, fun p hlow hhigh => ?_, ?_⟩
  · rw [hsize]
    exact Nat.le_trans h.room (Nat.add_le_add_right hmono _)
  · rw [hdata, hsize]
    exact h.cells p (Nat.le_trans hmono hlow) hhigh
  · rw [hsize]
    exact h.faithful

/-- Taking a record of the stream at the read position. -/
theorem Sound.takeRecord (hpos : 0 < len) (hlen : len ≤ w.ring.mapping.dataSize)
    (havailable : w.ring.readPos + len ≤ w.written) (hlimit : w.ring.readPos + len < 2 ^ 64)
    {record : RingRecord} {ring : RingBuffer}
    (htake : w.ring.takeRecord (w.ring.readPos + len) len = (record, ring)) : Sound stream { w with
        ring := ring
        held := ⟨w.ring.readPos, record⟩ :: w.held
        returned := w.returned ++ [(w.ring.readPos, ring.readPos)] } ∧
      w.ring.mapping.dataTail ≤ ring.mapping.dataTail ∧ ring.readPos = w.ring.readPos + len ∧
      (record.asBytes ring.mapping).length = len := by
  have hle := h.tail_le
  have hstop : w.ring.readPos < w.ring.readPos + len := by omega
  have htaken := h.tailed.commits.take hstop
  have hoffset := offsetOf_eq w.ring.mapping w.ring.readPos
  obtain ⟨first, hfirst, htiles⟩ := h.tiles
  rcases takeRecord_cases w.ring (w.ring.readPos + len) len with ⟨hfits, heq⟩ | ⟨hwraps, heq⟩
  · rw [htake] at heq
    cases heq
    have hlength : ((RingRecord.mapped w.ring.readPos (w.ring.readPos + len)
        (w.ring.mapping.offsetOf w.ring.readPos) len).asBytes w.ring.mapping).length = len := by
      show ((List.range len).map _).length = len
      rw [List.length_map, List.length_range]
    refine ⟨⟨⟨htaken, h.tailed.tail⟩, havailable, h.room, h.cells, ?_, ?_,
      ⟨first, hfirst, htiles.snoc hstop⟩, hlimit⟩, le_rfl, rfl, hlength⟩
    · exact List.forall_mem_cons.mpr ⟨⟨rfl, rfl, hoffset, hfits⟩, h.faithful⟩
    · intro held hheld
      rcases List.mem_cons.mp hheld with rfl | hheld
      · rw [hlength]
        exact List.mem_append_right _ (List.mem_singleton_self _)
      · exact List.mem_append_left _ (h.extents held hheld)
  · rw [htake] at heq
    cases heq
    have hbytes := h.cells.wrapped hle havailable hlen hoffset hwraps
    obtain ⟨htailed, hmono, hdata, hsize⟩ :=
      Tailed.complete (r := (w.ring.readPos, w.ring.readPos + len)) ⟨htaken, h.tailed.tail⟩
    obtain ⟨hroom, hcells, hfaithful⟩ := h.advanced hmono hdata hsize
    have hlength := congrArg List.length hbytes
    rw [streamBytes_length] at hlength
    refine ⟨⟨htailed, havailable, hroom, hcells, List.forall_mem_cons.mpr ⟨?_, hfaithful⟩, ?_,
      ⟨first, Nat.le_trans hfirst hmono, htiles.snoc hstop⟩, hlimit⟩, hmono, rfl, hlength⟩
    · show _ = streamBytes stream w.ring.readPos (_ ++ _ : List UInt8).length
      rw [hlength, hbytes]
    · intro held hheld
      rcases List.mem_cons.mp hheld with rfl | hheld
      · show (w.ring.readPos, w.ring.readPos + (_ ++ _ : List UInt8).length) ∈ _
        rw [hlength]
        exact List.mem_append_right _ (List.mem_singleton_self _)
      · rw [asBytes_length _ w.ring.mapping]
        exact List.mem_append_left _ (h.extents held hheld)

end

/-- What a call of `next_record_to` on a sound ring does: it returns the record at
the read position and advances over it, or it changes nothing. -/
def NextCorrect (stream : ℕ → UInt8) (ring : RingBuffer) :
    Except Stop (Option RingRecord) × RingBuffer → Prop
  | (.ok (some record), ring') =>
      8 ≤ headerLen stream ring.readPos ∧
      record.asBytes ring'.mapping =
        streamBytes stream ring.readPos (headerLen stream ring.readPos) ∧
      ring'.readPos = ring.readPos + headerLen stream ring.readPos
  | (.ok none, ring') => ring' = ring
  | (.error _, ring') => ring' = ring

theorem Sound.next (h : Sound stream w) {head : ℕ} (hhead : head ≤ w.written) :
    NextCorrect stream w.ring (w.ring.nextRecordTo (head % 2 ^ 64)) ∧
      ∃ w', PerfRing.next w head = some w' ∧ Sound stream w' ∧
        w.ring.mapping.dataTail ≤ w'.ring.mapping.dataTail := by
  unfold PerfRing.next
  rw [if_neg (Nat.not_lt.mpr hhead)]
  rcases nextRecordTo_cases w.ring (head % 2 ^ 64) with ⟨result, heq, hnone⟩ |
    ⟨len, hheader, hmin, hmax, havailable, hlimit, heq⟩
  · rw [heq]
    rcases result with e | (_ | record)
    · exact ⟨rfl, w, rfl, h, le_rfl⟩
    · exact ⟨rfl, w, rfl, h, le_rfl⟩
    · exact absurd rfl (hnone record)
  · rw [heq]
    -- a head past the end of `u64` shows as a smaller one, which is published too
    have hwritten : w.ring.readPos + len ≤ w.written :=
      havailable.trans ((Nat.mod_le _ _).trans hhead)
    obtain ⟨hsound, hmono, hread, hlength⟩ :=
      h.takeRecord (by omega) hmax hwritten hlimit (Prod.mk.eta (p := w.ring.takeRecord _ len)).symm
    have hlen : len = headerLen stream w.ring.readPos := by
      rw [hheader, h.recordLen (by omega)]
    have hbytes := hsound.bytes (.head _)
    refine ⟨⟨hlen ▸ hmin, ?_, ?_⟩, _, rfl, hsound, hmono⟩
    · rw [← hlen]
      exact hbytes.trans (congrArg (streamBytes stream w.ring.readPos) hlength)
    · rw [← hlen]
      exact hread

theorem detach_drop (m : RingMapping) (len : ℕ) (record : RingRecord) :
    ((record.detachBytes m len).2).drop m = record.drop m := by
  cases record <;> rfl

/-- Giving back a held record. -/
theorem Sound.release (h : Sound stream w) {index : ℕ} {use : RingRecord → RingRecord}
    (huse : ∀ record, (use record).drop w.ring.mapping = record.drop w.ring.mapping)
    (hstep : PerfRing.release w index use = some w') :
    Sound stream w' ∧ w.ring.mapping.dataTail ≤ w'.ring.mapping.dataTail := by
  unfold PerfRing.release at hstep
  rcases hget : w.held[index]? with _ | held
  · rw [hget] at hstep
    cases hstep
  rw [hget] at hstep
  simp only [huse, Option.some.injEq] at hstep
  subst hstep
  obtain ⟨hindex, hheld⟩ := List.getElem?_eq_some_iff.mp hget
  have hperm : w.held.Perm (held :: w.held.eraseIdx index) := by
    rw [← hheld]
    exact (List.getElem_cons_eraseIdx_perm hindex).symm
  have hmem : ∀ other ∈ w.held.eraseIdx index, other ∈ w.held :=
    fun other hother => List.mem_of_mem_eraseIdx hother
  obtain ⟨start, record⟩ := held
  cases record with
  | mapped from' stop offset len =>
    have hextents : (mappedExtents w).Perm
        ((from', stop) :: (w.held.eraseIdx index).filterMap extent) :=
      hperm.filterMap extent
    obtain ⟨htailed, hmono, hdata, hsize⟩ := (h.tailed.perm hextents).complete
    obtain ⟨first, hfirst, htiles⟩ := h.tiles
    obtain ⟨hroom, hcells, hfaithful⟩ := h.advanced hmono hdata hsize
    refine ⟨⟨htailed, h.readable, hroom, hcells,
      fun other hother => hfaithful other (hmem other hother),
      fun other hother => ?_, ⟨first, hfirst.trans hmono, htiles⟩, h.position⟩, hmono⟩
    rw [asBytes_length _ w.ring.mapping]
    exact h.extents other (hmem other hother)
  | owned bytes =>
    have hextents : (mappedExtents w).Perm ((w.held.eraseIdx index).filterMap extent) :=
      hperm.filterMap extent
    exact ⟨⟨h.tailed.perm hextents, h.readable, h.room, h.cells,
      fun other hother => h.faithful other (hmem other hother),
      fun other hother => h.extents other (hmem other hother), h.tiles, h.position⟩, le_rfl⟩

theorem Sound.step (h : Sound stream w) {event : Event} (hstep : step stream w event = some w') :
    Sound stream w' ∧ w.ring.mapping.dataTail ≤ w'.ring.mapping.dataTail := by
  cases event with
  | write => exact h.write hstep
  | next head =>
    by_cases hhead : head ≤ w.written
    · obtain ⟨_, w'', heq, hsound⟩ := h.next hhead
      have hsame : some w'' = some w' := heq.symm.trans hstep
      cases hsame
      exact hsound
    · have hnone : PerfRing.step stream w (.next head) = none := if_pos (Nat.not_le.mp hhead)
      rw [hnone] at hstep
      cases hstep
  | drop index => exact h.release (fun _ => rfl) hstep
  | detach index len => exact h.release (detach_drop w.ring.mapping len) hstep

theorem Sound.run {events : List Event} (h : Sound stream w)
    (hrun : run stream w events = some w') : Sound stream w' := by
  induction events generalizing w with
  | nil =>
    cases hrun
    exact h
  | cons event rest ih =>
    obtain ⟨next, hstep, hrest⟩ := Option.bind_eq_some_iff.mp hrun
    exact ih (h.step hstep).1 hrest

/-- The start of the oldest record that is still mapped, or the read position. -/
def oldestMapped (w : World) : ℕ :=
  (mappedExtents w).foldr (fun r oldest => min r.1 oldest) w.ring.readPos

/-- The positions of completed records at or after the tail. -/
def completedAfter (w : World) : Set ℕ :=
  {x | w.ring.mapping.dataTail ≤ x ∧
    ∃ r ∈ w.returned, (r.1 ≤ x ∧ x < r.2) ∧ r ∉ mappedExtents w}

/-- What holds at every moment of a run. -/
structure Consumption (stream : ℕ → UInt8) (w : World) : Prop where
  /-- A held record shows the bytes of the stream at which it was read. -/
  bytes : ∀ h ∈ w.held, ∃ len, (h.start, h.start + len) ∈ w.returned ∧
    h.record.asBytes w.ring.mapping = streamBytes stream h.start len
  tail : w.ring.mapping.dataTail = oldestMapped w
  pending : ∀ a b, w.ring.mapping.commits.pending.get a = some b ↔ IsRun (completedAfter w) a b

theorem foldr_min_eq {low last : ℕ} (hlast : low ≤ last) (hall : ∀ r ∈ rs, low ≤ r.1)
    (hreached : low = last ∨ ∃ r ∈ rs, r.1 = low) :
    rs.foldr (fun r oldest => min r.1 oldest) last = low := by
  induction rs with
  | nil =>
    rcases hreached with heq | ⟨r, hr, _⟩
    · exact heq.symm
    · exact absurd hr List.not_mem_nil
  | cons s rest ih =>
    have hge : ∀ rs : List (ℕ × ℕ), (∀ r ∈ rs, low ≤ r.1) →
        low ≤ rs.foldr (fun r oldest => min r.1 oldest) last := by
      intro rs hrs
      induction rs with
      | nil => exact hlast
      | cons t rs ih' =>
        exact le_min (hrs t (.head _))
          (ih' fun r hr => hrs r (.tail _ hr))
    have hrest := fun r hr => hall r (List.mem_cons_of_mem s hr)
    show min s.1 _ = low
    have hs := hall s (.head _)
    by_cases hlater : low = last ∨ ∃ r ∈ rest, r.1 = low
    · rw [ih hrest hlater]
      exact min_eq_right hs
    · rcases hreached with heq | ⟨r, hr, heq⟩
      · exact absurd (.inl heq) hlater
      · rcases List.mem_cons.mp hr with rfl | hr
        · rw [min_eq_left (heq ▸ hge rest hrest), heq]
        · exact absurd (.inr ⟨r, hr, heq⟩) hlater

theorem mapped_returned (h : Sound stream w) (hr : r ∈ mappedExtents w) : r ∈ w.returned := by
  obtain ⟨⟨start, record⟩, hheld, hextent⟩ := List.mem_filterMap.mp hr
  have hreturned := h.extents _ hheld
  have hfaithful := h.faithful _ hheld
  cases record with
  | mapped from' stop offset len =>
    obtain ⟨rfl, rfl, _, _⟩ := hfaithful
    have hlength : ((List.range len).map
        fun i => w.ring.mapping.data (offset + i)).length = len := by
      rw [List.length_map, List.length_range]
    have heq : (from', from' + len) = r := Option.some.inj hextent
    rw [← heq]
    exact hlength ▸ hreturned
  | owned bytes => cases hextent

/-- Records tile the stream, so what is completed is what no mapped record covers. -/
theorem Sound.completedAfter_eq (h : Sound stream w) : completedAfter w =
      released w.ring.mapping.commits.committed w.ring.readPos (mappedExtents w) := by
  obtain ⟨first, hfirst, htiles⟩ := h.tiles
  ext x
  constructor
  · rintro ⟨htail, r, hr, hx, hdone⟩
    refine ⟨h.tailed.tail ▸ htail, ?_, fun s hs hin => ?_⟩
    · have hstop := (htiles.inside.2 r hr).2.2
      omega
    · exact hdone (htiles.unique hr (mapped_returned h hs) hx hin ▸ hs)
  · rintro ⟨htail, hread, hfree⟩
    have htail' : w.ring.mapping.dataTail ≤ x := h.tailed.tail ▸ htail
    obtain ⟨r, hr, hx⟩ := htiles.cover (hfirst.trans htail') hread
    exact ⟨htail', r, hr, hx, fun hmapped => hfree r hmapped hx⟩

theorem Sound.consumption (h : Sound stream w) : Consumption stream w where
  bytes := fun held hheld => ⟨_, h.extents held hheld, h.bytes hheld⟩
  tail := by
    rw [h.tailed.tail]
    exact (foldr_min_eq h.tailed.commits.le
      (fun r hr => (h.tailed.commits.inside r hr).1) h.tailed.commits.oldest).symm
  pending := by
    rw [h.completedAfter_eq]
    exact h.tailed.commits.runs

/-- Along every run, held records show the stream, the tail is the start of the
oldest mapped record, and the pending map holds the runs of completed records. The
next call with a published head reads the record at the read position or changes
nothing, and no step moves the tail back. -/
theorem ring_is_consumed_in_order (stream : ℕ → UInt8) (dataSize : ℕ) (data : ℕ → UInt8)
    (dataTail : ℕ) (isPowerOfTwo : ∃ k, dataSize = 2 ^ k) (fits : dataSize < 2 ^ 63)
    (hpos : dataTail < 2 ^ 64) (events : List Event) (w : World)
    (hrun : run stream (.start (.new dataSize data dataTail isPowerOfTwo fits)) events = some w) :
    Consumption stream w ∧
      (∀ head ≤ w.written, NextCorrect stream w.ring (w.ring.nextRecordTo (head % 2 ^ 64))) ∧
      ∀ event w', step stream w event = some w' →
        w.ring.mapping.dataTail ≤ w'.ring.mapping.dataTail := by
  have hsound : Sound stream w := (sound_start hpos).run hrun
  exact ⟨hsound.consumption, fun head hhead => (hsound.next hhead).1,
    fun event w' hstep => (hsound.step hstep).2⟩

/-- Records of eight bytes, from position four on. -/
def eightByteRecords (p : ℕ) : UInt8 :=
  if p % 8 = 2 then 8 else if p % 8 = 3 then 0 else p.toUInt8

/-- A ring of sixteen bytes is filled, two records are taken of which the second
wraps, and the first one is still held while the call after them finds nothing.
Giving it back frees the ring for the third record. -/
theorem ring_is_consumed_in_order_wrapped : ∃ w,
    run eightByteRecords (.start (.new 16 (fun _ => 0) 4 ⟨4, rfl⟩ (by decide)))
      (List.replicate 16 .write ++ [.next 20, .next 20, .next 20, .drop 1] ++
        List.replicate 8 .write ++ [.next 28]) = some w ∧
    w.returned = [(4, 12), (12, 20), (20, 28)] ∧ w.ring.mapping.dataTail = 20 ∧
    Consumption eightByteRecords w := by
  have hruns : (run eightByteRecords (.start (.new 16 (fun _ => 0) 4 ⟨4, rfl⟩ (by decide)))
      (List.replicate 16 .write ++ [.next 20, .next 20, .next 20, .drop 1] ++
        List.replicate 8 .write ++ [.next 28])).map
      (fun w => (w.returned, w.ring.mapping.dataTail)) =
      some ([(4, 12), (12, 20), (20, 28)], 20) := by decide +kernel
  obtain ⟨w, hrun, heq⟩ := Option.map_eq_some_iff.mp hruns
  obtain ⟨hreturned, htail⟩ := Prod.mk.inj heq
  exact ⟨w, hrun, hreturned, htail, (ring_is_consumed_in_order eightByteRecords 16 (fun _ => 0) 4
    ⟨4, rfl⟩ (by decide) (by decide) _ w hrun).1⟩

end StackPulse.RingConsumption
