import StackPulse.Bytes

/-!
Files that hold one record after another. A format reads the next record from a
state and gives the state after it. A run reads several records in a row; a scan
is a run that cannot go on, because the file is used up, because its last record
is cut short, or because the bytes are wrong. Scans of a file and of a longer
file with the same beginning are compared: a run never changes when the file
grows, and neither does a fault.
-/
namespace StackPulse.Scanning

open Bytes

structure Format (ε S R : Type) where
  eof : ε → Bool
  next : S → ByteReader ε (R × S)
  stable : ∀ s, (next s).Stable eof
  progress : ∀ s c x d, c.Valid → next s c = (.ok x, d) → c.position < d.position

/-- One record of a run: where it stands, its value and the state after it. -/
structure Entry (S R : Type) where
  start : ℕ
  stop : ℕ
  record : R
  after : S

variable {ε S R : Type} (F : Format ε S R)

inductive Run : S → Cursor → List (Entry S R) → S → Cursor → Prop
  | nil (s : S) (c : Cursor) : Run s c [] s c
  | cons {s s' t : S} {c c' d : Cursor} {r : R} {entries : List (Entry S R)} :
      F.next s c = (.ok (r, s'), c') → Run s' c' entries t d →
        Run s c (⟨c.position, c'.position, r, s'⟩ :: entries) t d

/-- Why no further record follows. -/
inductive Ending (ε : Type)
  | complete
  | torn
  | fault (e : ε)

def Ending.isTorn : Ending ε → Bool
  | torn => true
  | _ => false

def Ending.isFault : Ending ε → Bool
  | fault _ => true
  | _ => false

def Halts (s : S) (c : Cursor) : Ending ε → Prop
  | .complete => c.position = c.mmap.len
  | .torn => c.position < c.mmap.len ∧ ∃ e, (F.next s c).1 = .error e ∧ F.eof e = true
  | .fault e => c.position < c.mmap.len ∧ (F.next s c).1 = .error e ∧ F.eof e = false

structure Scan (s : S) (c : Cursor) (entries : List (Entry S R)) (t : S) (d : Cursor)
    (ending : Ending ε) : Prop where
  run : Run F s c entries t d
  halts : Halts F t d ending

variable {F} {s t u : S} {c c' d d' : Cursor} {r : R} {entries more : List (Entry S R)}

section

variable (hc : c.Valid)

include hc

theorem next_mmap (h : F.next s c = (.ok (r, t), d)) : d.mmap = c.mmap := by
  have hm := (F.stable s).mmap_eq c hc
  rw [h] at hm
  exact hm

theorem next_valid (h : F.next s c = (.ok (r, t), d)) : d.Valid := by
  have hv := (F.stable s).within c hc
  rw [h] at hv
  exact hv

/-- A record is read the same way from a longer file. -/
theorem next_extends (hext : c.Extends c') (h : F.next s c = (.ok (r, t), d)) :
    F.next s c' = (.ok (r, t), c'.moveTo d.position) := by
  have hd := (F.stable s).done c c' (r, t) hc hext (by rw [h])
  rw [h] at hd
  exact hd

/-- Where the scan stops no record can be read. -/
theorem Halts.next_ne {ending : Ending ε} (h : Halts F s c ending) :
    F.next s c ≠ (.ok (r, t), d) := by
  intro hnext
  rcases ending with _ | _ | e
  · have hlt := F.progress s c (r, t) d hc hnext
    have hmmap := next_mmap hc hnext
    have hvalid := next_valid hc hnext
    have hend : c.position = c.mmap.len := h
    unfold Cursor.Valid at hvalid
    rw [hmmap] at hvalid
    omega
  · obtain ⟨_, e, he, _⟩ := h
    rw [hnext] at he
    cases he
  · obtain ⟨_, he, _⟩ := h
    rw [hnext] at he
    cases he

/-- A fault stays when the file grows. -/
theorem Halts.fault_extends {e : ε} (hext : c.Extends c') (h : Halts F s c (.fault e)) :
    Halts F s c' (.fault e) := by
  obtain ⟨hlt, he, hdef⟩ := h
  have hlen := hext.len_le
  have hpos := hext.position
  refine ⟨by omega, ?_, hdef⟩
  exact (F.stable s).fault c c' e hc hext he hdef

/-- A record that a shorter file cuts off ends beyond the end of that file. -/
theorem Halts.len_lt (hext : c.Extends c') {ending : Ending ε} (h : Halts F s c ending)
    (hnext : F.next s c' = (.ok (r, t), d)) : c.mmap.len < d.position := by
  rcases ending with _ | _ | e
  · have hlt := F.progress s c' (r, t) d (hext.valid hc) hnext
    have hend : c.position = c.mmap.len := h
    rw [hext.position, hend] at hlt
    exact hlt
  · obtain ⟨_, e, he, heof⟩ := h
    have hb := (F.stable s).beyond c c' e (r, t) hc hext he heof (by rw [hnext])
    rw [hnext] at hb
    exact hb
  · have hfault := Halts.fault_extends hc hext h
    exact absurd hnext (hfault.next_ne (hext.valid hc))

/-- Every place of a file holds a record or is a place where a scan stops. -/
theorem next_or_halts : (∃ r t d, F.next s c = (.ok (r, t), d)) ∨ ∃ ending, Halts F s c ending := by
  by_cases hend : c.position = c.mmap.len
  · exact .inr ⟨.complete, hend⟩
  · have hlt : c.position < c.mmap.len := Nat.lt_of_le_of_ne hc hend
    rcases hnext : F.next s c with ⟨result, d⟩
    rcases result with e | ⟨r, t⟩
    · have he : (F.next s c).1 = .error e := by rw [hnext]
      by_cases heof : F.eof e = true
      · exact .inr ⟨.torn, hlt, e, he, heof⟩
      · exact .inr ⟨.fault e, hlt, he, Bool.eq_false_iff.mpr heof⟩
    · exact .inl ⟨r, t, d, rfl⟩

end

namespace Run

section

variable (h : Run F s c entries t d) (hc : c.Valid)

include h hc

theorem mmap_eq : d.mmap = c.mmap ∧ d.Valid := by
  induction h with
  | nil s c => exact ⟨rfl, hc⟩
  | cons hnext _ ih =>
    obtain ⟨hmmap, hvalid⟩ := ih (next_valid hc hnext)
    exact ⟨hmmap.trans (next_mmap hc hnext), hvalid⟩

theorem valid : d.Valid := (h.mmap_eq hc).2

theorem position_le : c.position ≤ d.position := by
  induction h with
  | nil s c => exact le_rfl
  | cons hnext _ ih =>
    have hlt := F.progress _ _ _ _ hc hnext
    have hle := ih (next_valid hc hnext)
    omega

/-- Every record takes at least one byte. -/
theorem length_le : c.position + entries.length ≤ d.position := by
  induction h with
  | nil s c => exact le_rfl
  | cons hnext _ ih =>
    have hlt := F.progress _ _ _ _ hc hnext
    have hle := ih (next_valid hc hnext)
    rw [List.length_cons]
    omega

/-- The records of a run stand between its two cursors. -/
theorem entry_bounds :
    ∀ entry ∈ entries,
      c.position ≤ entry.start ∧ entry.start < entry.stop ∧ entry.stop ≤ d.position := by
  induction h with
  | nil s c => simp
  | cons hnext hrun ih =>
    have hlt := F.progress _ _ _ _ hc hnext
    have hvalid := next_valid hc hnext
    have hle := hrun.position_le hvalid
    refine List.forall_mem_cons.mpr ⟨⟨le_rfl, hlt, hle⟩, fun entry hentry => ?_⟩
    obtain ⟨h1, h2, h3⟩ := ih hvalid entry hentry
    exact ⟨by omega, h2, h3⟩

end

theorem append (h : Run F s c entries t d) (h' : Run F t d more u d') :
    Run F s c (entries ++ more) u d' := by
  induction h with
  | nil s c => exact h'
  | cons hnext _ ih => exact .cons hnext (ih h')

theorem split (h : Run F s c (entries ++ more) u d') :
    ∃ t d, Run F s c entries t d ∧ Run F t d more u d' := by
  induction entries generalizing s c with
  | nil => exact ⟨s, c, .nil s c, h⟩
  | cons entry entries ih =>
    rcases h with _ | ⟨hnext, hrun⟩
    obtain ⟨t, d, hfirst, hsecond⟩ := ih hrun
    exact ⟨t, d, .cons hnext hfirst, hsecond⟩

/-- A run does not depend on what follows it in the file. -/
theorem extend (h : Run F s c entries t d) (hc : c.Valid) (hext : c.Extends c') :
    Run F s c' entries t (c'.moveTo d.position) := by
  induction h generalizing c' with
  | nil s c =>
    have hself : c'.moveTo c.position = c' := by rw [← hext.position, Cursor.moveTo_self]
    rw [hself]
    exact .nil s c'
  | @cons s s' t c c1 d r entries hnext hrun ih =>
    have hmmap := next_mmap hc hnext
    have hext' : c1.Extends (c'.moveTo c1.position) := ⟨by rw [hmmap]; exact hext.bytes, rfl⟩
    have hrun' := ih (next_valid hc hnext) hext'
    have hcons := Run.cons (next_extends hc hext hnext) hrun'
    rw [hext.position] at hcons
    exact hcons

/-- Of two runs from one place one continues the other; a run that ends where
nothing more can be read is the longer one. -/
theorem le_of_halts {ending : Ending ε} (hc : c.Valid) (h : Run F s c entries t d)
    (hhalts : Halts F t d ending) (h' : Run F s c more u d') :
    ∃ rest, entries = more ++ rest ∧ Run F u d' rest t d := by
  induction h' generalizing entries with
  | nil s c => exact ⟨entries, rfl, h⟩
  | cons hnext hrun ih =>
    rcases h with _ | ⟨hnext', hrun'⟩
    · exact absurd hnext (hhalts.next_ne hc)
    · rw [hnext] at hnext'
      cases hnext'
      obtain ⟨rest, rfl, hrest⟩ := ih (next_valid hc hnext) hrun'
      exact ⟨rest, rfl, hrest⟩

/-- Where nothing can be read, a run is empty. -/
theorem of_halts {ending : Ending ε} (hc : c.Valid) (hhalts : Halts F s c ending)
    (h : Run F s c entries t d) : entries = [] ∧ t = s ∧ d = c := by
  rcases h with _ | ⟨hnext, _⟩
  · exact ⟨rfl, rfl, rfl⟩
  · exact absurd hnext (hhalts.next_ne hc)

/-- What every record preserves, a run preserves. -/
theorem invariant (P : S → Cursor → Prop)
    (hstep : ∀ s c r t d, P s c → c.Valid → F.next s c = (.ok (r, t), d) → P t d)
    (h : Run F s c entries t d) (hc : c.Valid) (hs : P s c) : P t d := by
  induction h with
  | nil s c => exact hs
  | cons hnext _ ih => exact ih (next_valid hc hnext) (hstep _ _ _ _ _ hs hc hnext)

/-- Where a run is split there stands a record. -/
theorem at_entry {pre post : List (Entry S R)} {entry : Entry S R}
    (h : Run F s c (pre ++ entry :: post) t d) :
    ∃ s' c' c'', Run F s c pre s' c' ∧ F.next s' c' = (.ok (entry.record, entry.after), c'') ∧
      entry.start = c'.position ∧ entry.stop = c''.position ∧ Run F entry.after c'' post t d := by
  obtain ⟨s', c', hpre, hpost⟩ := h.split
  rcases hpost with _ | ⟨hnext, hrun⟩
  exact ⟨s', c', _, hpre, hnext, rfl, rfl, hrun⟩

end Run

namespace Scan

variable {ending ending' : Ending ε}

/-- Every scan comes to an end: each record uses up bytes. -/
theorem exists_scan (s : S) (hc : c.Valid) :
    ∃ entries t d ending, Scan F s c entries t d ending := by
  induction hk : c.mmap.len - c.position using Nat.strong_induction_on generalizing s c with
  | _ k ih =>
    rcases next_or_halts (F := F) (s := s) hc with ⟨r, s', c', hnext⟩ | ⟨ending, hhalts⟩
    · have hlt := F.progress s c (r, s') c' hc hnext
      have hmmap := next_mmap hc hnext
      have hvalid := next_valid hc hnext
      have hle : c'.position ≤ c'.mmap.len := hvalid
      rw [hmmap] at hle
      obtain ⟨entries, t, d, ending, hscan⟩ :=
        ih (c'.mmap.len - c'.position) (by rw [hmmap]; omega) s' hvalid rfl
      exact ⟨_, t, d, ending, .cons hnext hscan.run, hscan.halts⟩
    · exact ⟨[], s, c, ending, .nil s c, hhalts⟩

theorem unique (hc : c.Valid) (h : Scan F s c entries t d ending)
    (h' : Scan F s c more u d' ending') : entries = more ∧ t = u ∧ d = d' := by
  obtain ⟨rest, rfl, hrest⟩ := h.run.le_of_halts hc h.halts h'.run
  rcases hrest with _ | ⟨hnext, _⟩
  · exact ⟨List.append_nil more, rfl, rfl⟩
  · exact absurd hnext (h'.halts.next_ne (h'.run.valid hc))

/-- A fault is reported on every longer file. -/
theorem fault_extends {e : ε} (hc : c.Valid) (hext : c.Extends c')
    (h : Scan F s c entries t d (.fault e)) :
    Scan F s c' entries t (c'.moveTo d.position) (.fault e) := by
  obtain ⟨hmmap, hvalid⟩ := h.run.mmap_eq hc
  refine ⟨h.run.extend hc hext, ?_⟩
  apply h.halts.fault_extends hvalid
  exact ⟨by rw [hmmap]; exact hext.bytes, rfl⟩

/-- Scanning the beginning of a file that scans without a fault gives the
records that lie inside it, and stops inside or before the first that does not. -/
theorem shorten (hc : c.Valid) (hext : c.Extends c') (h : Scan F s c' entries t d' ending)
    (hending : ∀ e, ending ≠ .fault e) :
    ∃ kept rest u d ending', entries = kept ++ rest ∧ Scan F s c kept u d ending' ∧
      Run F u (c'.moveTo d.position) rest t d' ∧ (∀ e, ending' ≠ .fault e) ∧
      (∀ entry ∈ kept, entry.stop ≤ c.mmap.len) ∧ (∀ entry ∈ rest, c.mmap.len < entry.stop) := by
  obtain ⟨kept, u, d, ending', hscan⟩ := exists_scan (F := F) s hc
  obtain ⟨hmmap, hvalid⟩ := hscan.run.mmap_eq hc
  have hlong := hscan.run.extend hc hext
  have hc' := hext.valid hc
  obtain ⟨rest, rfl, hrest⟩ := h.run.le_of_halts hc' h.halts hlong
  have hextd : d.Extends (c'.moveTo d.position) := ⟨by rw [hmmap]; exact hext.bytes, rfl⟩
  have hvalid' := hextd.valid hvalid
  refine ⟨kept, rest, u, d, ending', rfl, hscan, hrest, ?_, ?_, ?_⟩
  · rintro e rfl
    have hfault := hscan.halts.fault_extends hvalid hextd
    rcases hrest with _ | ⟨hnext, _⟩
    · -- The longer file would stop at the same place, with the same error.
      obtain ⟨hlt, he, hdef⟩ := hfault
      have hhalts := h.halts
      rcases ending with _ | _ | e'
      · have hend : (c'.moveTo d.position).position = (c'.moveTo d.position).mmap.len := hhalts
        omega
      · obtain ⟨_, e', he', heof⟩ := hhalts
        rw [he] at he'
        cases he'
        rw [hdef] at heof
        cases heof
      · exact hending e' rfl
    · exact hfault.next_ne hvalid' hnext
  · intro entry hentry
    have hbound := (hscan.run.entry_bounds hc entry hentry).2.2
    have hd : d.position ≤ d.mmap.len := hvalid
    rw [hmmap] at hd
    omega
  · rcases hrest with _ | ⟨hnext, hrun⟩
    · simp
    · have hfirst := hscan.halts.len_lt hvalid hextd hnext
      rw [hmmap] at hfirst
      refine List.forall_mem_cons.mpr ⟨hfirst, fun entry hentry => ?_⟩
      have hbound := hrun.entry_bounds (next_valid hvalid' hnext) entry hentry
      omega

/-- Where no record can be read, a scan without a fault is torn unless the file ends. -/
theorem of_stuck (h : Scan F s c entries t d ending) (hending : ending.isFault = false)
    (hnext : ∀ x d, F.next s c ≠ (.ok x, d)) :
    entries = [] ∧ t = s ∧ d = c ∧ (ending.isTorn = true ↔ c.position < c.mmap.len) := by
  rcases h with ⟨_ | ⟨hnext', _⟩, hhalts⟩
  · refine ⟨rfl, rfl, rfl, ?_⟩
    cases ending with
    | complete =>
      have hend : c.position = c.mmap.len := hhalts
      simp [Ending.isTorn, hend]
    | torn => simp [Ending.isTorn, hhalts.1]
    | fault e => cases hending
  · exact absurd hnext' (hnext _ _)

end Scan
end StackPulse.Scanning
