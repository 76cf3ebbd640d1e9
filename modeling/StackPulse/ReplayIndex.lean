import StackPulse.ReplayReader

/-!
The sample index that opening for replay builds. It covers the sample records in
front of the scanned part, group by group, and notes where the scan has to start.
-/
namespace StackPulse.ReplayIndex

open OpenSpool

variable {entries : List SpoolEntry}

def isSample (entry : SpoolEntry) : Bool := entry.record.sample?.isSome

/-- Records that follow each other without a gap, from one position to another. -/
inductive Contiguous : ℕ → List SpoolEntry → ℕ → Prop
  | nil (position : ℕ) : Contiguous position [] position
  | cons {entry : SpoolEntry} {entries : List SpoolEntry} {stop : ℕ} :
      Contiguous entry.stop entries stop → Contiguous entry.start (entry :: entries) stop

/-- The ranges cover the records, one nonempty group of records for each range. -/
inductive Groups : List SampleRange → List SpoolEntry → Prop
  | nil : Groups [] []
  | cons {range : SampleRange} {ranges : List SampleRange} {group entries : List SpoolEntry} :
      group ≠ [] → Contiguous range.start group range.stop → Groups ranges entries →
        Groups (range :: ranges) (group ++ entries)

theorem Contiguous.snoc {start : ℕ} {entry : SpoolEntry}
    (h : Contiguous start entries entry.start) :
    Contiguous start (entries ++ [entry]) entry.stop := by
  generalize hstop : entry.start = stop at h
  induction h with
  | nil position =>
    subst hstop
    exact .cons (.nil _)
  | cons _ ih => exact .cons (ih hstop)

theorem Contiguous.le {start stop : ℕ} (h : Contiguous start entries stop)
    (hlt : ∀ entry ∈ entries, entry.start < entry.stop) : start ≤ stop := by
  induction h with
  | nil position => exact le_rfl
  | cons _ ih =>
    have hfirst := hlt _ (.head _)
    have hrest := ih fun e he => hlt e (.tail _ he)
    omega

namespace Groups

variable {ranges : List SampleRange} {range : SampleRange} {entry : SpoolEntry}

theorem single (entry : SpoolEntry) : Groups [⟨entry.start, entry.stop⟩] [entry] := by
  have hone : Contiguous entry.start [entry] entry.stop := .cons (.nil _)
  exact .cons (List.cons_ne_nil entry []) hone .nil

/-- A record away from the last range opens a range of its own. -/
theorem push (h : Groups ranges entries) (entry : SpoolEntry) :
    Groups (ranges ++ [⟨entry.start, entry.stop⟩]) (entries ++ [entry]) := by
  induction h with
  | nil => exact single entry
  | cons hne hcont _ ih =>
    rw [List.append_assoc]
    exact .cons hne hcont ih

/-- A record right behind the last range joins it. -/
theorem extend (h : Groups (ranges ++ [range]) entries) (hstop : range.stop = entry.start) :
    Groups (ranges ++ [⟨range.start, entry.stop⟩]) (entries ++ [entry]) := by
  induction ranges generalizing entries with
  | nil =>
    rcases h with _ | ⟨hne, hcont, hrest⟩
    rcases hrest with _ | _
    rw [hstop] at hcont
    rw [List.append_nil]
    have hgroup : Groups [⟨range.start, entry.stop⟩] (_ ++ []) :=
      .cons (List.append_ne_nil_of_left_ne_nil hne [entry]) hcont.snoc .nil
    rw [List.append_nil] at hgroup
    exact hgroup
  | cons first ranges ih =>
    rcases h with _ | ⟨hne, hcont, hrest⟩
    rw [List.append_assoc]
    exact .cons hne hcont (ih hrest)

end Groups

/-- The index of the records read so far: groups of samples, and, once the ranges
are used up, the sample at which scanning starts. -/
structure Indexed (st : OpenState) (entries : List SpoolEntry) : Prop where
  index : ∃ ranges, st.sampleRanges = some ranges ∧
    ((st.scanStart = none ∧ Groups ranges (entries.filter isSample)) ∨
      ∃ indexed first rest, entries = indexed ++ first :: rest ∧ isSample first = true ∧
        Groups ranges (indexed.filter isSample) ∧
        st.scanStart = some ⟨first.start, recordCounts first.after⟩)

theorem indexed_absorb {st : OpenState} (h : Indexed st entries) (rangeLimit : ℕ)
    (entry : SpoolEntry) : Indexed (st.absorb .replay rangeLimit entry) (entries ++ [entry]) := by
  obtain ⟨ranges, hranges, hcases⟩ := h.index
  have hfilter : isSample entry = true →
      (entries ++ [entry]).filter isSample = entries.filter isSample ++ [entry] := by
    intro hsample
    simp [hsample]
  rcases hsample : isSample entry with _ | _
  · have habsorb : st.absorb .replay rangeLimit entry =
        st.absorbRecord .replay entry.record entry.after := by
      unfold OpenState.absorb
      exact if_neg (Bool.eq_false_iff.mp hsample)
    rw [habsorb]
    refine ⟨ranges, hranges, ?_⟩
    rcases hcases with ⟨hscan, hgroups⟩ | ⟨indexed, first, rest, rfl, hfirst, hgroups, hscan⟩
    · refine .inl ⟨hscan, ?_⟩
      simpa [hsample] using hgroups
    · exact .inr ⟨indexed, first, rest ++ [entry], by simp, hfirst, hgroups, hscan⟩
  · have habsorb : st.absorb .replay rangeLimit entry =
        (st.absorbRecord .replay entry.record entry.after).indexSample rangeLimit
          entry.start entry.stop := by
      unfold OpenState.absorb
      exact if_pos hsample
    rw [habsorb]
    have hranges' : (st.absorbRecord .replay entry.record entry.after).sampleRanges =
      some ranges := hranges
    rcases hcases with ⟨hscan, hgroups⟩ | ⟨indexed, first, rest, rfl, hfirst, hgroups, hscan⟩
    · have hscan' : (st.absorbRecord .replay entry.record entry.after).scanStart = none := hscan
      unfold OpenState.indexSample
      rw [hscan', hranges']
      simp only
      split
      · rename_i range hrange
        obtain ⟨hlast, hstop⟩ := Option.filter_eq_some_iff.mp hrange
        have hsplit := List.dropLast_append_getLast? range hlast
        rw [← hsplit] at hgroups
        refine ⟨_, rfl, .inl ⟨rfl, ?_⟩⟩
        rw [hfilter hsample]
        exact hgroups.extend (of_decide_eq_true hstop)
      · split
        · refine ⟨_, rfl, .inl ⟨rfl, ?_⟩⟩
          rw [hfilter hsample]
          exact hgroups.push entry
        · exact ⟨ranges, rfl, .inr ⟨entries, entry, [], rfl, hsample, hgroups, rfl⟩⟩
    · have hscan' : (st.absorbRecord .replay entry.record entry.after).scanStart =
        some ⟨first.start, recordCounts first.after⟩ := hscan
      unfold OpenState.indexSample
      rw [hscan']
      exact ⟨ranges, hranges', .inr ⟨indexed, first, rest ++ [entry], by simp, hfirst,
        hgroups, hscan'⟩⟩

theorem indexed_final (rangeLimit : ℕ) (entries : List SpoolEntry) :
    Indexed (Reading.final .replay rangeLimit entries) entries := by
  induction entries using List.reverseRecOn with
  | nil => exact ⟨[], rfl, .inl ⟨rfl, .nil⟩⟩
  | append_singleton entries entry ih =>
    have hstep := indexed_absorb ih rangeLimit entry
    unfold Reading.final OpenState.absorbAll at hstep ⊢
    rw [List.foldl_append]
    exact hstep

end StackPulse.ReplayIndex
