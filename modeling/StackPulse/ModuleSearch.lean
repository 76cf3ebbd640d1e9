import StackPulse.Modules

/-!
The search in the index of one owner. Without overlaps the entries are sorted by
start and searched by bisection; with overlaps they are sorted by id and searched
from the end. Either way the entry around an address with the highest id is found.
-/
namespace StackPulse.ModuleSearch

open Model Modules StableSort

variable {l entries : List ModuleIndexEntry} {address : UInt64} {e entry : ModuleIndexEntry}

/-- The address lies in the module. -/
def Around (module : ModuleRecord) (address : UInt64) : Prop :=
  module.start.toNat ≤ address.toNat ∧ address.toNat < module.stop.toNat

instance (module : ModuleRecord) (address : UInt64) : Decidable (Around module address) := by
  unfold Around
  infer_instance

/-- The address lies in the entry. -/
def Holds (entry : ModuleIndexEntry) (address : UInt64) : Prop :=
  entry.start.toNat ≤ address.toNat ∧ address.toNat < entry.stop.toNat

/-- The entry around the address with the highest id. -/
structure Newest (entries : List ModuleIndexEntry) (address : UInt64) (entry : ModuleIndexEntry) :
    Prop where
  mem : entry ∈ entries
  holds : Holds entry address
  highest : ∀ other ∈ entries, Holds other address → other.id.toNat ≤ entry.id.toNat

theorem find?_reverse_newest (hl : SortedBy (fun e : ModuleIndexEntry => e.id.toNat) l)
    (h : l.reverse.find? (fun e => decide (e.start ≤ address) && decide (address < e.stop)) =
      some entry) : Newest l address entry := by
  have hhighest := find?_reverse_highest _ hl h
  simp only [Bool.and_eq_true, decide_eq_true_eq] at hhighest
  exact ⟨hhighest.1, hhighest.2.1, hhighest.2.2⟩

theorem find?_reverse_none
    (h : l.reverse.find? (fun e => decide (e.start ≤ address) && decide (address < e.stop)) =
      none) : ∀ other ∈ l, ¬ Holds other address := by
  intro other hmem hother
  have hnot := List.find?_eq_none.mp h other (List.mem_reverse.mpr hmem)
  simp only [Bool.and_eq_true, decide_eq_true_eq] at hnot
  exact hnot hother

/-- Sorted, with no entry over the start of its successor, each entry ends before all later
ones begin. -/
theorem pairwise_of_anyOverlap (hsorted : l.Pairwise fun a b => a.start.toNat ≤ b.start.toNat)
    (h : ModuleIndexGroup.anyOverlap l = false) :
    l.Pairwise fun a b => a.stop.toNat ≤ b.start.toNat := by
  induction l with
  | nil => exact .nil
  | cons first l ih =>
    cases l with
    | nil => exact List.pairwise_singleton _ _
    | cons second rest =>
      rw [ModuleIndexGroup.anyOverlap, Bool.or_eq_false_iff] at h
      have hrest := ih (List.pairwise_cons.mp hsorted).2 h.2
      have hlt : ¬ second.start.toNat < first.stop.toNat := of_decide_eq_false h.1
      refine List.pairwise_cons.mpr ⟨fun other hmem => ?_, hrest⟩
      rcases List.mem_cons.mp hmem with rfl | hlater
      · omega
      · have hle := (List.pairwise_cons.mp (List.pairwise_cons.mp hsorted).2).1 other hlater
        omega

theorem getElem?_pred_length {α : Type} {l : List α} {p : α → Bool} (hne : l.takeWhile p ≠ []) :
    l[(l.takeWhile p).length - 1]? = (l.takeWhile p).getLast? := by
  have hlen := List.length_pos_of_ne_nil hne
  have happend : l.takeWhile p ++ l.dropWhile p = l := List.takeWhile_append_dropWhile
  rw [List.getLast?_eq_getElem?]
  conv_lhs => rw [← happend]
  rw [List.getElem?_append_left (by rw [happend]; omega), happend]

theorem start_le_of_mem_takeWhile (h : e ∈ l.takeWhile fun e => decide (e.start ≤ address)) :
    e.start.toNat ≤ address.toNat := by
  have hle := List.mem_takeWhile_imp h
  exact of_decide_eq_true hle

/-- The last entry that starts no later than the address. -/
theorem find_sorted (address : UInt64) : (⟨l, false⟩ : ModuleIndexGroup).find address =
      ((l.takeWhile fun e => decide (e.start ≤ address)).getLast?).bind fun e =>
        if address < e.stop then some e else none := by
  show (if (l.takeWhile fun e => decide (e.start ≤ address)).length = 0 then none else _) = _
  by_cases hne : (l.takeWhile fun e => decide (e.start ≤ address)) = []
  · rw [hne]
    rfl
  · have hlen := List.length_pos_of_ne_nil hne
    rw [if_neg (by omega)]
    simp only [FrameContexts.partitionPoint, getElem?_pred_length hne]
    generalize (l.takeWhile fun e => decide (e.start ≤ address)).getLast? = last
    cases last <;> rfl

section

variable (hstarts : l.Pairwise fun a b => a.start.toNat ≤ b.start.toNat)
  (hapart : l.Pairwise fun a b => a.stop.toNat ≤ b.start.toNat)

include hstarts in
theorem mem_takeWhile_of_start (he : e ∈ l) (hle : e.start.toNat ≤ address.toNat) :
    e ∈ l.takeWhile fun e => decide (e.start ≤ address) := by
  induction l with
  | nil => cases he
  | cons first l ih =>
    obtain ⟨hfirst, hrest⟩ := List.pairwise_cons.mp hstarts
    have hstart : first.start.toNat ≤ address.toNat := by
      rcases List.mem_cons.mp he with rfl | htail
      · exact hle
      · exact (hfirst e htail).trans hle
    have hpos : decide (first.start ≤ address) = true := decide_eq_true hstart
    rw [List.takeWhile_cons, hpos, if_pos rfl]
    rcases List.mem_cons.mp he with rfl | htail
    · exact .head _
    · exact .tail _ (ih hrest htail)

include hapart in
/-- Whatever starts no later than the address ends before the last such entry begins. -/
theorem eq_last_of_holds {last : ModuleIndexEntry}
    (he : e ∈ l.takeWhile fun e => decide (e.start ≤ address))
    (hlast : (l.takeWhile fun e => decide (e.start ≤ address)).getLast? = some last)
    (hholds : Holds e address) : e = last := by
  obtain ⟨front, hfront⟩ := List.getLast?_eq_some_iff.mp hlast
  have hlastStart := start_le_of_mem_takeWhile (List.mem_of_getLast? hlast)
  have hsub := hapart.sublist (List.takeWhile_sublist fun e => decide (e.start ≤ address))
  rw [hfront] at he hsub
  rcases List.mem_append.mp he with hin | hself
  · have hle := (List.pairwise_append.mp hsub).2.2 e hin last (List.mem_singleton_self _)
    have hlt := hholds.2
    omega
  · exact List.mem_singleton.mp hself

include hstarts hapart in
theorem find_sorted_newest (h : (⟨l, false⟩ : ModuleIndexGroup).find address = some entry) :
    Newest l address entry := by
  rw [find_sorted] at h
  obtain ⟨last, hlast, hstop⟩ := Option.bind_eq_some_iff.mp h
  have hmem := List.mem_of_getLast? hlast
  have hstart := start_le_of_mem_takeWhile hmem
  by_cases hlt : address < last.stop
  · rw [if_pos hlt] at hstop
    cases hstop
    refine ⟨(List.takeWhile_sublist _).mem hmem, ⟨hstart, hlt⟩, fun other hother hholds => ?_⟩
    have htake := mem_takeWhile_of_start hstarts hother hholds.1
    rw [eq_last_of_holds hapart htake hlast hholds]
  · rw [if_neg hlt] at hstop
    cases hstop

include hstarts hapart in
theorem find_sorted_none (h : (⟨l, false⟩ : ModuleIndexGroup).find address = none) :
    ∀ other ∈ l, ¬ Holds other address := by
  intro other hother hholds
  have htake := mem_takeWhile_of_start hstarts hother hholds.1
  obtain ⟨last, hlast⟩ := List.getLast?_isSome.mpr (List.ne_nil_of_mem htake) |>
    Option.isSome_iff_exists.mp
  have hsame := eq_last_of_holds hapart htake hlast hholds
  subst hsame
  have hlt : address < other.stop := hholds.2
  rw [find_sorted, hlast, Option.bind_some, if_pos hlt] at h
  cases h

end

theorem mem_finish : e ∈ (ModuleIndexGroup.finish entries).entries ↔ e ∈ entries := by
  unfold ModuleIndexGroup.finish
  simp only
  split <;> simp only [mem_sortByKey]

/-- Sorted by start and id, the entries are sorted by start. -/
theorem starts_sorted (entries : List ModuleIndexEntry) :
    (sortByKey (fun e : ModuleIndexEntry => toLex (e.start.toNat, e.id.toNat)) entries).Pairwise
      fun a b => a.start.toNat ≤ b.start.toNat := by
  refine (sorted_sortByKey _ entries).imp ?_
  intro a b hle
  rcases Prod.Lex.toLex_le_toLex.mp hle with hlt | ⟨heq, -⟩
  · exact hlt.le
  · exact heq.le

theorem find_newest (h : (ModuleIndexGroup.finish entries).find address = some entry) :
    Newest entries address entry := by
  have hnewest : Newest (ModuleIndexGroup.finish entries).entries address entry := by
    unfold ModuleIndexGroup.finish at h ⊢
    simp only at h ⊢
    by_cases hoverlap : ModuleIndexGroup.anyOverlap (sortByKey
        (fun e : ModuleIndexEntry => toLex (e.start.toNat, e.id.toNat)) entries) = true
    · rw [if_pos hoverlap] at h ⊢
      exact find?_reverse_newest (sorted_sortByKey _ _) h
    · rw [if_neg hoverlap] at h ⊢
      have hstarts := starts_sorted entries
      exact find_sorted_newest hstarts
        (pairwise_of_anyOverlap hstarts (Bool.eq_false_iff.mpr hoverlap)) h
  exact ⟨mem_finish.mp hnewest.mem, hnewest.holds,
    fun other hother => hnewest.highest other (mem_finish.mpr hother)⟩

theorem find_none (h : (ModuleIndexGroup.finish entries).find address = none) :
    ∀ other ∈ entries, ¬ Holds other address := by
  have hnone : ∀ other ∈ (ModuleIndexGroup.finish entries).entries, ¬ Holds other address := by
    unfold ModuleIndexGroup.finish at h ⊢
    simp only at h ⊢
    by_cases hoverlap : ModuleIndexGroup.anyOverlap (sortByKey
        (fun e : ModuleIndexEntry => toLex (e.start.toNat, e.id.toNat)) entries) = true
    · rw [if_pos hoverlap] at h ⊢
      exact find?_reverse_none h
    · rw [if_neg hoverlap] at h ⊢
      have hstarts := starts_sorted entries
      exact find_sorted_none hstarts
        (pairwise_of_anyOverlap hstarts (Bool.eq_false_iff.mpr hoverlap)) h
  exact fun other hother => hnone other (mem_finish.mpr hother)

/-- The index of some modules finds what a scan of them in the order of their ids finds. -/
theorem find_rebuild {modules active : List ModuleRecord}
    (hactive : active.Pairwise fun m m' => m.id.toNat < m'.id.toNat)
    (hsame : ∀ m, m ∈ modules ↔ m ∈ active) (address : UInt64) :
    (ModuleIndexGroup.rebuild modules).find address =
      (active.reverse.find? fun m => decide (Around m address)).map ModuleIndexEntry.of := by
  unfold ModuleIndexGroup.rebuild
  rcases hscan : active.reverse.find? fun m => decide (Around m address) with _ | found
  · rcases hfind : (ModuleIndexGroup.finish (modules.map ModuleIndexEntry.of)).find address with
      _ | entry
    · rfl
    · obtain ⟨m, hm, rfl⟩ := List.mem_map.mp (find_newest hfind).mem
      have hnot := List.find?_eq_none.mp hscan m (List.mem_reverse.mpr ((hsame m).mp hm))
      exact absurd (decide_eq_true (show Around m address from (find_newest hfind).holds)) hnot
  · have hdecide := List.find?_some hscan
    have haround : Around found address := of_decide_eq_true hdecide
    have hmem : found ∈ active := List.mem_reverse.mp (List.mem_of_find?_eq_some hscan)
    have hentry : ModuleIndexEntry.of found ∈ modules.map ModuleIndexEntry.of :=
      List.mem_map_of_mem ((hsame found).mpr hmem)
    rcases hfind : (ModuleIndexGroup.finish (modules.map ModuleIndexEntry.of)).find address with
      _ | entry
    · exact absurd haround (find_none hfind _ hentry)
    · have hnewest := find_newest hfind
      obtain ⟨m, hm, rfl⟩ := List.mem_map.mp hnewest.mem
      have hle : found.id.toNat ≤ m.id.toNat := hnewest.highest _ hentry haround
      rw [Option.map_some, Option.some_inj]
      congr 1
      by_contra hne
      -- A later module around the address would have been found by the scan.
      obtain ⟨-, before, after, hsplit, hbefore⟩ := List.find?_eq_some_iff_append.mp hscan
      have hm' : m ∈ active.reverse := List.mem_reverse.mpr ((hsame m).mp hm)
      have horder : active.reverse.Pairwise fun m m' => m'.id.toNat < m.id.toNat :=
        List.pairwise_reverse.mpr hactive
      rw [hsplit] at hm' horder
      rcases List.mem_append.mp hm' with hearly | hlate
      · have hnot := hbefore m hearly
        rw [decide_eq_true (show Around m address from hnewest.holds)] at hnot
        cases hnot
      · rcases List.mem_cons.mp hlate with hself | hlater
        · exact hne hself
        · have hlt := (List.pairwise_cons.mp (List.pairwise_append.mp horder).2.1).1 m hlater
          omega

end StackPulse.ModuleSearch
