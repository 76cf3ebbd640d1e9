import Mathlib.Algebra.GroupWithZero.Nat
import Mathlib.Algebra.Order.BigOperators.Group.List
import Mathlib.Algebra.Order.Group.Nat
import Mathlib.Data.List.Pairwise

/-!
Finite maps with ordered keys, as lists of entries whose keys increase. A map is
determined by its lookups, and the entry next to a key is found by a search from
either end.
-/
namespace StackPulse.OrderedMap

structure BTreeMap (K V : Type) [LinearOrder K] where
  entries : List (K × V)
  sorted : entries.Pairwise fun a b => a.1 < b.1

variable {K V : Type} [LinearOrder K]

namespace BTreeMap

variable {m : BTreeMap K V} {k : K} {v : V} {l : List (K × V)} {p : K → Bool}

instance [DecidableEq V] : DecidableEq (BTreeMap K V) := fun m m' =>
  decidable_of_iff (m.entries = m'.entries) (by
    cases m
    cases m'
    simp)

def empty : BTreeMap K V := ⟨[], List.Pairwise.nil⟩

def get (m : BTreeMap K V) (k : K) : Option V := m.entries.lookup k

def len (m : BTreeMap K V) : ℕ := m.entries.length

theorem mem_of_lookup (h : l.lookup k = some v) : (k, v) ∈ l := by
  induction l with
  | nil => cases h
  | cons e l ih =>
    obtain ⟨k', v'⟩ := e
    rw [List.lookup_cons] at h
    by_cases hk : k = k'
    · rw [hk, beq_self_eq_true] at h
      cases h
      rw [hk]
      exact .head _
    · rw [beq_eq_false_iff_ne.mpr hk] at h
      exact .tail _ (ih h)

theorem lookup_of_mem (hl : l.Pairwise fun a b => a.1 < b.1) (h : (k, v) ∈ l) :
    l.lookup k = some v := by
  induction l with
  | nil => cases h
  | cons e l ih =>
    obtain ⟨k', v'⟩ := e
    obtain ⟨hfirst, hrest⟩ := List.pairwise_cons.mp hl
    rw [List.lookup_cons]
    rcases List.mem_cons.mp h with heq | hmem
    · cases heq
      rw [beq_self_eq_true]
    · have hlt : k' < k := hfirst (k, v) hmem
      rw [beq_eq_false_iff_ne.mpr hlt.ne']
      exact ih hrest hmem

theorem get_eq_some : m.get k = some v ↔ (k, v) ∈ m.entries :=
  ⟨mem_of_lookup, lookup_of_mem m.sorted⟩

@[simp] theorem get_empty (k : K) : (empty : BTreeMap K V).get k = none := rfl

/-- Maps with the same lookups are the same. -/
theorem ext_get {m' : BTreeMap K V} (h : ∀ k, m.get k = m'.get k) : m = m' := by
  have hmem : ∀ e, e ∈ m.entries ↔ e ∈ m'.entries := by
    rintro ⟨k, v⟩
    rw [← get_eq_some, ← get_eq_some, h k]
  have hnodup : ∀ m : BTreeMap K V, m.entries.Nodup := fun m =>
    m.sorted.imp fun hlt heq => absurd (congrArg Prod.fst heq) hlt.ne
  have hperm := (List.perm_ext_iff_of_nodup (hnodup m) (hnodup m')).mpr hmem
  have hentries : m.entries = m'.entries :=
    hperm.eq_of_pairwise (fun a b _ _ hab hba => absurd hab hba.not_gt) m.sorted m'.sorted
  cases m
  cases m'
  cases hentries
  rfl

def insertEntry (k : K) (v : V) : List (K × V) → List (K × V)
  | [] => [(k, v)]
  | e :: l =>
      if k < e.1 then (k, v) :: e :: l
      else if k = e.1 then (k, v) :: l
      else e :: insertEntry k v l

theorem mem_insertEntry {e : K × V} (h : e ∈ insertEntry k v l) : e = (k, v) ∨ e ∈ l := by
  induction l with
  | nil => exact .inl (List.mem_singleton.mp h)
  | cons a l ih =>
    unfold insertEntry at h
    split at h
    · exact List.mem_cons.mp h
    · split at h
      · rcases List.mem_cons.mp h with heq | hmem
        · exact .inl heq
        · exact .inr (List.mem_cons_of_mem a hmem)
      · rcases List.mem_cons.mp h with rfl | hmem
        · exact .inr (.head _)
        · rcases ih hmem with heq | hmem
          · exact .inl heq
          · exact .inr (List.mem_cons_of_mem a hmem)

theorem sorted_insertEntry (k : K) (v : V) (h : l.Pairwise fun a b => a.1 < b.1) :
    (insertEntry k v l).Pairwise fun a b => a.1 < b.1 := by
  induction l with
  | nil => exact List.pairwise_singleton _ _
  | cons a l ih =>
    obtain ⟨hfirst, hrest⟩ := List.pairwise_cons.mp h
    unfold insertEntry
    split
    · rename_i hlt
      refine List.pairwise_cons.mpr ⟨fun b hb => ?_, h⟩
      rcases List.mem_cons.mp hb with rfl | hb
      · exact hlt
      · exact hlt.trans (hfirst b hb)
    · rename_i hnlt
      split
      · rename_i heq
        refine List.pairwise_cons.mpr ⟨fun b hb => ?_, hrest⟩
        rw [heq]
        exact hfirst b hb
      · rename_i hne
        refine List.pairwise_cons.mpr ⟨fun b hb => ?_, ih hrest⟩
        rcases mem_insertEntry hb with rfl | hb
        · exact lt_of_le_of_ne (not_lt.mp hnlt) (Ne.symm hne)
        · exact hfirst b hb

def insert (m : BTreeMap K V) (k : K) (v : V) : BTreeMap K V :=
  ⟨insertEntry k v m.entries, sorted_insertEntry k v m.sorted⟩

def remove (m : BTreeMap K V) (k : K) : BTreeMap K V :=
  ⟨m.entries.filter fun e => e.1 ≠ k, m.sorted.filter _⟩

theorem get_insert (m : BTreeMap K V) (k k' : K) (v : V) :
    (m.insert k v).get k' = if k' = k then some v else m.get k' := by
  show (insertEntry k v m.entries).lookup k' = if k' = k then some v else m.entries.lookup k'
  have hlookup : ∀ l : List (K × V),
      (insertEntry k v l).lookup k' = if k' = k then some v else l.lookup k' := by
    intro l
    induction l with
    | nil =>
      by_cases hk : k' = k
      · simp [insertEntry, hk]
      · simp [insertEntry, hk, List.lookup_cons, beq_eq_false_iff_ne.mpr hk]
    | cons a l ih =>
      obtain ⟨ka, va⟩ := a
      unfold insertEntry
      rcases lt_trichotomy k ka with hlt | rfl | hgt
      · rw [if_pos hlt, List.lookup_cons]
        by_cases hk : k' = k
        · simp [hk]
        · simp [hk, beq_eq_false_iff_ne.mpr hk]
      · rw [if_neg (lt_irrefl k), if_pos rfl, List.lookup_cons, List.lookup_cons]
        by_cases hk : k' = k
        · simp [hk]
        · simp [hk, beq_eq_false_iff_ne.mpr hk]
      · rw [if_neg hgt.not_gt, if_neg hgt.ne', List.lookup_cons, List.lookup_cons]
        by_cases hka : k' = ka
        · simp [hka, hgt.ne]
        · rw [beq_eq_false_iff_ne.mpr hka]
          exact ih
  exact hlookup m.entries

/-- Every entry of the second map is inserted. -/
def extend (m more : BTreeMap K V) : BTreeMap K V :=
  more.entries.foldl (fun m e => m.insert e.1 e.2) m

theorem get_foldl_insert (m : BTreeMap K V) (hl : l.Pairwise fun a b => a.1 < b.1) (k : K) :
    (l.foldl (fun m e => m.insert e.1 e.2) m).get k = (l.lookup k).or (m.get k) := by
  induction l generalizing m with
  | nil => rfl
  | cons e l ih =>
    rw [List.foldl_cons, ih _ hl.of_cons, get_insert, List.lookup_cons]
    by_cases hk : e.1 = k
    · have hnone : l.lookup k = none := by
        refine Option.eq_none_iff_forall_ne_some.mpr fun v hv => ?_
        have hlt := (List.pairwise_cons.mp hl).1 _ (mem_of_lookup hv)
        exact hlt.ne hk
      simp [hnone, hk]
    · simp [Ne.symm hk, beq_eq_false_iff_ne.mpr (Ne.symm hk)]

theorem get_extend (m more : BTreeMap K V) (k : K) :
    (m.extend more).get k = (more.get k).or (m.get k) := get_foldl_insert m more.sorted k

theorem get_remove (m : BTreeMap K V) (k k' : K) :
    (m.remove k).get k' = if k' = k then none else m.get k' := by
  apply Option.ext
  intro v
  rw [get_eq_some]
  show (k', v) ∈ m.entries.filter _ ↔ _
  rw [List.mem_filter]
  by_cases hk : k' = k
  · simp [hk]
  · rw [if_neg hk, get_eq_some]
    simp [hk]

/-- Keep the entries that satisfy the predicate. -/
def retain (m : BTreeMap K V) (p : K → V → Bool) : BTreeMap K V :=
  ⟨m.entries.filter fun e => p e.1 e.2, m.sorted.filter _⟩

theorem get_retain {p : K → V → Bool} :
    (m.retain p).get k = some v ↔ m.get k = some v ∧ p k v = true := by
  rw [get_eq_some, get_eq_some]
  exact List.mem_filter

/-- Change every value. -/
def mapValues {W : Type} (m : BTreeMap K V) (f : V → W) : BTreeMap K W :=
  ⟨m.entries.map fun e => (e.1, f e.2), List.pairwise_map.mpr m.sorted⟩

theorem get_mapValues {W : Type} (m : BTreeMap K V) (f : V → W) (k : K) :
    (m.mapValues f).get k = (m.get k).map f := by
  have hlist : ∀ l : List (K × V),
      (l.map fun e => (e.1, f e.2)).lookup k = (l.lookup k).map f := by
    intro l
    induction l with
    | nil => rfl
    | cons e l ih =>
      obtain ⟨k', v'⟩ := e
      rw [List.map_cons, List.lookup_cons, List.lookup_cons]
      cases k == k' with
      | true => rfl
      | false => exact ih
  exact hlist m.entries

theorem len_remove_lt (h : m.get k = some v) : (m.remove k).len < m.len := by
  have hmem := get_eq_some.mp h
  refine List.length_filter_lt_length_iff_exists.mpr ⟨(k, v), hmem, ?_⟩
  simp

/-- The sum of a measure of the entries. -/
def sum (m : BTreeMap K V) (f : V → ℕ) : ℕ := (m.entries.map fun e => f e.2).sum

@[simp] theorem sum_empty (f : V → ℕ) : (empty : BTreeMap K V).sum f = 0 := rfl

/-- Inserting replaces the measure of the old value, if there was one. -/
theorem sum_insert (m : BTreeMap K V) (f : V → ℕ) (k : K) (v : V) :
    (m.insert k v).sum f + ((m.get k).elim 0 f) = m.sum f + f v := by
  have hlist : ∀ l : List (K × V), (l.Pairwise fun a b => a.1 < b.1) →
      ((insertEntry k v l).map fun e => f e.2).sum + ((l.lookup k).elim 0 f) =
        (l.map fun e => f e.2).sum + f v := by
    intro l hl
    induction l with
    | nil => simp [insertEntry]
    | cons a l ih =>
      obtain ⟨ka, va⟩ := a
      obtain ⟨hfirst, hrest⟩ := List.pairwise_cons.mp hl
      have hnone : k < ka → l.lookup k = none := by
        intro hlt
        apply Option.eq_none_iff_forall_not_mem.mpr
        intro w hw
        exact absurd (hlt.trans (hfirst _ (mem_of_lookup hw))) (lt_irrefl k)
      unfold insertEntry
      rcases lt_trichotomy k ka with hlt | rfl | hgt
      · rw [if_pos hlt, List.lookup_cons, beq_eq_false_iff_ne.mpr hlt.ne, hnone hlt]
        simp only [List.map_cons, List.sum_cons, Option.elim_none]
        omega
      · rw [if_neg (lt_irrefl k), if_pos rfl, List.lookup_cons, beq_self_eq_true]
        simp only [List.map_cons, List.sum_cons, Option.elim_some]
        omega
      · rw [if_neg hgt.not_gt, if_neg hgt.ne', List.lookup_cons, beq_eq_false_iff_ne.mpr hgt.ne']
        have hih := ih hrest
        simp only [List.map_cons, List.sum_cons]
        omega
  exact hlist m.entries m.sorted

/-- What is kept and what is not make up the whole. -/
theorem sum_retain (m : BTreeMap K V) (f : V → ℕ) (p : K → V → Bool) :
    (m.retain p).sum f + (m.retain fun k v => !p k v).sum f = m.sum f := by
  have hlist : ∀ l : List (K × V), ((l.filter fun e => p e.1 e.2).map fun e => f e.2).sum +
      ((l.filter fun e => !p e.1 e.2).map fun e => f e.2).sum = (l.map fun e => f e.2).sum := by
    intro l
    induction l with
    | nil => rfl
    | cons e l ih =>
      rw [List.filter_cons, List.filter_cons, List.map_cons, List.sum_cons]
      cases p e.1 e.2 with
      | true =>
        simp only [if_true, Bool.not_true, Bool.false_eq_true, if_false, List.map_cons,
          List.sum_cons]
        omega
      | false =>
        simp only [if_true, Bool.not_false, Bool.false_eq_true, if_false, List.map_cons,
          List.sum_cons]
        omega
  exact hlist m.entries

/-- Removing takes the measure of the value away. -/
theorem sum_remove (m : BTreeMap K V) (f : V → ℕ) (k : K) :
    (m.remove k).sum f + ((m.get k).elim 0 f) = m.sum f := by
  cases hget : m.get k with
  | none =>
    have hsame : m.remove k = m := by
      apply ext_get
      intro k'
      rw [get_remove]
      split
      · next heq => rw [heq, hget]
      · rfl
    rw [hsame]
    rfl
  | some v =>
    have hback : (m.remove k).insert k v = m := by
      apply ext_get
      intro k'
      rw [get_insert, get_remove]
      split
      · next heq => rw [heq, hget]
      · rfl
    have hinsert := sum_insert (m.remove k) f k v
    rw [hback, get_remove, if_pos rfl] at hinsert
    exact hinsert.symm

theorem sum_mapValues {W : Type} (m : BTreeMap K V) (g : V → W) (f : W → ℕ) :
    (m.mapValues g).sum f = m.sum (f ∘ g) := by
  show ((m.entries.map fun e => (e.1, g e.2)).map fun e => f e.2).sum = _
  rw [List.map_map]
  rfl

/-- Maps with the same keys and measures have the same sum. -/
theorem sum_congr {m' : BTreeMap K V} {f : V → ℕ} (h : ∀ k, (m.get k).map f = (m'.get k).map f) :
    m.sum f = m'.sum f := by
  have heq : m.mapValues f = m'.mapValues f := by
    apply ext_get
    intro k
    rw [get_mapValues, get_mapValues, h k]
  calc m.sum f = (m.mapValues f).sum id := (sum_mapValues m f id).symm
    _ = (m'.mapValues f).sum id := by rw [heq]
    _ = m'.sum f := sum_mapValues m' f id

theorem le_sum {f : V → ℕ} (h : m.get k = some v) : f v ≤ m.sum f :=
  List.single_le_sum (fun _ _ => Nat.zero_le _) (f v) (List.mem_map.mpr ⟨_, get_eq_some.mp h, rfl⟩)

theorem len_eq_sum (m : BTreeMap K V) : m.len = m.sum fun _ => 1 := by
  unfold len sum
  rw [List.map_const', List.sum_replicate]
  exact (Nat.mul_one _).symm

theorem sum_insert_of_none (f : V → ℕ) (h : m.get k = none) (v : V) :
    (m.insert k v).sum f = m.sum f + f v := by
  have hinsert := sum_insert m f k v
  rwa [h] at hinsert

theorem len_insert_of_none (h : m.get k = none) (v : V) : (m.insert k v).len = m.len + 1 := by
  rw [len_eq_sum, len_eq_sum, sum_insert_of_none _ h]

/-- A part of a map has at most its sum. -/
theorem sum_le_of_subset {m' : BTreeMap K V} (f : V → ℕ)
    (h : ∀ k v, m.get k = some v → m'.get k = some v) : m.sum f ≤ m'.sum f := by
  have heq : m = m'.retain fun k _ => (m.get k).isSome := by
    apply ext_get
    intro k
    apply Option.ext
    intro v
    rw [get_retain]
    constructor
    · intro hk
      exact ⟨h k v hk, by rw [hk, Option.isSome_some]⟩
    · rintro ⟨hk, hsome⟩
      obtain ⟨w, hw⟩ := Option.isSome_iff_exists.mp hsome
      have hsame := (h k w hw).symm.trans hk
      rw [hw, hsame]
  have hsum := sum_retain m' f fun k _ => (m.get k).isSome
  rw [← heq] at hsum
  omega

/-- The first entry whose key satisfies the predicate. -/
def firstWith (m : BTreeMap K V) (p : K → Bool) : Option (K × V) :=
  m.entries.find? fun e => p e.1

/-- The last entry whose key satisfies the predicate. -/
def lastWith (m : BTreeMap K V) (p : K → Bool) : Option (K × V) :=
  m.entries.reverse.find? fun e => p e.1

omit [LinearOrder K] in
theorem find?_some_of_sorted {r : K → K → Prop} (hl : l.Pairwise fun a b => r a.1 b.1) {e : K × V}
    (h : l.find? (fun a => p a.1) = some e) :
    e ∈ l ∧ p e.1 = true ∧ ∀ a ∈ l, p a.1 = true → a = e ∨ r e.1 a.1 := by
  obtain ⟨hp, before, after, rfl, hbefore⟩ := List.find?_eq_some_iff_append.mp h
  refine ⟨by simp, hp, fun a ha hpa => ?_⟩
  rcases List.mem_append.mp ha with hleft | hright
  · have hnot := hbefore a hleft
    rw [hpa] at hnot
    cases hnot
  · rcases List.mem_cons.mp hright with rfl | hright
    · exact .inl rfl
    · have hrest := (List.pairwise_append.mp hl).2.1
      exact .inr ((List.pairwise_cons.mp hrest).1 a hright)

theorem firstWith_eq_some (h : m.firstWith p = some (k, v)) : m.get k = some v ∧ p k = true ∧
      ∀ k' v', m.get k' = some v' → p k' = true → k ≤ k' := by
  obtain ⟨hmem, hp, hleast⟩ := find?_some_of_sorted (r := (· < ·)) m.sorted h
  refine ⟨get_eq_some.mpr hmem, hp, fun k' v' hget hp' => ?_⟩
  rcases hleast (k', v') (get_eq_some.mp hget) hp' with heq | hlt
  · exact (congrArg Prod.fst heq).ge
  · exact hlt.le

theorem lastWith_eq_some (h : m.lastWith p = some (k, v)) : m.get k = some v ∧ p k = true ∧
      ∀ k' v', m.get k' = some v' → p k' = true → k' ≤ k := by
  have hsorted : m.entries.reverse.Pairwise fun a b => b.1 < a.1 :=
    List.pairwise_reverse.mpr m.sorted
  obtain ⟨hmem, hp, hgreatest⟩ := find?_some_of_sorted (r := fun a b => b < a) hsorted h
  refine ⟨get_eq_some.mpr (List.mem_reverse.mp hmem), hp, fun k' v' hget hp' => ?_⟩
  rcases hgreatest (k', v') (List.mem_reverse.mpr (get_eq_some.mp hget)) hp' with heq | hlt
  · exact (congrArg Prod.fst heq).le
  · exact hlt.le

theorem firstWith_eq_none (h : m.firstWith p = none) (hget : m.get k = some v) : p k = false := by
  have hnot := List.find?_eq_none.mp h (k, v) (get_eq_some.mp hget)
  exact Bool.eq_false_iff.mpr hnot

theorem lastWith_eq_none (h : m.lastWith p = none) (hget : m.get k = some v) : p k = false := by
  have hnot := List.find?_eq_none.mp h (k, v) (List.mem_reverse.mpr (get_eq_some.mp hget))
  exact Bool.eq_false_iff.mpr hnot

end BTreeMap

end StackPulse.OrderedMap
