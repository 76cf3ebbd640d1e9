import Mathlib.Data.List.Sort
import Mathlib.Data.List.TakeWhile
import Mathlib.Data.List.Induction

/-!
Stable sorting by a key. A stable sort is determined by two facts: the keys do not
decrease, and entries with the same key keep their order. Sorting a list whose
first part was sorted before is therefore the same as sorting it at once.
-/
namespace StackPulse.StableSort

variable {α K : Type} [LinearOrder K] (key : α → K) {l : List α} {a : α} {i : ℕ}

/-- The stable sort of the standard library, `sort_by_key`. -/
def sortByKey (l : List α) : List α := l.insertionSort fun a b => key a ≤ key b

def SortedBy (l : List α) : Prop := l.Pairwise fun a b => key a ≤ key b

/-- The last match in a sorted list is one with the highest key. -/
theorem find?_reverse_highest {p : α → Bool} (hl : SortedBy key l)
    (h : l.reverse.find? p = some a) :
    a ∈ l ∧ p a = true ∧ ∀ b ∈ l, p b = true → key b ≤ key a := by
  obtain ⟨hp, before, after, hsplit, hbefore⟩ := List.find?_eq_some_iff_append.mp h
  have hreverse := List.pairwise_reverse.mpr hl
  rw [hsplit] at hreverse
  refine ⟨List.mem_reverse.mp (List.mem_of_find?_eq_some h), hp, fun b hb hpb => ?_⟩
  rw [← List.mem_reverse, hsplit, List.mem_append, List.mem_cons] at hb
  rcases hb with hb | rfl | hb
  · have hnot := hbefore b hb
    rw [hpb] at hnot
    cases hnot
  · exact le_rfl
  · exact (List.pairwise_cons.mp (List.pairwise_append.mp hreverse).2.1).1 b hb

/-- The entries with one key, in their order. -/
def withKey (k : K) (l : List α) : List α := l.filter fun a => key a = k

@[simp] theorem withKey_append (k : K) (l l' : List α) :
    withKey key k (l ++ l') = withKey key k l ++ withKey key k l' := List.filter_append _ _

theorem withKey_cons (k : K) (a : α) (l : List α) :
    withKey key k (a :: l) = if key a = k then a :: withKey key k l else withKey key k l := by
  unfold withKey
  rw [List.filter_cons]
  simp only [decide_eq_true_eq]

theorem mem_sortByKey : a ∈ sortByKey key l ↔ a ∈ l := List.mem_insertionSort _

theorem sorted_sortByKey (l : List α) : SortedBy key (sortByKey key l) := by
  have htotal : Std.Total fun a b : α => key a ≤ key b := ⟨fun a b => le_total (key a) (key b)⟩
  have htrans : IsTrans α fun a b : α => key a ≤ key b := ⟨fun _ _ _ => le_trans⟩
  exact List.pairwise_insertionSort _ l

theorem withKey_orderedInsert (k : K) (a : α) :
    withKey key k (l.orderedInsert (fun a b => key a ≤ key b) a) = withKey key k (a :: l) := by
  induction l with
  | nil => rfl
  | cons b l ih =>
    rw [List.orderedInsert_cons]
    by_cases hle : key a ≤ key b
    · rw [if_pos hle]
    · rw [if_neg hle, withKey_cons, ih, withKey_cons, withKey_cons, withKey_cons]
      by_cases ha : key a = k
      · have hb : key b ≠ k := fun hb => hle (by rw [ha, hb])
        rw [if_neg hb, if_neg hb]
      · rw [if_neg ha, if_neg ha]

/-- Entries with the same key keep their order. -/
theorem withKey_sortByKey (k : K) (l : List α) :
    withKey key k (sortByKey key l) = withKey key k l := by
  induction l with
  | nil => rfl
  | cons a l ih =>
    show withKey key k ((sortByKey key l).orderedInsert _ a) = _
    rw [withKey_orderedInsert, withKey_cons, withKey_cons, ih]

theorem mem_withKey {k : K} : a ∈ withKey key k l ↔ a ∈ l ∧ key a = k := by
  unfold withKey
  rw [List.mem_filter, decide_eq_true_eq]

/-- Two lists sorted by key agree if they agree on each key. -/
theorem eq_of_withKey {l' : List α} (hl : SortedBy key l) (hl' : SortedBy key l')
    (h : ∀ k, withKey key k l = withKey key k l') : l = l' := by
  have hmem : ∀ {l l' : List α}, (∀ k, withKey key k l = withKey key k l') → ∀ a ∈ l, a ∈ l' := by
    intro l l' h a ha
    have hin : a ∈ withKey key (key a) l := (mem_withKey key).mpr ⟨ha, rfl⟩
    rw [h] at hin
    exact ((mem_withKey key).mp hin).1
  induction l generalizing l' with
  | nil =>
    cases l' with
    | nil => rfl
    | cons b l' => exact absurd (hmem (fun k => (h k).symm) b (.head _)) List.not_mem_nil
  | cons a l ih =>
    cases l' with
    | nil => exact absurd (hmem h a (.head _)) List.not_mem_nil
    | cons b l' =>
      have hle : ∀ {a b : α} {l : List α}, SortedBy key (a :: l) → b ∈ a :: l →
          key a ≤ key b := by
        intro a b l hsorted hb
        rcases List.mem_cons.mp hb with rfl | hb
        · exact le_refl _
        · exact (List.pairwise_cons.mp hsorted).1 b hb
      have hkeys : key a = key b := le_antisymm
        (hle hl (hmem (fun k => (h k).symm) b (.head _)))
        (hle hl' (hmem h a (.head _)))
      -- the smallest key is that of both heads, so they head the same part
      have hhead := h (key a)
      rw [withKey_cons, withKey_cons, if_pos rfl, if_pos hkeys.symm] at hhead
      obtain ⟨rfl, _⟩ := List.cons.inj hhead
      refine congrArg (a :: ·) (ih hl.of_cons hl'.of_cons fun k => ?_)
      have hk := h k
      rw [withKey_cons, withKey_cons] at hk
      by_cases ha : key a = k
      · rw [if_pos ha, if_pos ha] at hk
        exact (List.cons.inj hk).2
      · rw [if_neg ha, if_neg ha] at hk
        exact hk

theorem eq_sortByKey {sorted : List α} (hsorted : SortedBy key sorted)
    (h : ∀ k, withKey key k sorted = withKey key k l) : sorted = sortByKey key l :=
  eq_of_withKey key hsorted (sorted_sortByKey key l) fun k => by rw [h, withKey_sortByKey]

/-- Sorting again after more entries were appended. -/
theorem sortByKey_append (l l' : List α) :
    sortByKey key (sortByKey key l ++ l') = sortByKey key (l ++ l') := by
  apply eq_sortByKey key (sorted_sortByKey key _)
  intro k
  rw [withKey_sortByKey, withKey_append, withKey_append, withKey_sortByKey]

theorem lt_of_mem_dropWhile (hl : SortedBy key l) {k : K}
    (ha : a ∈ l.dropWhile fun b => key b ≤ k) : k < key a := by
  induction l with
  | nil => exact absurd ha List.not_mem_nil
  | cons b l ih =>
    by_cases hb : key b ≤ k
    · rw [List.dropWhile_cons_of_pos (by simpa using hb)] at ha
      exact ih hl.of_cons ha
    · rw [List.dropWhile_cons_of_neg (by simpa using hb)] at ha
      have hlt : k < key b := not_le.mp hb
      rcases List.mem_cons.mp ha with rfl | hmem
      · exact hlt
      · exact hlt.trans_le ((List.pairwise_cons.mp hl).1 a hmem)

/-- The last entry comes to lie behind all entries whose key is not larger. -/
theorem sortByKey_snoc (l : List α) (u : α) : sortByKey key (l ++ [u]) =
    ((sortByKey key l).takeWhile fun b => key b ≤ key u) ++
      u :: (sortByKey key l).dropWhile fun b => key b ≤ key u := by
  have hsorted := sorted_sortByKey key l
  have hsplit := List.takeWhile_append_dropWhile (p := fun b => decide (key b ≤ key u))
    (l := sortByKey key l)
  have hback := fun a => lt_of_mem_dropWhile key hsorted (k := key u) (a := a)
  have hfront : ∀ a ∈ (sortByKey key l).takeWhile fun b => key b ≤ key u, key a ≤ key u :=
    fun a ha => by simpa using List.mem_takeWhile_imp ha
  refine (eq_sortByKey key ?_ fun k => ?_).symm
  · rw [← hsplit] at hsorted
    obtain ⟨hbefore, hafter, hcross⟩ := List.pairwise_append.mp hsorted
    refine List.pairwise_append.mpr ⟨hbefore, List.pairwise_cons.mpr
      ⟨fun b hb => (hback b hb).le, hafter⟩, fun a ha b hb => ?_⟩
    rcases List.mem_cons.mp hb with rfl | hb
    · exact hfront a ha
    · exact hcross a ha b hb
  · have hl := withKey_sortByKey key k l
    rw [← hsplit, withKey_append] at hl
    rw [withKey_append, withKey_append, ← hl, withKey_cons, withKey_cons]
    by_cases hk : key u = k
    · have hnone : withKey key k ((sortByKey key l).dropWhile fun b => key b ≤ key u) = [] :=
        List.filter_eq_nil_iff.mpr fun a ha heq =>
          absurd (hk.trans (of_decide_eq_true heq).symm) (hback a ha).ne
      rw [if_pos hk, if_pos hk, hnone, List.append_nil]
      rfl
    · rw [if_neg hk, if_neg hk]
      exact (List.append_nil _).symm

/-- The last entry of one key can be taken out of the sorted list by its position:
it is the last one whose key is not larger. -/
theorem eraseIdx_sortByKey (l : List α) (u : α) :
    (sortByKey key (l ++ [u])).eraseIdx
        (((sortByKey key (l ++ [u])).takeWhile fun b => key b ≤ key u).length - 1) =
      sortByKey key l := by
  have hback : ((sortByKey key l).dropWhile fun b => key b ≤ key u).takeWhile
      (fun b => key b ≤ key u) = [] := by
    rw [List.takeWhile_eq_nil_iff]
    intro hpos hle
    have hlt := lt_of_mem_dropWhile key (sorted_sortByKey key l) (List.get_mem _ ⟨0, hpos⟩)
    exact absurd (of_decide_eq_true hle) (not_le.mpr hlt)
  have hkept : ∀ a ∈ (sortByKey key l).takeWhile fun b => key b ≤ key u,
      decide (key a ≤ key u) = true := fun a ha => by simpa using List.mem_takeWhile_imp ha
  have hfront : (sortByKey key (l ++ [u])).takeWhile (fun b => key b ≤ key u) =
      ((sortByKey key l).takeWhile fun b => key b ≤ key u) ++ [u] := by
    rw [sortByKey_snoc, List.takeWhile_append_of_pos hkept,
      List.takeWhile_cons_of_pos (by simp), hback]
  rw [hfront, List.length_append, List.length_singleton, Nat.add_sub_cancel, sortByKey_snoc,
    List.eraseIdx_append_of_length_le le_rfl, Nat.sub_self]
  exact List.takeWhile_append_dropWhile

/-- The entry of the list with the largest key among those that satisfy a predicate,
and the latest one among several. -/
structure Winner (p : α → Bool) (l : List α) (i : ℕ) (a : α) : Prop where
  entry : l[i]? = some a
  satisfies : p a = true
  latest : ∀ j b, l[j]? = some b → p b = true → key b < key a ∨ (key b = key a ∧ j ≤ i)

section

variable {key} {p : α → Bool}

theorem Winner.unique {j : ℕ} {b : α} (ha : Winner key p l i a) (hb : Winner key p l j b) :
    a = b := by
  have hab := ha.latest j b hb.entry hb.satisfies
  have hba := hb.latest i a ha.entry ha.satisfies
  rcases hab with hlt | ⟨heq, hji⟩
  · rcases hba with hlt' | ⟨heq', _⟩
    · exact absurd hlt hlt'.not_gt
    · exact absurd heq' hlt.ne'
  · rcases hba with hlt' | ⟨_, hij⟩
    · exact absurd heq hlt'.ne'
    · have hsame : i = j := Nat.le_antisymm hij hji
      have hentry := ha.entry
      rw [hsame, hb.entry] at hentry
      exact (Option.some.inj hentry).symm

variable (key p)

/-- What a candidate does to the best entry so far. -/
def improve (best : Option α) (a : α) : Option α :=
  match best with
  | some b => if key b ≤ key a then some a else some b
  | none => some a

/-- The winner, found in one pass over the list. -/
def latest (l : List α) : Option α :=
  l.foldl (fun best a => if p a then improve key best a else best) none

theorem latest_snoc (l : List α) (a : α) :
    latest key p (l ++ [a]) = if p a then improve key (latest key p l) a else latest key p l := by
  unfold latest
  rw [List.foldl_append]
  rfl

theorem Winner.snoc {key : α → K} {p : α → Bool} {b : α} (h : Winner key p l i b)
    (ha : p a = true → key a < key b) : Winner key p (l ++ [a]) i b := by
  have hi : i < l.length := (List.getElem?_eq_some_iff.mp h.entry).1
  refine ⟨?_, h.satisfies, fun j c hc hpc => ?_⟩
  · rw [List.getElem?_append_left hi]
    exact h.entry
  · rcases Nat.lt_or_ge j l.length with hj | hj
    · rw [List.getElem?_append_left hj] at hc
      exact h.latest j c hc hpc
    · rw [List.getElem?_append_right hj] at hc
      have hmem := List.mem_singleton.mp (List.mem_of_getElem? hc)
      exact .inl (hmem ▸ ha (hmem ▸ hpc))

theorem latest_spec (l : List α) :
    match latest key p l with
    | none => ∀ a ∈ l, p a = false
    | some a => ∃ i, Winner key p l i a := by
  induction l using List.reverseRecOn with
  | nil => exact fun a ha => absurd ha List.not_mem_nil
  | append_singleton l a ih =>
    -- the new entry wins if it satisfies the predicate and no key before is larger
    have hwins : p a = true → (∀ (j : ℕ) b, l[j]? = some b → p b = true → key b ≤ key a) →
        ∃ i, Winner key p (l ++ [a]) i a := by
      intro hpa hle
      refine ⟨l.length, ?_, hpa, fun j b hb hpb => ?_⟩
      · rw [List.getElem?_append_right le_rfl, Nat.sub_self]
        rfl
      · have hj := (List.getElem?_eq_some_iff.mp hb).1
        rw [List.length_append, List.length_singleton] at hj
        rcases Nat.lt_or_ge j l.length with hlt | hge
        · rw [List.getElem?_append_left hlt] at hb
          rcases (hle j b hb hpb).lt_or_eq with hless | heq
          · exact .inl hless
          · exact .inr ⟨heq, hlt.le⟩
        · rw [List.getElem?_append_right hge] at hb
          rw [List.mem_singleton.mp (List.mem_of_getElem? hb)]
          exact .inr ⟨rfl, by omega⟩
    rw [latest_snoc]
    by_cases hpa : p a = true
    · rw [if_pos hpa]
      rcases hbest : latest key p l with _ | b
      · rw [hbest] at ih
        refine hwins hpa fun j b hb hpb => ?_
        rw [ih b (List.mem_of_getElem? hb)] at hpb
        cases hpb
      · rw [hbest] at ih
        obtain ⟨i, hw⟩ := ih
        unfold improve
        by_cases hle : key b ≤ key a
        · simp only [if_pos hle]
          refine hwins hpa fun j c hc hpc => ?_
          rcases hw.latest j c hc hpc with hlt | ⟨heq, _⟩
          · exact hlt.le.trans hle
          · exact heq.le.trans hle
        · simp only [if_neg hle]
          exact ⟨i, hw.snoc fun _ => not_le.mp hle⟩
    · rw [if_neg hpa]
      rcases hbest : latest key p l with _ | b
      · rw [hbest] at ih
        exact List.forall_mem_append.mpr ⟨ih,
          List.forall_mem_singleton.mpr (Bool.eq_false_iff.mpr hpa)⟩
      · rw [hbest] at ih
        obtain ⟨i, hw⟩ := ih
        exact ⟨i, hw.snoc fun hpa' => absurd hpa' hpa⟩

theorem Winner.latest_eq {key : α → K} (h : Winner key p l i a) :
    StableSort.latest key p l = some a := by
  have hspec := latest_spec key p l
  rcases hbest : StableSort.latest key p l with _ | b
  · rw [hbest] at hspec
    have hfalse := hspec a (List.mem_of_getElem? h.entry)
    rw [h.satisfies] at hfalse
    cases hfalse
  · rw [hbest] at hspec
    obtain ⟨j, hw⟩ := hspec
    rw [hw.unique h]

/-- Sorting and looking from the end finds what one pass finds. -/
theorem find?_sortByKey_eq_latest (l : List α) :
    (sortByKey key l).reverse.find? p = latest key p l := by
  induction l using List.reverseRecOn with
  | nil => rfl
  | append_singleton l a ih =>
    obtain ⟨front, back, hsplit, hle, hlt, hsnoc⟩ : ∃ front back, sortByKey key l = front ++ back ∧
        (∀ b ∈ front, key b ≤ key a) ∧ (∀ b ∈ back, key a < key b) ∧
        sortByKey key (l ++ [a]) = front ++ a :: back :=
      ⟨_, _, List.takeWhile_append_dropWhile.symm,
        fun b hb => by simpa using List.mem_takeWhile_imp hb,
        fun b hb => lt_of_mem_dropWhile key (sorted_sortByKey key l) hb, sortByKey_snoc key l a⟩
    rw [latest_snoc, ← ih, hsnoc, hsplit, List.reverse_append, List.reverse_cons,
      List.reverse_append, List.find?_append, List.find?_append, List.find?_append,
      List.find?_singleton]
    rcases hafter : back.reverse.find? p with _ | b
    · by_cases hpa : p a = true
      · simp only [hpa, if_true, Option.none_or, Option.some_or]
        rcases hbefore : front.reverse.find? p with _ | b
        · rfl
        · have hb := hle b (List.mem_reverse.mp (List.mem_of_find?_eq_some hbefore))
          exact (if_pos hb).symm
      · simp only [hpa, Bool.false_eq_true, if_false, Option.none_or]
    · have hb := hlt b (List.mem_reverse.mp (List.mem_of_find?_eq_some hafter))
      by_cases hpa : p a = true
      · rw [if_pos hpa, if_pos hpa]
        exact (if_neg hb.not_ge).symm
      · rw [if_neg hpa, if_neg hpa]
        rfl

/-- A winner stays one among fewer entries. -/
theorem latest_filter {q : α → Bool} (h : latest key p l = some a) (hq : q a = true) :
    latest key p (l.filter q) = some a := by
  have hsorted : (sortByKey key l).filter q = sortByKey key (l.filter q) := by
    refine eq_sortByKey key ((sorted_sortByKey key l).filter q) fun k => ?_
    have hkeep := congrArg (List.filter q) (withKey_sortByKey key k l)
    unfold withKey at hkeep ⊢
    rwa [List.filter_comm q, List.filter_comm q] at hkeep
  rw [← find?_sortByKey_eq_latest] at h ⊢
  obtain ⟨hp, before, after, hsplit, hbefore⟩ := List.find?_eq_some_iff_append.mp h
  rw [← hsorted, ← List.filter_reverse, List.find?_filter]
  refine List.find?_eq_some_iff_append.mpr ⟨by simp [hp, hq], before, after, hsplit, fun b hb => ?_⟩
  have hnot : p b = false := by simpa using hbefore b hb
  simp [hnot]

theorem latest_congr {q : α → Bool} (h : ∀ a ∈ l, p a = q a) : latest key p l = latest key q l := by
  induction l using List.reverseRecOn with
  | nil => rfl
  | append_singleton l a ih =>
    rw [latest_snoc, latest_snoc, h a (List.mem_append_right _ (List.mem_singleton_self a)),
      ih fun b hb => h b (List.mem_append_left _ hb)]

theorem latest_map {β : Type} (f : β → α) (l : List β) :
    latest key p (l.map f) = (latest (key ∘ f) (p ∘ f) l).map f := by
  induction l using List.reverseRecOn with
  | nil => rfl
  | append_singleton l b ih =>
    rw [List.map_append, List.map_singleton, latest_snoc, latest_snoc, ih]
    show (if p (f b) = true then _ else _) = Option.map f (if p (f b) = true then _ else _)
    by_cases hp : p (f b) = true
    · rw [if_pos hp, if_pos hp]
      rcases latest (key ∘ f) (p ∘ f) l with _ | c
      · rfl
      · show (if key (f c) ≤ key (f b) then _ else _) =
          Option.map f (if key (f c) ≤ key (f b) then _ else _)
        split <;> rfl
    · rw [if_neg hp, if_neg hp]

end

end StackPulse.StableSort
