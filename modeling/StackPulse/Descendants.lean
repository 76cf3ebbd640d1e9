import Mathlib.Data.Fintype.Card

/-!
Descendants of a set of processes, found by walking a snapshot of the process
table. The snapshot is racy: its parent relation may have cycles, and a process
may be listed below several parents. The `children` files and, where the kernel
has none, the `stat` files feed the same walk.
-/
namespace StackPulse.Descendants

variable {P : Type} [DecidableEq P]

/-- Processes seen, those whose children are still to be read, the next one
first, and the edges found, each a child with its parent. -/
structure Walk (P : Type) where
  visited : List P
  stack : List P
  out : List (P × P)

def visit (parent : P) (w : Walk P) (child : P) : Walk P :=
  if child ∈ w.visited then w
  else ⟨child :: w.visited, child :: w.stack, w.out ++ [(child, parent)]⟩

/-- The outer `none` is a lack of fuel, the inner one a process whose children
cannot be read. -/
def walk (children : P → Option (List P)) : ℕ → Walk P → Option (Option (List (P × P)))
  | 0, _ => none
  | fuel + 1, w =>
      match w.stack with
      | [] => some (some w.out)
      | parent :: stack =>
          match children parent with
          | none => some none
          | some kids => walk children fuel (kids.foldl (visit parent) { w with stack })

/-- The last root is popped first. -/
def start (roots : List P) : Walk P := ⟨roots, roots.reverse, []⟩

def descendantEdgesViaProcChildren (children : P → Option (List P)) (fuel : ℕ) (roots : List P) :
    Option (Option (List (P × P))) :=
  walk children fuel (start roots)

/-- The processes of the table with this parent; a `stat` file that cannot be
read or parsed gives none. -/
def childrenOf (table : List (P × Option P)) (parent : P) : List P :=
  (table.filter (·.2 = some parent)).map Prod.fst

def descendantEdgesViaStat (table : List (P × Option P)) (fuel : ℕ) (roots : List P) :
    Option (Option (List (P × P))) :=
  walk (fun parent => some (childrenOf table parent)) fuel (start roots)

def discoverDescendantEdgesRawForRoots (children : P → Option (List P))
    (table : List (P × Option P)) (fuel : ℕ) (roots : List P) : Option (Option (List (P × P))) :=
  match descendantEdgesViaProcChildren children fuel roots with
  | some none => descendantEdgesViaStat table fuel roots
  | result => result

section

variable (IsParent : P → P → Prop) (roots : List P)

/-- Edges in the order they are found: each hangs a process that is neither a
root nor the child of an earlier edge below a root or such a child. -/
inductive Forest : List (P × P) → Prop
  | nil : Forest []
  | push {out child parent} : Forest out → parent ∈ roots ∨ parent ∈ out.map Prod.fst →
      IsParent parent child → child ∉ roots → child ∉ out.map Prod.fst →
      Forest (out ++ [(child, parent)])

def Reachable (process : P) : Prop := ∃ root ∈ roots, Relation.ReflTransGen IsParent root process

structure SpanningForest (out : List (P × P)) : Prop where
  forest : Forest IsParent roots out
  once : (out.map Prod.fst).Nodup
  spans : ∀ process, process ∈ out.map Prod.fst ↔
    process ∉ roots ∧ Reachable IsParent roots process

/-- The walk while the children `pending` of the last process are left to visit. -/
structure Walking (pending : List P) (w : Walk P) : Prop where
  forest : Forest IsParent roots w.out
  visited : ∀ process, process ∈ w.visited ↔ process ∈ roots ∨ process ∈ w.out.map Prod.fst
  stack : w.stack ⊆ w.visited
  closed : ∀ parent ∈ w.visited, parent ∉ w.stack → ∀ child, IsParent parent child →
    child ∈ w.visited ∨ child ∈ pending

variable {IsParent roots} {w : Walk P} {parent : P} {pending : List P}

theorem Walking.visit {child : P} (h : Walking IsParent roots (child :: pending) w)
    (hparent : parent ∈ w.visited) (hedge : IsParent parent child) :
    Walking IsParent roots pending (visit parent w child) := by
  unfold Descendants.visit
  split
  · rename_i hseen
    refine { h with closed := fun p hp hstack c hc => ?_ }
    rcases h.closed p hp hstack c hc with hmem | hmem
    · exact .inl hmem
    · rcases List.mem_cons.mp hmem with rfl | hmem
      · exact .inl hseen
      · exact .inr hmem
  · rename_i hnew
    have hnew' := mt (h.visited child).mpr hnew
    rw [not_or] at hnew'
    refine ⟨h.forest.push ((h.visited parent).mp hparent) hedge hnew'.1 hnew'.2, fun p => ?_,
      List.cons_subset_cons _ h.stack, fun p hp hstack c hc => ?_⟩
    · simp only [List.mem_cons, h.visited, List.map_append, List.mem_append, List.map_cons,
        List.map_nil, List.not_mem_nil, or_false]
      tauto
    · rw [List.mem_cons, not_or] at hstack
      have hp' := (List.mem_cons.mp hp).resolve_left hstack.1
      rcases h.closed p hp' hstack.2 c hc with hmem | hmem
      · exact .inl (.tail _ hmem)
      · rcases List.mem_cons.mp hmem with rfl | hmem
        · exact .inl (.head _)
        · exact .inr hmem

theorem Walking.visitAll (h : Walking IsParent roots pending w) (hparent : parent ∈ w.visited)
    (hedges : ∀ child ∈ pending, IsParent parent child) :
    Walking IsParent roots [] (pending.foldl (Descendants.visit parent) w) := by
  induction pending generalizing w with
  | nil => exact h
  | cons child pending ih =>
    refine ih (h.visit hparent (hedges child (.head _))) ?_
      fun c hc => hedges c (.tail _ hc)
    unfold Descendants.visit
    split
    · exact hparent
    · exact .tail _ hparent

/-- A process leaves the stack when its children take their place on it. -/
theorem Walking.pop {stack kids : List P} (h : Walking IsParent roots [] w)
    (hstack : w.stack = parent :: stack) (hkids : ∀ child, IsParent parent child → child ∈ kids) :
    Walking IsParent roots kids { w with stack } := by
  refine { h with
    stack := fun p hp => h.stack (hstack ▸ .tail _ hp)
    closed := fun p hp hmem c hc => ?_ }
  by_cases hpop : p = parent
  · exact .inr (hkids c (hpop ▸ hc))
  · refine .inl ((h.closed p hp ?_ c hc).resolve_right List.not_mem_nil)
    rw [hstack, List.mem_cons, not_or]
    exact ⟨hpop, hmem⟩

omit [DecidableEq P] in
theorem Forest.reachable {out : List (P × P)} (h : Forest IsParent roots out) :
    (out.map Prod.fst).Nodup ∧ ∀ process ∈ out.map Prod.fst,
      process ∉ roots ∧ Reachable IsParent roots process := by
  induction h with
  | nil => exact ⟨List.nodup_nil, fun process hprocess => by cases hprocess⟩
  | @push out child parent _ hparent hedge hroot hnew ih =>
    have hreach : Reachable IsParent roots parent := by
      rcases hparent with hparent | hparent
      · exact ⟨parent, hparent, .refl⟩
      · exact (ih.2 parent hparent).2
    obtain ⟨root, hmem, hpath⟩ := hreach
    rw [List.map_append]
    refine ⟨ih.1.append (List.nodup_singleton _) (by simpa using hnew), fun process hprocess => ?_⟩
    rcases List.mem_append.mp hprocess with hprocess | hprocess
    · exact ih.2 process hprocess
    · rw [List.mem_singleton.mp hprocess]
      exact ⟨hroot, root, hmem, hpath.tail hedge⟩

omit [DecidableEq P] in
/-- A walk with an empty stack has visited all there is. -/
theorem Walking.spanningForest (h : Walking IsParent roots [] w) (hstack : w.stack = []) :
    SpanningForest IsParent roots w.out := by
  obtain ⟨honce, hsound⟩ := h.forest.reachable
  refine ⟨h.forest, honce, fun process => ⟨hsound process, ?_⟩⟩
  rintro ⟨hroot, root, hmem, hpath⟩
  have hvisited : process ∈ w.visited := by
    clear hroot
    induction hpath with
    | refl => exact (h.visited root).mpr (.inl hmem)
    | tail _ hedge ih =>
      refine (h.closed _ ih ?_ _ hedge).resolve_right List.not_mem_nil
      rw [hstack]
      exact List.not_mem_nil
  exact ((h.visited process).mp hvisited).resolve_left hroot

end

def Lists (children : P → Option (List P)) (parent child : P) : Prop :=
  ∃ kids, children parent = some kids ∧ child ∈ kids

variable (children : P → Option (List P)) [Fintype P]

/-- What is left to push and to pop. -/
def work (w : Walk P) : ℕ := (Finset.univ.filter (· ∉ w.visited)).card + w.stack.length

theorem work_foldl_visit (parent : P) (kids : List P) (w : Walk P) :
    work (kids.foldl (visit parent) w) = work w := by
  induction kids generalizing w with
  | nil => rfl
  | cons child kids ih =>
    rw [List.foldl_cons, ih]
    unfold visit
    split
    · rfl
    · rename_i hnew
      have hsplit : (Finset.univ.filter (· ∉ w.visited)) =
          insert child (Finset.univ.filter (· ∉ child :: w.visited)) := by
        ext p
        by_cases hp : p = child <;> simp [hp, hnew]
      simp only [work]
      rw [hsplit, Finset.card_insert_of_notMem (by simp), List.length_cons]
      omega

/-- Each round takes one process off the stack for good. -/
theorem walk_ends {roots : List P} {fuel : ℕ} {w : Walk P}
    (h : Walking (Lists children) roots [] w) (hfuel : work w < fuel) :
    ∃ result, walk children fuel w = some result ∧
      (result = none → ∃ parent, children parent = none) ∧
      ∀ out, result = some out → SpanningForest (Lists children) roots out := by
  induction fuel generalizing w with
  | zero => omega
  | succ fuel ih =>
    unfold walk
    split
    · rename_i hstack
      refine ⟨_, rfl, fun hnone => (by cases hnone), fun out hout => ?_⟩
      cases hout
      exact h.spanningForest hstack
    · rename_i parent stack hstack
      split
      · exact ⟨none, rfl, fun _ => ⟨parent, ‹_›⟩, fun out hout => by cases hout⟩
      · rename_i kids hkids
        have hlists : ∀ child, Lists children parent child ↔ child ∈ kids := by
          simp [Lists, hkids]
        have hparent : parent ∈ w.visited := h.stack (hstack ▸ .head _)
        refine ih ((h.pop hstack fun c => (hlists c).mp).visitAll hparent
          fun c => (hlists c).mpr) ?_
        rw [work_foldl_visit]
        simp only [work, hstack, List.length_cons] at hfuel ⊢
        omega

/-- Every process is pushed at most once, and every root is popped. -/
def rounds (roots : List P) : ℕ := Fintype.card P + roots.length + 1

theorem walk_start (roots : List P) (extra : ℕ) :
    ∃ result, walk children (rounds roots + extra) (start roots) = some result ∧
      (result = none → ∃ parent, children parent = none) ∧
      ∀ out, result = some out → SpanningForest (Lists children) roots out := by
  have hwork : work (start roots) ≤ Fintype.card P + roots.length :=
    Nat.add_le_add (Finset.card_le_univ _) (List.length_reverse ..).le
  refine walk_ends children ?_ (by unfold rounds; omega)
  exact ⟨.nil, by simp [start], fun p hp => List.mem_reverse.mp hp, fun p hp hstack =>
    absurd (List.mem_reverse.mpr hp) hstack⟩

/-- Both walks end, and the edges span what the roots reach in the table that
was read. -/
theorem descendant_edges_span (table : List (P × Option P)) (roots : List P) (extra : ℕ) :
    ∃ out, discoverDescendantEdgesRawForRoots children table (rounds roots + extra) roots =
        some (some out) ∧
      (descendantEdgesViaProcChildren children (rounds roots + extra) roots = some (some out) ∧
          SpanningForest (Lists children) roots out ∨
        descendantEdgesViaProcChildren children (rounds roots + extra) roots = some none ∧
          SpanningForest (fun parent child => (child, some parent) ∈ table) roots out) := by
  obtain ⟨fast, hfast, -, hspans⟩ := walk_start children roots extra
  unfold discoverDescendantEdgesRawForRoots descendantEdgesViaProcChildren descendantEdgesViaStat
  simp only [hfast]
  cases fast with
  | some out => exact ⟨out, rfl, .inl ⟨rfl, hspans out rfl⟩⟩
  | none =>
    obtain ⟨slow, hslow, hread, hspans'⟩ :=
      walk_start (fun parent => some (childrenOf table parent)) roots extra
    have htable : Lists (fun parent => some (childrenOf table parent)) =
        fun parent child => (child, some parent) ∈ table := by
      funext parent child
      simp [Lists, childrenOf]
    cases slow with
    | none =>
      obtain ⟨parent, hnone⟩ := hread rfl
      cases hnone
    | some out => exact ⟨out, hslow, .inr ⟨rfl, htable ▸ hspans' out rfl⟩⟩

/-- Where the `children` and the `stat` files agree, both walks find the same
processes, each once, in whatever order these and the roots are listed. -/
theorem fast_walk_agrees (table : List (P × Option P)) (roots roots' : List P) (extra : ℕ)
    (hsame : ∀ parent child, Lists children parent child ↔ (child, some parent) ∈ table)
    (hroots : ∀ p, p ∈ roots ↔ p ∈ roots') {out : List (P × P)}
    (hfast : descendantEdgesViaProcChildren children (rounds roots + extra) roots =
      some (some out)) :
    ∃ out', descendantEdgesViaStat table (rounds roots' + extra) roots' = some (some out') ∧
      (out.map Prod.fst).Nodup ∧ (out'.map Prod.fst).Nodup ∧
      (out.map Prod.fst).Perm (out'.map Prod.fst) := by
  obtain ⟨_, hwalk, -, hspans⟩ := walk_start children roots extra
  have hfound := hspans out (Option.some.inj (hwalk.symm.trans hfast))
  have hlists : Lists children = Lists fun parent => some (childrenOf table parent) := by
    funext parent child
    rw [hsame]
    simp [Lists, childrenOf]
  rw [hlists] at hfound
  obtain ⟨_ | out', hstat, hread, hspans'⟩ :=
    walk_start (fun parent => some (childrenOf table parent)) roots' extra
  · obtain ⟨_, hnone⟩ := hread rfl
    cases hnone
  · have hfound' := hspans' out' rfl
    refine ⟨out', hstat, hfound.once, hfound'.once,
      (List.perm_ext_iff_of_nodup hfound.once hfound'.once).mpr fun p => ?_⟩
    rw [hfound.spans, hfound'.spans]
    simp only [Reachable, hroots]

/-- Below 0 are 3, 1 and the root 2, below 1 is 4, and below 2 are 5 and 4 again. -/
def listedChildren (p : Fin 6) : List (Fin 6) :=
  if p = 0 then [3, 1, 2] else if p = 1 then [4] else if p = 2 then [5, 4] else []

def statTable : List (Fin 6 × Option (Fin 6)) :=
  [(5, some 2), (0, none), (4, some 2), (1, some 0), (4, some 1), (2, some 0), (3, some 0)]

theorem fast_walk_agrees_reordered :
    descendantEdgesViaProcChildren (fun p => some (listedChildren p)) 10 [0, 2, 0] =
        some (some [(3, 0), (1, 0), (4, 1), (5, 2)]) ∧
      ∃ out', descendantEdgesViaStat statTable 10 [2, 2, 0] = some (some out') ∧
        (out'.map Prod.fst).Nodup ∧ [3, 1, 4, 5].Perm (out'.map Prod.fst) := by
  have hfast : descendantEdgesViaProcChildren (fun p => some (listedChildren p)) 10 [0, 2, 0] =
      some (some [(3, 0), (1, 0), (4, 1), (5, 2)]) := by rfl
  obtain ⟨out', hstat, -, honce, hperm⟩ := fast_walk_agrees (fun p => some (listedChildren p))
    statTable [0, 2, 0] [2, 2, 0] 0 (by simp [Lists]; decide) (by decide) hfast
  exact ⟨hfast, out', hstat, honce, hperm⟩

end StackPulse.Descendants
