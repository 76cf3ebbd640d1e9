import StackPulse.Words

/-!
Which load segment of an ELF image a mapping comes from. The segments that meet the mapping are
looked at in the order of the file, and the one that is chosen decides between file offsets and
static addresses. Segments may share file pages, so the choice is refused where they disagree.
-/
namespace StackPulse.LoadSegments

open Words

structure FileRange where
  start : UInt64
  size : UInt64
  deriving DecidableEq, Repr

/-- A page size is not zero. -/
structure PageSize where
  value : UInt64
  ne_zero : value ≠ 0
  deriving DecidableEq

namespace PageSize

def alignDown (page : PageSize) (value : UInt64) : UInt64 := value - value % page.value

def alignUp (page : PageSize) (value : UInt64) : Option UInt64 :=
  let remainder := value % page.value
  if remainder = 0 then some value else checkedAdd value (page.value - remainder)

def divides (page : PageSize) (value : UInt64) : Bool := value % page.value == 0

end PageSize

namespace FileRange

def stop (r : FileRange) : Option UInt64 := checkedAdd r.start r.size

def isValid (r : FileRange) : Bool := r.size != 0 && r.stop.isSome

def contains (r other : FileRange) : Bool :=
  match r.stop, other.stop with
  | some stop, some otherStop =>
      r.size != 0 && other.size != 0 && decide (r.start ≤ other.start) && decide (otherStop ≤ stop)
  | _, _ => false

def containsValue (r : FileRange) (value : UInt64) : Bool :=
  match r.stop with
  | some stop => decide (r.start ≤ value) && decide (value < stop)
  | none => false

def correlatesWith (r other : FileRange) : Bool := r.contains other || other.contains r

def isPageAligned (r : FileRange) (page : PageSize) : Bool :=
  page.divides r.start && decide (page.value ≤ r.size) && page.divides r.size

def pageFloorStart (r : FileRange) (page : PageSize) : UInt64 := page.alignDown r.start

def pageCeilEnd (r : FileRange) (page : PageSize) : Option UInt64 := r.stop.bind page.alignUp

def pageRoundedContainsValue (r : FileRange) (value : UInt64) (page : PageSize) : Bool :=
  r.size != 0 &&
    match r.pageCeilEnd page with
    | some stop => decide (r.pageFloorStart page ≤ value) && decide (value < stop)
    | none => false

end FileRange

structure LoadSegment where
  pOffset : UInt64
  pFilesz : UInt64
  pMemsz : UInt64
  pVaddr : UInt64
  pFlags : UInt32
  deriving DecidableEq, Repr

namespace LoadSegment

def fileRange (segment : LoadSegment) : FileRange := ⟨segment.pOffset, segment.pFilesz⟩

def hasFileContribution (segment : LoadSegment) : Bool := segment.fileRange.isValid

def containsPageRoundedHead (segment : LoadSegment) (mapping : FileRange) (page : PageSize) :
    Bool :=
  match segment.fileRange.stop, mapping.stop with
  | some segmentEnd, some mappingEnd =>
      decide (segment.fileRange.pageFloorStart page ≤ mapping.start) &&
        decide (mapping.start < segment.fileRange.start) &&
        (decide (segment.fileRange.start < mappingEnd) && decide (mappingEnd ≤ segmentEnd))
  | _, _ => false

def containsPageRoundedTail (segment : LoadSegment) (mapping : FileRange) (page : PageSize) :
    Bool :=
  match segment.fileRange.stop, mapping.stop, segment.fileRange.pageCeilEnd page with
  | some segmentEnd, some mappingEnd, some pageCeilEnd =>
      segment.fileRange.containsValue mapping.start &&
        (decide (segmentEnd < mappingEnd) && decide (mappingEnd ≤ pageCeilEnd))
  | _, _, _ => false

def correlatesWithMapping (segment : LoadSegment) (mapping : FileRange) (page : PageSize) : Bool :=
  if mapping.isValid = false then false
  else if segment.fileRange.correlatesWith mapping then true
  else if mapping.isPageAligned page = false then false
  else segment.containsPageRoundedHead mapping page || segment.containsPageRoundedTail mapping page

/-- The distance from file offsets to static addresses. -/
def bias (segment : LoadSegment) : ℤ := segment.pVaddr.toNat - segment.pOffset.toNat

end LoadSegment

/-- The first of some values, and whether a different one came after it. -/
structure Vote (β : Type) where
  first : Option β
  ambiguous : Bool
  deriving DecidableEq

namespace Vote

variable {β : Type} [DecidableEq β]

def none : Vote β := ⟨Option.none, false⟩

def note (v : Vote β) (b : β) : Vote β :=
  match v.first with
  | Option.none => { v with first := some b }
  | some previous => if previous ≠ b then { v with ambiguous := true } else v

/-- The vote was taken over these values. -/
structure Over (v : Vote β) (bs : List β) : Prop where
  first : v.first = bs.head?
  unanimous : v.ambiguous = false ↔ ∀ b ∈ bs, some b = bs.head?

omit [DecidableEq β] in
theorem over_none : (none : Vote β).Over [] := ⟨rfl, by simp [none]⟩

theorem Over.note {v : Vote β} {bs : List β} (h : v.Over bs) (b : β) :
    (v.note b).Over (bs ++ [b]) := by
  obtain ⟨first, ambiguous⟩ := v
  obtain ⟨hfirst, hall⟩ := h
  have hfirst : first = bs.head? := hfirst
  have hall : ambiguous = false ↔ ∀ b ∈ bs, some b = bs.head? := hall
  cases bs with
  | nil =>
    subst hfirst
    have hclear : ambiguous = false := hall.mpr fun c hc => (by cases hc)
    exact ⟨rfl, by simp [Vote.note, hclear]⟩
  | cons head rest =>
    subst hfirst
    by_cases hne : head ≠ b
    · have hnote : Vote.note ⟨some head, ambiguous⟩ b = ⟨some head, true⟩ := if_pos hne
      rw [List.head?_cons, hnote]
      refine ⟨rfl, fun hfalse => (by cases hfalse), fun hsame => ?_⟩
      exact absurd (Option.some.inj (hsame b (by simp))).symm hne
    · have hnote : Vote.note ⟨some head, ambiguous⟩ b = ⟨some head, ambiguous⟩ := if_neg hne
      rw [List.head?_cons, hnote]
      refine ⟨rfl, hall.trans ?_⟩
      constructor
      · intro hsame c hc
        rcases List.mem_append.mp hc with hc | hc
        · exact hsame c hc
        · rw [List.mem_singleton.mp hc, ← not_not.mp hne]
          rfl
      · intro hsame c hc
        exact hsame c (List.mem_append_left _ hc)

end Vote

structure Search where
  exact : Option LoadSegment
  start : Vote ℤ
  fallback : Option LoadSegment
  fallbackVote : Vote ℤ
  deriving DecidableEq

section

variable (mapping : FileRange) (page : PageSize)

def isExact (segment : LoadSegment) : Bool := segment.pOffset == mapping.start

/-- A segment that describes the first page of the mapping. -/
def isStartCandidate (segment : LoadSegment) : Bool :=
  isExact mapping segment ||
    (page.divides mapping.start && segment.fileRange.pageRoundedContainsValue mapping.start page)

/-- A segment that takes part: it has contents in the file, and meets the mapping. -/
def isCorrelated (segment : LoadSegment) : Bool :=
  segment.hasFileContribution && segment.correlatesWithMapping mapping page

def Search.look (s : Search) (segment : LoadSegment) : Search :=
  if isCorrelated mapping page segment = false then s
  else
    let s :=
      if isStartCandidate mapping page segment then { s with start := s.start.note segment.bias }
      else s
    if isExact mapping segment then { s with exact := s.exact.or (some segment) }
    else
      { s with
        fallback := if s.fallbackVote.first.isNone then some segment else s.fallback
        fallbackVote := s.fallbackVote.note segment.bias }

def Search.initial : Search := ⟨none, .none, none, .none⟩

def Search.result (s : Search) : Option LoadSegment :=
  match s.exact with
  | some exact => if s.start.ambiguous then none else some exact
  | none => if s.fallbackVote.ambiguous then none else s.fallback

end

def findLoadContributionForFileRange (page : PageSize) (segments : List LoadSegment)
    (fileOff mappingSpan : UInt64) : Option LoadSegment :=
  (segments.foldl (Search.look ⟨fileOff, mappingSpan⟩ page) .initial).result

section

variable {mapping : FileRange} {page : PageSize}

/-- Segments that describe the same distance. -/
def SameBias (segments : List LoadSegment) : Prop :=
  ∀ s ∈ segments, ∀ t ∈ segments, s.bias = t.bias

/-- What is known of the segments that were looked at. -/
structure Searched (mapping : FileRange) (page : PageSize) (seen : List LoadSegment) (s : Search) :
    Prop where
  exact : s.exact = (seen.filter (isExact mapping)).head?
  start : s.start.Over ((seen.filter (isStartCandidate mapping page)).map LoadSegment.bias)
  fallback : s.fallback = (seen.filter fun segment => !isExact mapping segment).head?
  fallbackVote : s.fallbackVote.Over
    ((seen.filter fun segment => !isExact mapping segment).map LoadSegment.bias)

theorem searched_initial : Searched mapping page [] .initial :=
  ⟨rfl, Vote.over_none, rfl, Vote.over_none⟩

theorem filter_snoc (p : LoadSegment → Bool) (seen : List LoadSegment) (segment : LoadSegment) :
    (seen ++ [segment]).filter p =
      if p segment then seen.filter p ++ [segment] else seen.filter p := by
  rw [List.filter_append, List.filter_singleton]
  cases p segment with
  | true => rfl
  | false => exact List.append_nil _

/-- A vote over the segments with a property goes on with the next one. -/
theorem over_filter_snoc {p : LoadSegment → Bool} {seen : List LoadSegment} {v : Vote ℤ}
    (h : v.Over ((seen.filter p).map LoadSegment.bias)) (segment : LoadSegment) :
    (if p segment then v.note segment.bias else v).Over
      (((seen ++ [segment]).filter p).map LoadSegment.bias) := by
  rw [filter_snoc]
  cases p segment with
  | true =>
    simp only [if_true, List.map_append, List.map_singleton]
    exact h.note segment.bias
  | false => exact h

theorem head_filter_snoc (p : LoadSegment → Bool) (seen : List LoadSegment)
    (segment : LoadSegment) :
    ((seen ++ [segment]).filter p).head? =
      if p segment then (seen.filter p).head?.or (some segment) else (seen.filter p).head? := by
  rw [filter_snoc]
  cases p segment with
  | true => simp only [if_true, List.head?_append, List.head?_cons]
  | false => rfl

/-- The first segment of a vote is kept beside it. -/
theorem keep_first {kept : Option LoadSegment} {segments : List LoadSegment} {v : Vote ℤ}
    (hkept : kept = segments.head?) (hv : v.Over (segments.map LoadSegment.bias))
    (segment : LoadSegment) :
    (if v.first.isNone then some segment else kept) = segments.head?.or (some segment) := by
  rw [hv.first, hkept]
  cases segments with
  | nil => rfl
  | cons first rest => rfl

theorem Searched.look {seen : List LoadSegment} {s : Search} (h : Searched mapping page seen s)
    {segment : LoadSegment} (hsegment : isCorrelated mapping page segment = true) :
    Searched mapping page (seen ++ [segment]) (s.look mapping page segment) := by
  have hstart := over_filter_snoc h.start segment
  have hvote := over_filter_snoc h.fallbackVote segment
  have hlooked : s.look mapping page segment =
      ⟨if isExact mapping segment then s.exact.or (some segment) else s.exact,
        if isStartCandidate mapping page segment then s.start.note segment.bias else s.start,
        if !isExact mapping segment then
          if s.fallbackVote.first.isNone then some segment else s.fallback
        else s.fallback,
        if !isExact mapping segment then s.fallbackVote.note segment.bias else s.fallbackVote⟩ := by
    unfold Search.look
    rw [if_neg (by rw [hsegment]; decide)]
    cases isStartCandidate mapping page segment <;> cases isExact mapping segment <;> rfl
  rw [hlooked]
  refine ⟨?_, hstart, ?_, hvote⟩
  · rw [head_filter_snoc, ← h.exact]
  · rw [head_filter_snoc, keep_first h.fallback h.fallbackVote, ← h.fallback]

/-- By induction on the segments that are still to be looked at. -/
theorem searched_foldl (segments seen : List LoadSegment) (s : Search)
    (h : Searched mapping page seen s) :
    Searched mapping page (seen ++ segments.filter (isCorrelated mapping page))
      (segments.foldl (Search.look mapping page) s) := by
  induction segments generalizing seen s with
  | nil =>
    rw [List.filter_nil, List.append_nil]
    exact h
  | cons segment segments ih =>
    rw [List.foldl_cons]
    by_cases hsegment : isCorrelated mapping page segment = true
    · have hrest := ih (seen ++ [segment]) _ (h.look hsegment)
      rw [List.filter_cons, if_pos hsegment]
      rwa [List.append_assoc, List.singleton_append] at hrest
    · rw [Search.look, if_pos (Bool.eq_false_iff.mpr hsegment), List.filter_cons, if_neg hsegment]
      exact ih seen s h

theorem Vote.Over.unanimous_iff {v : Vote ℤ} {segments : List LoadSegment}
    (h : v.Over (segments.map LoadSegment.bias)) : v.ambiguous = false ↔ SameBias segments := by
  rw [h.unanimous]
  cases segments with
  | nil => simp [SameBias]
  | cons first rest =>
    constructor
    · intro hall s hs t ht
      have hs' := hall s.bias (List.mem_map_of_mem hs)
      have ht' := hall t.bias (List.mem_map_of_mem ht)
      exact Option.some.inj (hs'.trans ht'.symm)
    · intro hsame b hb
      obtain ⟨s, hs, rfl⟩ := List.mem_map.mp hb
      exact congrArg some (hsame s hs first List.mem_cons_self)

/-- The segments that have to agree: those at the start of the mapping if one begins exactly there,
and otherwise all. -/
def deciding (mapping : FileRange) (page : PageSize) (correlated : List LoadSegment) :
    List LoadSegment :=
  if correlated.any (isExact mapping) then correlated.filter (isStartCandidate mapping page)
  else correlated

/-- A result is a segment that takes part in the decision, and there is one when there are segments
that agree. -/
theorem result_of_searched {correlated : List LoadSegment} {s : Search}
    (h : Searched mapping page correlated s) :
    (∀ segment, s.result = some segment → segment ∈ deciding mapping page correlated) ∧
      (s.result.isSome = true ↔ correlated ≠ [] ∧ SameBias (deciding mapping page correlated)) := by
  have hexact := h.exact
  unfold Search.result deciding
  cases hfound : s.exact with
  | some found =>
    rw [hfound] at hexact
    have hmem := List.mem_filter.mp (List.mem_of_mem_head? hexact.symm)
    have hany : correlated.any (isExact mapping) = true := List.any_eq_true.mpr ⟨found, hmem⟩
    have hcandidate : isStartCandidate mapping page found = true := by
      unfold isStartCandidate
      rw [hmem.2, Bool.true_or]
    have hne : correlated ≠ [] := List.ne_nil_of_mem hmem.1
    rw [if_pos hany]
    have hsame := Vote.Over.unanimous_iff h.start
    cases hclear : s.start.ambiguous with
    | true =>
      refine ⟨fun segment hresult => (by cases hresult), ?_⟩
      simp only [if_true, Option.isSome_none, Bool.false_eq_true, false_iff]
      rintro ⟨-, hall⟩
      rw [hsame.mpr hall] at hclear
      cases hclear
    | false =>
      refine ⟨fun segment hresult => ?_, fun _ => ⟨hne, hsame.mp hclear⟩, fun _ => rfl⟩
      cases hresult
      exact List.mem_filter.mpr ⟨hmem.1, hcandidate⟩
  | none =>
    rw [hfound] at hexact
    have hnone : ∀ segment ∈ correlated, ¬isExact mapping segment = true :=
      List.filter_eq_nil_iff.mp (List.head?_eq_none_iff.mp hexact.symm)
    have hall : (correlated.filter fun segment => !isExact mapping segment) = correlated := by
      apply List.filter_eq_self.mpr
      intro segment hsegment
      rw [Bool.not_eq_true', Bool.eq_false_iff]
      exact hnone segment hsegment
    have hany : ¬correlated.any (isExact mapping) = true := by
      rw [List.any_eq_true]
      rintro ⟨segment, hsegment, hexact⟩
      exact hnone segment hsegment hexact
    rw [if_neg hany]
    have hvote := h.fallbackVote
    have hfallback := h.fallback
    rw [hall] at hvote hfallback
    have hsame := Vote.Over.unanimous_iff hvote
    cases hclear : s.fallbackVote.ambiguous with
    | true =>
      refine ⟨fun segment hresult => (by cases hresult), ?_⟩
      simp only [if_true, Option.isSome_none, Bool.false_eq_true, false_iff]
      rintro ⟨-, hagree⟩
      rw [hsame.mpr hagree] at hclear
      cases hclear
    | false =>
      simp only [Bool.false_eq_true, if_false, hfallback]
      refine ⟨fun segment hresult => List.mem_of_mem_head? hresult, ?_⟩
      rw [List.isSome_head?]
      exact ⟨fun hne => ⟨hne, hsame.mp hclear⟩, And.left⟩

end

end StackPulse.LoadSegments
