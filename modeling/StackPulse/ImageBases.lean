import StackPulse.LoadSegments
import Mathlib.Data.Int.ModEq
import Mathlib.Tactic.Ring

/-!
Image bases of mappings. The chosen load segment fixes the distance between the addresses of a
mapping and the static addresses of its image. The choice does not depend on the order of the
segments, it is refused exactly where the segments leave it open, and every translation that is
given agrees with all segments of the same distance.
-/
namespace StackPulse.ImageBases

open Words LoadSegments

/-- The parts of an ELF image that its base is computed from. -/
structure ElfSectionInfo where
  baseSvma : UInt64
  textSvma : Option (UInt64 × UInt64)
  textFileRange : Option (UInt64 × UInt64)
  loadSegments : List LoadSegment
  deriving DecidableEq, Repr

structure ModuleImageBase where
  avma : UInt64
  svma : UInt64
  deriving DecidableEq, Repr

namespace ModuleImageBase

def relativeAddress (base : ModuleImageBase) (avma : UInt64) : Option UInt64 :=
  checkedSub avma base.avma

def svmaForAvma (base : ModuleImageBase) (avma : UInt64) : Option UInt64 :=
  (base.relativeAddress avma).bind fun relative => checkedAdd base.svma relative

end ModuleImageBase

structure ImageReference where
  svma : UInt64
  fileOffset : UInt64
  deriving DecidableEq, Repr

def computeVmaBias (referenceFileOffset referenceSvma mappingStartFileOffset
    mappingStartAvma : UInt64) : UInt64 :=
  let fileDelta := referenceFileOffset - mappingStartFileOffset
  let referenceAvma := mappingStartAvma + fileDelta
  referenceAvma - referenceSvma

/-- An image without load segments is placed by its text section. -/
def textReference (info : ElfSectionInfo) (mapping : FileRange) : Option ImageReference :=
  if info.loadSegments.isEmpty then do
    let textSvma ← info.textSvma
    let textFileRange ← info.textFileRange
    let textSize := textFileRange.2 - min textFileRange.1 textFileRange.2
    if (FileRange.mk textFileRange.1 textSize).correlatesWith mapping then
      some ⟨textSvma.1, textFileRange.1⟩
    else none
  else none

def resolveMappingImageBase (page : PageSize) (info : ElfSectionInfo)
    (mappingStartFileOffset mappingStartAvma mappingSpan : UInt64) : Option ModuleImageBase := do
  let reference ←
    ((findLoadContributionForFileRange page info.loadSegments mappingStartFileOffset
      mappingSpan).map fun segment => ImageReference.mk segment.pVaddr segment.pOffset).or
      (textReference info ⟨mappingStartFileOffset, mappingSpan⟩)
  let imageBias := computeVmaBias reference.fileOffset reference.svma mappingStartFileOffset
    mappingStartAvma
  pure ⟨info.baseSvma + imageBias, info.baseSvma⟩

/-- The page-rounded file range of a segment contains an offset, and ends at an offset. -/
structure RoundedContains (page : PageSize) (segment : LoadSegment) (value : UInt64) : Prop where
  floor : segment.pOffset.toNat / page.value.toNat * page.value.toNat ≤ value.toNat
  ceil : value.toNat < (segment.pOffset.toNat + segment.pFilesz.toNat + page.value.toNat - 1) /
    page.value.toNat * page.value.toNat

theorem PageSize.toNat_pos (page : PageSize) : 0 < page.value.toNat := by
  have hne := page.ne_zero
  by_contra hzero
  exact hne (UInt64.toNat_inj.mp (Nat.le_zero.mp (Nat.not_lt.mp hzero)))

theorem toNat_alignDown (page : PageSize) (value : UInt64) :
    (page.alignDown value).toNat = value.toNat / page.value.toNat * page.value.toNat := by
  unfold PageSize.alignDown
  have hle : value % page.value ≤ value := by
    show (value % page.value).toNat ≤ value.toNat
    rw [UInt64.toNat_mod]
    exact Nat.mod_le _ _
  rw [UInt64.toNat_sub_of_le _ _ hle, UInt64.toNat_mod]
  have hdiv := Nat.div_add_mod' value.toNat page.value.toNat
  omega

theorem ceil_eq (v p : ℕ) (hp : 0 < p) : (v + p - 1) / p * p =
    if v % p = 0 then v else v + (p - v % p) := by
  have hmod := Nat.mod_lt v hp
  have hdiv := Nat.div_add_mod' v p
  split
  · rename_i hzero
    have hquot : (v + p - 1) / p = v / p :=
      Nat.div_eq_of_lt_le (by omega) (by rw [Nat.succ_mul]; omega)
    rw [hquot]
    omega
  · rename_i hpos
    have hquot : (v + p - 1) / p = v / p + 1 :=
      Nat.div_eq_of_lt_le (by rw [Nat.succ_mul]; omega) (by rw [Nat.succ_mul, Nat.succ_mul]; omega)
    rw [hquot, Nat.succ_mul]
    omega

/-- Rounding up gives the next multiple, if that is a word. -/
theorem alignUp_eq_some {page : PageSize} {value rounded : UInt64} :
    page.alignUp value = some rounded ↔
      rounded.toNat = (value.toNat + page.value.toNat - 1) / page.value.toNat *
        page.value.toNat := by
  have hmod : (value % page.value).toNat = value.toNat % page.value.toNat := UInt64.toNat_mod _ _
  have hlt : value.toNat % page.value.toNat < page.value.toNat :=
    Nat.mod_lt _ (PageSize.toNat_pos page)
  rw [ceil_eq _ _ (PageSize.toNat_pos page)]
  unfold PageSize.alignUp
  by_cases hzero : value % page.value = 0
  · have hzero' : value.toNat % page.value.toNat = 0 := by
      rw [← hmod, hzero]
      rfl
    simp only [hzero, hzero', if_true, Option.some.injEq, ← UInt64.toNat_inj]
    exact eq_comm
  · have hzero' : value.toNat % page.value.toNat ≠ 0 := by
      intro h
      rw [← hmod] at h
      exact hzero (UInt64.toNat_inj.mp h)
    have hle : value % page.value ≤ page.value := by
      show (value % page.value).toNat ≤ page.value.toNat
      omega
    simp only [if_neg hzero, if_neg hzero']
    rw [checkedAdd_eq_some, UInt64.toNat_sub_of_le _ _ hle, hmod]

/-- The test of the search, in numbers: rounding must not leave the words. -/
theorem pageRoundedContainsValue_iff {page : PageSize} {segment : LoadSegment} {value : UInt64}
    (hcontents : segment.hasFileContribution = true) :
    segment.fileRange.pageRoundedContainsValue value page = true ↔
      (segment.pOffset.toNat + segment.pFilesz.toNat + page.value.toNat - 1) / page.value.toNat *
          page.value.toNat < 2 ^ 64 ∧ RoundedContains page segment value := by
  obtain ⟨hsize, hstop⟩ := Bool.and_eq_true_iff.mp hcontents
  obtain ⟨stop, hstop⟩ := Option.isSome_iff_exists.mp hstop
  have hend : stop.toNat = segment.pOffset.toNat + segment.pFilesz.toNat :=
    checkedAdd_eq_some.mp hstop
  have hfloor : (segment.fileRange.pageFloorStart page).toNat =
      segment.pOffset.toNat / page.value.toNat * page.value.toNat := toNat_alignDown _ _
  have hceil : segment.fileRange.pageCeilEnd page = page.alignUp stop := by
    unfold FileRange.pageCeilEnd
    rw [hstop, Option.bind_some]
  unfold FileRange.pageRoundedContainsValue
  rw [hsize, Bool.true_and, hceil, ← hend]
  cases hround : page.alignUp stop with
  | none =>
    simp only [Bool.false_eq_true, false_iff, not_and]
    intro hfits
    have hsome := alignUp_eq_some.mpr (UInt64.toNat_ofNat_of_lt' hfits)
    rw [hround] at hsome
    cases hsome
  | some rounded =>
    have hrounded := alignUp_eq_some.mp hround
    have hlt := rounded.toNat_lt
    simp only [Bool.and_eq_true, decide_eq_true_eq]
    constructor
    · rintro ⟨hlow, hhigh⟩
      have hlow : (segment.fileRange.pageFloorStart page).toNat ≤ value.toNat := hlow
      have hhigh : value.toNat < rounded.toNat := hhigh
      exact ⟨by omega, by omega, by rw [← hend]; omega⟩
    · rintro ⟨-, hlow, hhigh⟩
      refine ⟨?_, ?_⟩
      · show (segment.fileRange.pageFloorStart page).toNat ≤ value.toNat
        omega
      · show value.toNat < rounded.toNat
        rw [← hend] at hhigh
        omega

section

variable {page : PageSize} {segments segments' : List LoadSegment} {fileOff span : UInt64}
  {segment : LoadSegment}

/-- The segment has contents in the file and meets the mapping. -/
def Correlated (page : PageSize) (fileOff span : UInt64) (segment : LoadSegment) : Prop :=
  isCorrelated ⟨fileOff, span⟩ page segment = true

instance (page : PageSize) (fileOff span : UInt64) (segment : LoadSegment) :
    Decidable (Correlated page fileOff span segment) :=
  inferInstanceAs (Decidable (_ = true))

/-- The segment begins at the offset, or the offset is that of a page and lies in the page-rounded
file range of the segment. -/
def AtStart (page : PageSize) (fileOff : UInt64) (segment : LoadSegment) : Prop :=
  segment.pOffset = fileOff ∨ (fileOff.toNat % page.value.toNat = 0 ∧
    (segment.pOffset.toNat + segment.pFilesz.toNat + page.value.toNat - 1) / page.value.toNat *
      page.value.toNat < 2 ^ 64 ∧ RoundedContains page segment fileOff)

/-- Some segment meets the mapping, and those that count agree: the ones at the start of the mapping
if one begins exactly there, and all of them otherwise. -/
structure Decided (page : PageSize) (segments : List LoadSegment) (fileOff span : UInt64) :
    Prop where
  correlated : ∃ s ∈ segments, Correlated page fileOff span s
  atStart : (∃ s ∈ segments, Correlated page fileOff span s ∧ s.pOffset = fileOff) →
    ∀ s ∈ segments, ∀ t ∈ segments, Correlated page fileOff span s →
      Correlated page fileOff span t →
      AtStart page fileOff s → AtStart page fileOff t → s.bias = t.bias
  everywhere : (¬∃ s ∈ segments, Correlated page fileOff span s ∧ s.pOffset = fileOff) →
    ∀ s ∈ segments, ∀ t ∈ segments, Correlated page fileOff span s →
      Correlated page fileOff span t →
      s.bias = t.bias

theorem isExact_iff :
    isExact ⟨fileOff, span⟩ segment = true ↔ segment.pOffset = fileOff := beq_iff_eq

theorem isStartCandidate_iff (h : Correlated page fileOff span segment) :
    isStartCandidate ⟨fileOff, span⟩ page segment = true ↔ AtStart page fileOff segment := by
  have hcontents := (Bool.and_eq_true_iff.mp h).1
  have hdivides : page.divides fileOff = true ↔ fileOff.toNat % page.value.toNat = 0 := by
    unfold PageSize.divides
    rw [beq_iff_eq, ← UInt64.toNat_inj, UInt64.toNat_mod]
    rfl
  unfold isStartCandidate AtStart
  rw [Bool.or_eq_true, Bool.and_eq_true, isExact_iff, hdivides,
    pageRoundedContainsValue_iff hcontents]

theorem mem_deciding :
    segment ∈ deciding ⟨fileOff, span⟩ page (segments.filter (isCorrelated ⟨fileOff, span⟩ page)) ↔
      segment ∈ segments ∧ Correlated page fileOff span segment ∧
        ((∃ s ∈ segments, Correlated page fileOff span s ∧ s.pOffset = fileOff) →
          AtStart page fileOff segment) := by
  have hany : (segments.filter (isCorrelated ⟨fileOff, span⟩ page)).any (isExact ⟨fileOff, span⟩) =
      true ↔ ∃ s ∈ segments, Correlated page fileOff span s ∧ s.pOffset = fileOff := by
    simp only [List.any_eq_true, List.mem_filter, isExact_iff, and_assoc]
    rfl
  unfold deciding
  by_cases hexact : ∃ s ∈ segments, Correlated page fileOff span s ∧ s.pOffset = fileOff
  · rw [if_pos (hany.mpr hexact), List.mem_filter, List.mem_filter, and_assoc]
    refine and_congr_right fun _ => and_congr_right fun hcorrelated => ?_
    rw [isStartCandidate_iff hcorrelated]
    exact ⟨fun h _ => h, fun h => h hexact⟩
  · rw [if_neg fun h => hexact (hany.mp h), List.mem_filter]
    exact and_congr_right fun _ => ⟨fun h => ⟨h, fun he => absurd he hexact⟩, And.left⟩

theorem find_spec (page : PageSize) (segments : List LoadSegment) (fileOff span : UInt64) :
    (∀ segment, findLoadContributionForFileRange page segments fileOff span = some segment →
      segment ∈ segments ∧ Correlated page fileOff span segment ∧
        ((∃ s ∈ segments, Correlated page fileOff span s ∧ s.pOffset = fileOff) →
          AtStart page fileOff segment)) ∧
    ((findLoadContributionForFileRange page segments fileOff span).isSome = true ↔
      Decided page segments fileOff span) := by
  have hsearched := searched_foldl segments [] _
    (searched_initial : Searched ⟨fileOff, span⟩ page [] _)
  rw [List.nil_append] at hsearched
  obtain ⟨hmem, hsome⟩ := result_of_searched hsearched
  refine ⟨fun segment hfound => mem_deciding.mp (hmem segment hfound), hsome.trans ?_⟩
  have hne : segments.filter (isCorrelated ⟨fileOff, span⟩ page) ≠ [] ↔
      ∃ s ∈ segments, Correlated page fileOff span s := by
    rw [ne_eq, List.filter_eq_nil_iff]
    simp only [not_forall, not_not, exists_prop]
    rfl
  rw [hne]
  unfold SameBias
  simp only [mem_deciding]
  constructor
  · rintro ⟨hcorrelated, hsame⟩
    refine ⟨hcorrelated, fun hexact s hs t ht hs' ht' hstart hstart' => ?_,
      fun hexact s hs t ht hs' ht' => ?_⟩
    · exact hsame s ⟨hs, hs', fun _ => hstart⟩ t ⟨ht, ht', fun _ => hstart'⟩
    · exact hsame s ⟨hs, hs', fun h => absurd h hexact⟩ t ⟨ht, ht', fun h => absurd h hexact⟩
  · rintro ⟨hcorrelated, hstart, hall⟩
    refine ⟨hcorrelated, ?_⟩
    rintro s ⟨hs, hs', hs''⟩ t ⟨ht, ht', ht''⟩
    by_cases hexact : ∃ s ∈ segments, Correlated page fileOff span s ∧ s.pOffset = fileOff
    · exact hstart hexact s hs t ht hs' ht' (hs'' hexact) (ht'' hexact)
    · exact hall hexact s hs t ht hs' ht'

theorem Decided.perm (hperm : segments.Perm segments') (h : Decided page segments fileOff span) :
    Decided page segments' fileOff span := by
  obtain ⟨hcorrelated, hstart, hall⟩ := h
  simp only [hperm.mem_iff] at hcorrelated hstart hall
  exact ⟨hcorrelated, hstart, hall⟩

/-- Two segments that may be returned have the same distance. -/
theorem Decided.bias_eq (h : Decided page segments fileOff span) {s t : LoadSegment}
    (hs : s ∈ segments ∧ Correlated page fileOff span s ∧
      ((∃ s ∈ segments, Correlated page fileOff span s ∧ s.pOffset = fileOff) →
        AtStart page fileOff s))
    (ht : t ∈ segments ∧ Correlated page fileOff span t ∧
      ((∃ s ∈ segments, Correlated page fileOff span s ∧ s.pOffset = fileOff) →
        AtStart page fileOff t)) : s.bias = t.bias := by
  by_cases hexact : ∃ s ∈ segments, Correlated page fileOff span s ∧ s.pOffset = fileOff
  · exact h.atStart hexact s hs.1 t ht.1 hs.2.1 ht.2.1 (hs.2.2 hexact) (ht.2.2 hexact)
  · exact h.everywhere hexact s hs.1 t ht.1 hs.2.1 ht.2.1

theorem find_perm (hperm : segments.Perm segments') :
    (findLoadContributionForFileRange page segments fileOff span).map LoadSegment.bias =
      (findLoadContributionForFileRange page segments' fileOff span).map LoadSegment.bias := by
  obtain ⟨hmem, hsome⟩ := find_spec page segments fileOff span
  obtain ⟨hmem', hsome'⟩ := find_spec page segments' fileOff span
  cases hfound : findLoadContributionForFileRange page segments fileOff span with
  | none =>
    cases hfound' : findLoadContributionForFileRange page segments' fileOff span with
    | none => rfl
    | some segment =>
      rw [hfound'] at hsome'
      have hdecided := (hsome'.mp rfl).perm hperm.symm
      rw [hfound] at hsome
      exact absurd (hsome.mpr hdecided) (by decide)
  | some segment =>
    rw [hfound] at hsome
    have hdecided := (hsome.mp rfl).perm hperm
    obtain ⟨segment', hfound'⟩ := Option.isSome_iff_exists.mp (hsome'.mpr hdecided)
    have hs := hmem segment hfound
    simp only [hperm.mem_iff] at hs
    rw [hfound', Option.map_some, Option.map_some,
      hdecided.bias_eq hs (hmem' segment' hfound')]

end

open scoped UInt64.CommRing in
/-- A translation is the address minus the distance of the image. -/
theorem svmaForAvma_eq {baseSvma bias avma svma : UInt64}
    (h : ModuleImageBase.svmaForAvma ⟨baseSvma + bias, baseSvma⟩ avma = some svma) :
    svma = avma - bias := by
  obtain ⟨relative, hrelative, hsvma⟩ := Option.bind_eq_some_iff.mp h
  have hrelative : relative = avma - (baseSvma + bias) := by
    unfold ModuleImageBase.relativeAddress checkedSub at hrelative
    split at hrelative
    · exact (Option.some.inj hrelative).symm
    · cases hrelative
  have hsvma : svma = baseSvma + relative := by
    unfold checkedAdd at hsvma
    split at hsvma
    · exact (Option.some.inj hsvma).symm
    · cases hsvma
  rw [hsvma, hrelative]
  ring

open scoped UInt64.CommRing in
theorem sub_computeVmaBias (fileOffset svma fileOff start i : UInt64) :
    start + i - computeVmaBias fileOffset svma fileOff start =
      svma + (fileOff + i - fileOffset) := by
  unfold computeVmaBias
  ring

open scoped UInt64.CommRing in
/-- Segments of one distance give the same static addresses. -/
theorem translation_eq {s t : LoadSegment} (h : s.bias = t.bias) (offset : UInt64) :
    s.pVaddr + (offset - s.pOffset) = t.pVaddr + (offset - t.pOffset) := by
  have hsum : s.pVaddr + t.pOffset = t.pVaddr + s.pOffset := by
    unfold LoadSegment.bias at h
    apply UInt64.toNat_inj.mp
    rw [UInt64.toNat_add, UInt64.toNat_add]
    congr 1
    omega
  have hleft : s.pVaddr + (offset - s.pOffset) =
      (s.pVaddr + t.pOffset) + (offset - s.pOffset - t.pOffset) := by ring
  rw [hleft, hsum]
  ring

theorem translation_modEq (s : LoadSegment) (offset : UInt64) :
    ((s.pVaddr + (offset - s.pOffset)).toNat : ℤ) ≡ offset.toNat + s.bias [ZMOD 2 ^ 64] := by
  unfold LoadSegment.bias Int.ModEq
  rw [UInt64.toNat_add, UInt64.toNat_sub]
  have hoffset := s.pOffset.toNat_lt
  omega

/-- The result is one of the segments; its distance, and whether there is one, do not depend on
their order; there is one exactly when the segments decide it; and translations by the resolved base
follow every segment of the distance. -/
theorem image_base_consistent (page : PageSize) (segments : List LoadSegment) (hne : segments ≠ [])
    (fileOff span : UInt64) :
    (∀ segment, findLoadContributionForFileRange page segments fileOff span = some segment →
      segment ∈ segments) ∧
    (∀ segments', segments.Perm segments' →
      (findLoadContributionForFileRange page segments fileOff span).map LoadSegment.bias =
        (findLoadContributionForFileRange page segments' fileOff span).map LoadSegment.bias) ∧
    ((findLoadContributionForFileRange page segments fileOff span).isSome = true ↔
      Decided page segments fileOff span) ∧
    ∀ (info : ElfSectionInfo) (start : UInt64) (base : ModuleImageBase),
      info.loadSegments = segments →
      resolveMappingImageBase page info fileOff start span = some base →
      ∃ segment, findLoadContributionForFileRange page segments fileOff span = some segment ∧
        ∀ i v, base.svmaForAvma (start + i) = some v →
          (v.toNat : ℤ) ≡ (fileOff + i).toNat + segment.bias [ZMOD 2 ^ 64] ∧
          ∀ s : LoadSegment, s.bias = segment.bias → v = s.pVaddr + (fileOff + i - s.pOffset) := by
  obtain ⟨hmem, hsome⟩ := find_spec page segments fileOff span
  refine ⟨fun segment hfound => (hmem segment hfound).1, fun segments' => find_perm, hsome, ?_⟩
  rintro info start base rfl hbase
  obtain ⟨reference, hreference, hbase⟩ := Option.bind_eq_some_iff.mp hbase
  have htext : textReference info ⟨fileOff, span⟩ = none := by
    unfold textReference
    rw [if_neg fun h => hne (List.isEmpty_iff.mp h)]
  rw [htext, Option.or_none] at hreference
  obtain ⟨segment, hfound, rfl⟩ := Option.map_eq_some_iff.mp hreference
  cases hbase
  refine ⟨segment, hfound, fun i v hv => ?_⟩
  have hv : v = segment.pVaddr + (fileOff + i - segment.pOffset) := by
    rw [svmaForAvma_eq hv, sub_computeVmaBias]
  refine ⟨?_, fun s hs => ?_⟩
  · rw [hv]
    exact translation_modEq segment (fileOff + i)
  · rw [hv]
    exact translation_eq hs.symm (fileOff + i)

def page4096 : PageSize := ⟨4096, by decide⟩

/-- Text and data of a small image that share the page at 4096 of the file. -/
def smallImage : ElfSectionInfo where
  baseSvma := 0
  textSvma := none
  textFileRange := none
  loadSegments := [⟨0, 4096, 4096, 0, 4⟩, ⟨4096, 4096, 4096, 4096, 5⟩]

theorem image_base_consistent_text : ∃ base segment,
    resolveMappingImageBase page4096 smallImage 4096 1052672 4096 = some base ∧
    findLoadContributionForFileRange page4096 smallImage.loadSegments 4096 4096 = some segment ∧
    ∀ i v, base.svmaForAvma (1052672 + i) = some v →
      ∀ s : LoadSegment, s.bias = segment.bias → v = s.pVaddr + (4096 + i - s.pOffset) := by
  have hbase : resolveMappingImageBase page4096 smallImage 4096 1052672 4096 =
      some ⟨1048576, 0⟩ := by
    decide +kernel
  obtain ⟨-, -, -, htranslated⟩ := image_base_consistent page4096 smallImage.loadSegments
    (by decide) 4096 4096
  obtain ⟨segment, hfound, hall⟩ := htranslated smallImage 1052672 _ rfl hbase
  exact ⟨_, segment, hbase, hfound, fun i v hv => (hall i v hv).2⟩

/-- The last but one page of the largest file, and a segment that covers it and ends in the last
page. -/
def lastPage : LoadSegment := ⟨18446744073709543424, 4096, 4096, 4096, 5⟩

def coveringSegment : LoadSegment := ⟨18446744073709539328, 8292, 8292, 65536, 5⟩

/-- Both segments describe the first page of the mapping, and they disagree; but rounding up the end
of the second one leaves the words, so that it is not asked. -/
theorem rounding_past_the_end :
    Correlated page4096 18446744073709543424 4096 lastPage ∧
    Correlated page4096 18446744073709543424 4096 coveringSegment ∧
    RoundedContains page4096 coveringSegment 18446744073709543424 ∧
    lastPage.bias ≠ coveringSegment.bias ∧
    findLoadContributionForFileRange page4096 [lastPage, coveringSegment]
      18446744073709543424 4096 =
      some lastPage := by
  refine ⟨by decide +kernel, by decide +kernel, ⟨by decide +kernel, by decide +kernel⟩,
    by decide +kernel, by decide +kernel⟩

end StackPulse.ImageBases
