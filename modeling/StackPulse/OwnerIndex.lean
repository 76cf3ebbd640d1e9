import Mathlib.Data.List.Find
import StackPulse.SnapshotReaders

/-!
The search of the modules of one owner. Through every live handle of every run it
finds what a scan of all modules from the end finds, and a snapshot finds the
same after any later change to the reader it was cloned from.
-/
namespace StackPulse.OwnerIndex

open Model FrameContexts ContextFacts SnapshotReaders

variable {ctx : SpoolFrameModuleContexts} {modules : List ModuleRecord} {frames : ℕ}

/-- The newest recorded module of an owner around an address, found in the owner's index. -/
def searchOwned (ctx : SpoolFrameModuleContexts) (modules : List ModuleRecord)
    (context : FrameLookupContext) (owner : ModuleOwner) (address : UInt64) : Option ℕ :=
  (ctx.ownedModulesBefore owner (min context.moduleLimit modules.length)).find? fun i =>
    ctx.moduleActive i context && modules[i]?.any fun m =>
      decide (m.start ≤ address) && decide (address < m.stop)

/-- The same module found by a scan of all modules before the limit, newest first. -/
def scanModules (ctx : SpoolFrameModuleContexts) (modules : List ModuleRecord)
    (context : FrameLookupContext) (owner : ModuleOwner) (address : UInt64) : Option ℕ :=
  (List.range (min context.moduleLimit modules.length)).reverse.find? fun i =>
    ctx.moduleActive i context && modules[i]?.any fun m =>
      decide (m.owner = owner) && (decide (m.start ≤ address) && decide (address < m.stop))

theorem filter_range_lt (n k : ℕ) : (List.range n).filter (· < k) = List.range (min k n) := by
  induction n with
  | zero => simp
  | succ n ih =>
    rw [List.range_succ, List.filter_append, ih]
    by_cases hn : n < k
    · have hmin : min k n = n := by omega
      have hmin' : min k (n + 1) = n + 1 := by omega
      rw [hmin, hmin', List.range_succ, List.filter_singleton]
      simp [hn]
    · have hmin : min k n = k := by omega
      have hmin' : min k (n + 1) = k := by omega
      rw [hmin, hmin', List.filter_singleton]
      simp [hn]

theorem searchOwned_eq (h : Coherent ctx modules frames) (context : FrameLookupContext)
    (owner : ModuleOwner) (address : UInt64) :
    searchOwned ctx modules context owner address =
      scanModules ctx modules context owner address := by
  have hsorted : (ownedIndices ctx owner).Pairwise (· < ·) := by
    rw [h.owned]
    exact pairwise_ownedBy modules owner
  have hrange : (ownedBy modules owner).filter (· < min context.moduleLimit modules.length) =
      (List.range (min context.moduleLimit modules.length)).filter fun i =>
        modules[i]?.any fun m => decide (m.owner = owner) := by
    unfold ownedBy
    have hmin : min (min context.moduleLimit modules.length) modules.length =
        min context.moduleLimit modules.length := by
      omega
    rw [List.filter_comm, filter_range_lt, hmin]
  unfold searchOwned scanModules
  rw [ownedModulesBefore_eq ctx owner _ hsorted, h.owned, hrange, ← List.filter_reverse,
    List.find?_filter]
  congr 1
  funext i
  rcases modules[i]? with _ | m
  · simp
  · simp only [Option.any_some]
    by_cases howner : m.owner = owner <;> simp [howner]

/-- Modules recorded after a frame do not change how the frame resolves. -/
theorem findUnpinnedFrameModule_append (h : Coherent ctx modules frames) (more : List ModuleRecord)
    (frameId : UInt32) (processId : Int32) (frame : FrameRecord) :
    findUnpinnedFrameModule (modules ++ more) ctx frameId processId frame =
      findUnpinnedFrameModule modules ctx frameId processId frame := by
  unfold findUnpinnedFrameModule
  rcases hcontext : ctx.forFrameId frameId with _ | context
  · rfl
  · have hlimit := h.moduleLimit_le hcontext
    rcases frameOwner processId frame.mode with _ | owner
    · rfl
    · have hlen : min context.moduleLimit (modules ++ more).length =
          min context.moduleLimit modules.length := by
        rw [List.length_append]
        omega
      change Option.bind (List.findSome? _ (ctx.ownedModulesBefore owner _)) _ =
        Option.bind (List.findSome? _ (ctx.ownedModulesBefore owner _)) _
      rw [hlen]
      congr 2
      funext index
      by_cases hactive : ctx.moduleActive index context = true
      · rw [if_pos hactive, if_pos hactive, List.getElem?_append_left]
        have hlt := lt_of_moduleActive hactive
        omega
      · rw [if_neg hactive, if_neg hactive]

/-- A search by position from the end is a search of the reversed list. -/
theorem find?_range_reverse {α : Type} {l : List α} {p : ℕ → Bool} {q : α → Bool}
    (hsame : ∀ i a, l[i]? = some a → p i = q a) :
    ((List.range l.length).reverse.find? p).bind (fun i => l[i]?) = l.reverse.find? q := by
  have hl : (List.range l.length).filterMap (l[·]?) = l := by
    clear hsame
    induction l with
    | nil => rfl
    | cons a l ih => simp [List.range_succ_eq_map, List.filterMap_map, ih]
  rw [← congrArg List.reverse hl, ← List.filterMap_reverse, List.find?_filterMap]
  congr 1
  apply List.find?_congr
  intro i hi
  have hlt : i < l.length := by simpa using hi
  rw [List.getElem?_eq_getElem hlt]
  exact hsame i _ (List.getElem?_eq_getElem hlt)

/-- Positions past the end of a list are skipped. -/
theorem find?_range_beyond {p : ℕ → Bool} {k n : ℕ} (hkn : k ≤ n)
    (hbeyond : ∀ i, k ≤ i → p i = false) :
    (List.range n).reverse.find? p = (List.range k).reverse.find? p := by
  induction n, hkn using Nat.le_induction with
  | base => rfl
  | succ n hkn ih =>
    rw [List.range_succ, List.reverse_append, List.reverse_singleton, List.singleton_append,
      List.find?_cons, hbeyond n hkn, ih]

/-- A frame without a module resolves as a scan of the modules known to it resolves it. -/
theorem findUnpinnedFrameModule_eq_unbounded (h : Coherent ctx modules frames)
    (hnumbered : Numbered modules) {frameId : UInt32} {context : FrameLookupContext}
    (hcontext : ctx.forFrameId frameId = some context) (processId : Int32) {frame : FrameRecord}
    (hunpinned : frame.moduleId = none) (hmode : frame.mode ≠ .truncatedStackMarker) :
    findUnpinnedFrameModule modules ctx frameId processId frame =
      moduleForFrameUnbounded (modules.take context.moduleLimit) processId frame fun m =>
        ctx.moduleActive m.id.toNat context := by
  have hlimit := h.moduleLimit_le hcontext
  have hlen : (modules.take context.moduleLimit).length = context.moduleLimit := by
    rw [List.length_take]
    omega
  have hbeyond : ∀ i, context.moduleLimit ≤ i →
      candidate modules ctx context processId frame i = false := by
    intro i hi
    rw [Bool.eq_false_iff]
    intro hcand
    unfold candidate at hcand
    rw [Bool.and_eq_true] at hcand
    have hlt := lt_of_moduleActive hcand.1
    omega
  have hscan := find?_range_reverse (l := modules.take context.moduleLimit)
    (p := candidate modules ctx context processId frame)
    (q := fun m => ctx.moduleActive m.id.toNat context && moduleOwnsFrame m processId frame)
    (by
      intro i m hm
      have hi : i < context.moduleLimit := by
        rw [← hlen]
        exact (List.getElem?_eq_some_iff.mp hm).1
      have hget : modules[i]? = some m := by
        rw [← List.getElem?_take_of_lt hi]
        exact hm
      unfold candidate
      rw [hget, hnumbered i m hget]
      rfl)
  rw [hlen] at hscan
  unfold moduleForFrameUnbounded
  rw [findUnpinnedFrameModule_eq h hcontext, if_neg hmode, hunpinned,
    find?_range_beyond hlimit hbeyond]
  simp only
  rw [← hscan, Option.bind_assoc]
  rcases hfind : (List.range context.moduleLimit).reverse.find?
    (candidate modules ctx context processId frame) with _ | i
  · rfl
  · have hi : i < context.moduleLimit := by
      simpa using List.mem_of_find?_eq_some hfind
    simp [List.getElem?_take_of_lt hi]

/-- In every run, the search of an owner's index through any live handle finds the module
that a scan of all modules before the limit finds. A frame without a module resolves as such
a scan of the modules recorded before it, whatever is recorded later. A handle that later
events do not write reads the same contexts after them. -/
theorem owner_search_eq_scan (events later : List Event) (n : ℕ) (r : Reader)
    (hr : (run start events).reader n = some r) :
    (∀ context owner address,
      searchOwned ((run start events).cells.contexts r.handle) r.modules context owner address =
        scanModules ((run start events).cells.contexts r.handle) r.modules context owner
          address) ∧
    (∀ more frameId processId frame, frame.moduleId = none →
      moduleForFrameWithContext (r.modules ++ more)
          ((run start events).cells.contexts r.handle) frameId processId frame =
        (((run start events).cells.contexts r.handle).forFrameId frameId).bind fun context =>
          moduleForFrameUnbounded (r.modules.take context.moduleLimit) processId frame fun m =>
            ((run start events).cells.contexts r.handle).moduleActive m.id.toNat context) ∧
    ((∀ event ∈ later, event.writes n = false) →
      (run start (events ++ later)).reader n = some r ∧
        (run start (events ++ later)).cells.contexts r.handle =
          (run start events).cells.contexts r.handle) := by
  have hsound := run_sound sound_start events
  obtain ⟨hcoherent, hnumbered⟩ := hsound.describes n r hr
  refine ⟨fun context owner address => searchOwned_eq hcoherent context owner address, ?_, ?_⟩
  · intro more frameId processId frame hunpinned
    unfold moduleForFrameWithContext
    by_cases hmode : frame.mode = .truncatedStackMarker
    · rw [if_pos hmode]
      rcases ((run start events).cells.contexts r.handle).forFrameId frameId with _ | context
      · rfl
      · exact (if_pos hmode).symm
    · rw [if_neg hmode, hunpinned]
      simp only
      rw [findUnpinnedFrameModule_append hcoherent]
      rcases hcontext : ((run start events).cells.contexts r.handle).forFrameId frameId with
        _ | context
      · unfold findUnpinnedFrameModule
        rw [hcontext]
        rfl
      · exact findUnpinnedFrameModule_eq_unbounded hcoherent hnumbered hcontext processId
          hunpinned hmode
  · intro hquiet
    have happend : run start (events ++ later) = run (run start events) later :=
      List.foldl_append
    rw [happend]
    exact run_kept hsound hr hquiet

def bareModule (id : UInt32) (owner : ModuleOwner) (start stop : UInt64) : ModuleRecord where
  id := id
  owner := owner
  start := start
  stop := stop
  fileOffset := 0
  inode := 0
  deviceMajor := 0
  deviceMinor := 0
  inodeGeneration := 0
  path := ⟨[]⟩
  jitSymbols := none

/-- A snapshot of two kernel modules, one inside the other, and a process module at the same
addresses, before the original deactivates those of the kernel. -/
theorem owner_search_eq_scan_snapshot :
    let process := ModuleOwner.process ⟨7, by decide⟩
    let events := [.pushModule 0 (bareModule 0 .kernel 16 64),
      .pushModule 0 (bareModule 1 process 16 64), .pushModule 0 (bareModule 2 .kernel 32 48),
      .pushFrame 0, .clone 0]
    let later := [.deactivateOwner 0 .kernel, .pushFrame 0]
    ∃ r, (run start events).reader 1 = some r ∧
      (run start (events ++ later)).reader 1 = some r ∧
      [(ModuleOwner.kernel, 40), (.kernel, 20), (process, 40), (process, 64)].map (fun q =>
        searchOwned ((run start (events ++ later)).cells.contexts r.handle) r.modules ⟨3, 3⟩
          q.1 q.2) = [some 2, some 0, some 1, none] ∧
      scanModules ((run start (events ++ later)).cells.contexts r.handle) r.modules ⟨3, 3⟩
        .kernel 40 = some 2 := by
  intro process events later
  refine ⟨_, rfl, ?_⟩
  obtain ⟨hsearch, -, hlater⟩ := owner_search_eq_scan events later 1 _ rfl
  obtain ⟨hreader, hcontexts⟩ := hlater (by decide)
  refine ⟨hreader, ?_⟩
  rw [hcontexts]
  simp only [hsearch]
  constructor <;> decide +kernel

end StackPulse.OwnerIndex
