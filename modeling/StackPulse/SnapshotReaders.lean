import StackPulse.SharedIsolation

/-!
Readers that push modules and frames, deactivate modules, and clone their
contexts for snapshots that outlive later changes. In every run each live handle
reads contexts that describe its own modules, and only events that go through it
change what it reads.
-/
namespace StackPulse.SnapshotReaders

open SharedCells Model FrameContexts SpoolFrameModuleContexts ContextFacts SharedContexts
  SharedIsolation

/-- One live value of the contexts with the modules and frames its owner has recorded. -/
structure Reader where
  handle : Handle
  modules : List ModuleRecord
  frames : ℕ

/-- Readers by number; a dropped one leaves its number unused. -/
structure State where
  cells : ContextCells
  readers : List (Option Reader)

inductive Event
  | pushModule (n : ℕ) (module : ModuleRecord)
  | pushFrame (n : ℕ)
  | deactivateModule (n moduleId : ℕ)
  | deactivateOwner (n : ℕ) (owner : ModuleOwner)
  | clone (n : ℕ)
  | drop (n : ℕ)

namespace State

def reader (s : State) (n : ℕ) : Option Reader := (s.readers[n]?).join

/-- The handles that are live beside reader `n`. -/
def others (s : State) (n : ℕ) : List Handle :=
  (s.readers.eraseIdx n).filterMap fun r => r.map (·.handle)

def live (s : State) : List Handle := s.readers.filterMap fun r => r.map (·.handle)

def put (s : State) (n : ℕ) (result : ContextCells × Handle) (modules : List ModuleRecord)
    (frames : ℕ) : State where
  cells := result.1
  readers := s.readers.set n (some ⟨result.2, modules, frames⟩)

end State

def start : State :=
  let (cells, handle) := ContextCells.default
  { cells := cells, readers := [some ⟨handle, [], 0⟩] }

/-- A module record carries the number of modules before it as its id, and a deactivation
names a recorded module; records that do not are refused before the contexts change. -/
def stepReader (s : State) (r : Reader) : Event → State
  | .pushModule n module =>
      if module.id.toNat = r.modules.length then
        s.put n (s.cells.pushModule (s.others n) r.handle r.modules.length module.owner)
          (r.modules ++ [module]) r.frames
      else s
  | .pushFrame n =>
      s.put n (s.cells.pushFrame (s.others n) r.handle r.modules.length) r.modules (r.frames + 1)
  | .deactivateModule n moduleId =>
      if moduleId < r.modules.length then
        s.put n (s.cells.deactivateModule (s.others n) r.handle moduleId r.frames) r.modules
          r.frames
      else s
  | .deactivateOwner n owner =>
      s.put n (s.cells.deactivateOwner (s.others n) r.handle owner r.frames) r.modules r.frames
  | .clone _ => { s with readers := s.readers ++ [some r] }
  | .drop n => { s with readers := s.readers.set n none }

namespace Event

/-- The reader an event goes through. -/
def target : Event → ℕ
  | pushModule n _ | pushFrame n | deactivateModule n _ | deactivateOwner n _ | clone n
  | drop n => n

/-- Whether an event changes or drops reader `n`. -/
def writes (n : ℕ) : Event → Bool
  | clone _ => false
  | event => event.target == n

end Event

def step (s : State) (event : Event) : State :=
  match s.reader event.target with
  | none => s
  | some r => stepReader s r event

def run (s : State) (events : List Event) : State := events.foldl step s

/-- Every module carries its position as its id. -/
def Numbered (modules : List ModuleRecord) : Prop :=
  ∀ (i : ℕ) (m : ModuleRecord), modules[i]? = some m → m.id.toNat = i

structure Describes (s : State) (r : Reader) : Prop where
  coherent : Coherent (s.cells.contexts r.handle) r.modules r.frames
  numbered : Numbered r.modules

structure Sound (s : State) : Prop where
  valid : Valid s.cells s.live
  describes : ∀ n r, s.reader n = some r → Describes s r

section

variable {s : State} {n frames : ℕ} {r : Reader} {modules : List ModuleRecord}
  {result : ContextCells × Handle} {ctx : SpoolFrameModuleContexts}

theorem readers_of_reader (h : s.reader n = some r) : s.readers[n]? = some (some r) := by
  unfold State.reader at h
  exact Option.join_eq_some_iff.mp h

theorem mem_live (h : s.reader n = some r) : r.handle ∈ s.live :=
  List.mem_filterMap.mpr ⟨some r, List.mem_of_getElem? (readers_of_reader h), rfl⟩

theorem mem_others {k : ℕ} {o : Reader} (h : s.reader k = some o) (hne : k ≠ n) :
    o.handle ∈ s.others n :=
  List.mem_filterMap.mpr
    ⟨some o, List.mem_eraseIdx_iff_getElem?.mpr ⟨k, hne, readers_of_reader h⟩, rfl⟩

theorem mem_live_of_others {o : Handle} (h : o ∈ s.others n) : o ∈ s.live := by
  obtain ⟨r, hr, ho⟩ := List.mem_filterMap.mp h
  exact List.mem_filterMap.mpr ⟨r, List.mem_of_mem_eraseIdx hr, ho⟩

/-- The handles as an operation through reader `n` sees them. -/
theorem Sound.validAt (h : Sound s) (hr : s.reader n = some r) :
    Valid s.cells (r.handle :: s.others n) :=
  h.valid.mono (List.forall_mem_cons.mpr ⟨mem_live hr, fun _ ho => mem_live_of_others ho⟩)

theorem reader_put (hr : s.reader n = some r) (result : ContextCells × Handle)
    (modules : List ModuleRecord) (frames k : ℕ) :
    (s.put n result modules frames).reader k =
      if k = n then some ⟨result.2, modules, frames⟩ else s.reader k := by
  have hlt : n < s.readers.length := (List.getElem?_eq_some_iff.mp (readers_of_reader hr)).1
  unfold State.reader State.put
  rw [List.getElem?_set]
  by_cases hk : n = k
  · subst hk
    simp [hlt]
  · rw [if_neg hk, if_neg (Ne.symm hk)]

theorem mem_live_put {o : Handle} (h : o ∈ (s.put n result modules frames).live) :
    o ∈ result.2 :: s.others n := by
  obtain ⟨reader, hreader, ho⟩ := List.mem_filterMap.mp h
  obtain ⟨i, hi⟩ := List.mem_iff_getElem?.mp hreader
  unfold State.put at hi
  simp only at hi
  rw [List.getElem?_set] at hi
  by_cases hn : n = i
  · rw [if_pos hn] at hi
    split at hi
    · cases hi
      cases ho
      exact .head _
    · cases hi
  · rw [if_neg hn] at hi
    refine List.mem_cons_of_mem _ (List.mem_filterMap.mpr ⟨reader, ?_, ho⟩)
    exact List.mem_eraseIdx_iff_getElem?.mpr ⟨i, Ne.symm hn, hi⟩

/-- An operation through reader `n` whose result describes the reader's new records. -/
theorem Sound.put (h : Sound s) (hr : s.reader n = some r)
    (hyields : Yields s.cells result.1 (s.others n) result.2 ctx)
    (hctx : Coherent ctx modules frames) (hnumbered : Numbered modules) :
    Sound (s.put n result modules frames) := by
  refine ⟨hyields.valid.mono fun o ho => mem_live_put ho, ?_⟩
  intro k o hk
  rw [reader_put hr] at hk
  split at hk
  · cases hk
    refine ⟨?_, hnumbered⟩
    change Coherent (result.1.contexts result.2) modules frames
    rw [hyields.written]
    exact hctx
  · next hne =>
    refine ⟨?_, (h.describes k o hk).numbered⟩
    change Coherent (result.1.contexts o.handle) o.modules o.frames
    rw [hyields.kept _ (mem_others hk hne)]
    exact (h.describes k o hk).coherent

/-- What an operation through reader `n` leaves of another reader. -/
theorem put_kept (hr : s.reader n = some r) {k : ℕ} {o : Reader}
    (hyields : Yields s.cells result.1 (s.others n) result.2 ctx) (hk : s.reader k = some o)
    (hne : k ≠ n) : (s.put n result modules frames).reader k = some o ∧
      (s.put n result modules frames).cells.contexts o.handle = s.cells.contexts o.handle := by
  rw [reader_put hr, if_neg hne]
  exact ⟨hk, hyields.kept _ (mem_others hk hne)⟩

theorem numbered_append {module : ModuleRecord} (h : Numbered modules)
    (hid : module.id.toNat = modules.length) : Numbered (modules ++ [module]) := by
  intro i m hm
  by_cases hi : i < modules.length
  · rw [List.getElem?_append_left hi] at hm
    exact h i m hm
  · rw [List.getElem?_append_right (by omega)] at hm
    obtain ⟨hlt, rfl⟩ := List.getElem?_eq_some_iff.mp hm
    simp only [List.length_singleton] at hlt
    simp only [List.getElem_singleton]
    omega

theorem numbered_nil : Numbered [] := fun _ _ hm => by simp at hm

/-- An event keeps every reader sound and leaves alone the readers it does not write. -/
structure Steps (s s' : State) (event : Event) : Prop where
  sound : Sound s'
  kept : ∀ k o, s.reader k = some o → event.writes k = false →
    s'.reader k = some o ∧ s'.cells.contexts o.handle = s.cells.contexts o.handle

theorem Steps.refl (h : Sound s) (event : Event) : Steps s s event := ⟨h, fun _ _ ho _ => ⟨ho, rfl⟩⟩

theorem Steps.put (event : Event) (h : Sound s) (hr : s.reader n = some r)
    (hwrites : event.writes n = true) (hyields : Yields s.cells result.1 (s.others n) result.2 ctx)
    (hctx : Coherent ctx modules frames) (hnumbered : Numbered modules) :
    Steps s (s.put n result modules frames) event := by
  refine ⟨h.put hr hyields hctx hnumbered, ?_⟩
  intro k o ho hk
  apply put_kept hr hyields ho
  rintro rfl
  rw [hwrites] at hk
  cases hk

theorem stepReader_steps (h : Sound s) (event : Event) (hr : s.reader event.target = some r) :
    Steps s (stepReader s r event) event := by
  have hvalid := h.validAt hr
  obtain ⟨hcoherent, hnumbered⟩ := h.describes _ r hr
  cases event with
  | pushModule n module =>
    rw [stepReader]
    by_cases hid : module.id.toNat = r.modules.length
    · rw [if_pos hid]
      exact Steps.put (.pushModule n module) h hr (beq_self_eq_true n)
        (pushModule_yields hvalid _ _)
        (hcoherent.pushModule module) (numbered_append hnumbered hid)
    · rw [if_neg hid]
      exact Steps.refl h _
  | pushFrame n =>
    exact Steps.put (.pushFrame n) h hr (beq_self_eq_true n) (pushFrame_yields hvalid _)
      hcoherent.pushFrame
      hnumbered
  | deactivateModule n moduleId =>
    rw [stepReader]
    by_cases hlt : moduleId < r.modules.length
    · rw [if_pos hlt]
      have hlt' : moduleId < (s.cells.contexts r.handle).moduleDeactivatedAt.toList.length := by
        rw [hcoherent.deactivated_length]
        exact hlt
      obtain ⟨wasActive, ctx, hdeactivate, hyields⟩ := deactivateModule_yields hvalid r.frames hlt'
      obtain ⟨_, _, hdeactivate', hretires⟩ := hcoherent.deactivateModule r.frames hlt
      rw [hdeactivate] at hdeactivate'
      cases hdeactivate'
      exact Steps.put (.deactivateModule n moduleId) h hr (beq_self_eq_true n) hyields
        (hretires.coherent hcoherent) hnumbered
    · rw [if_neg hlt]
      exact Steps.refl h _
  | deactivateOwner n owner =>
    obtain ⟨deactivated, ctx, hdeactivate, hyields⟩ :=
      deactivateOwner_yields hvalid hcoherent owner r.frames
    obtain ⟨_, _, hdeactivate', hretires⟩ := hcoherent.deactivateOwner owner r.frames
    rw [hdeactivate] at hdeactivate'
    cases hdeactivate'
    exact Steps.put (.deactivateOwner n owner) h hr (beq_self_eq_true n) hyields
      (hretires.coherent hcoherent) hnumbered
  | clone n =>
    have hreader : ∀ k o, (stepReader s r (.clone n)).reader k = some o →
        s.reader k = some o ∨ o = r := by
      intro k o ho
      have hget := readers_of_reader ho
      change (s.readers ++ [some r])[k]? = _ at hget
      by_cases hk : k < s.readers.length
      · rw [List.getElem?_append_left hk] at hget
        left
        unfold State.reader
        rw [hget]
        rfl
      · rw [List.getElem?_append_right (by omega)] at hget
        right
        have hmem := List.mem_of_getElem? hget
        simpa using hmem
    refine ⟨⟨?_, ?_⟩, ?_⟩
    · apply h.valid.mono
      intro o ho
      change o ∈ (s.readers ++ [some r]).filterMap _ at ho
      rw [List.filterMap_append] at ho
      rcases List.mem_append.mp ho with hold | hnew
      · exact hold
      · have hsame : o = r.handle := by simpa using hnew
        rw [hsame]
        exact mem_live hr
    · intro k o ho
      rcases hreader k o ho with hold | rfl
      · exact ⟨(h.describes k o hold).coherent, (h.describes k o hold).numbered⟩
      · exact ⟨hcoherent, hnumbered⟩
    · intro k o ho _
      refine ⟨?_, rfl⟩
      have hget := readers_of_reader ho
      unfold State.reader
      change ((s.readers ++ [some r])[k]?).join = _
      rw [List.getElem?_append_left (List.getElem?_eq_some_iff.mp hget).1, hget]
      rfl
  | drop n =>
    have hreader : ∀ k, (stepReader s r (.drop n)).reader k =
        if k = n then none else s.reader k := by
      intro k
      unfold State.reader
      change ((s.readers.set n none)[k]?).join = _
      rw [List.getElem?_set]
      by_cases hk : n = k
      · subst hk
        rw [if_pos rfl, if_pos rfl]
        split <;> rfl
      · rw [if_neg hk, if_neg (Ne.symm hk)]
    refine ⟨⟨?_, ?_⟩, ?_⟩
    · apply h.valid.mono
      intro o ho
      obtain ⟨reader, hmem, hhandle⟩ := List.mem_filterMap.mp ho
      rcases List.mem_or_eq_of_mem_set hmem with hold | rfl
      · exact List.mem_filterMap.mpr ⟨reader, hold, hhandle⟩
      · cases hhandle
    · intro k o ho
      rw [hreader] at ho
      split at ho
      · cases ho
      · exact ⟨(h.describes k o ho).coherent, (h.describes k o ho).numbered⟩
    · intro k o ho hk
      have hne : k ≠ n := by
        rintro rfl
        simp [Event.writes, Event.target] at hk
      rw [hreader, if_neg hne]
      exact ⟨ho, rfl⟩

theorem step_steps (h : Sound s) (event : Event) : Steps s (step s event) event := by
  unfold step
  rcases hr : s.reader event.target with _ | r
  · exact Steps.refl h event
  · exact stepReader_steps h event hr

theorem sound_start : Sound start := by
  have hempty : ∀ {α : Type}, (ChunkCells.alloc (ChunkCells.empty : ChunkCells α)).1.Valid [0] := by
    intro α root hroot
    rw [List.mem_singleton.mp hroot]
    exact ⟨Nat.one_pos, fun c hc => absurd hc List.not_mem_nil⟩
  have hlive : start.live = [⟨0, 0, 0⟩] := rfl
  refine ⟨?_, ?_⟩
  · rw [hlive]
    refine ⟨hempty, hempty, ?_, ?_, ?_, ?_, ?_⟩
    · exact List.forall_mem_singleton.mpr Nat.one_pos
    · intro root hroot
      exact absurd hroot List.not_mem_nil
    · exact List.forall_mem_singleton.mpr trivial
    · exact List.forall_mem_singleton.mpr trivial
    · intro root hroot
      exact absurd hroot List.not_mem_nil
  · intro n r hr
    have hget := readers_of_reader hr
    change [some (⟨⟨0, 0, 0⟩, [], 0⟩ : Reader)][n]? = _ at hget
    have hmem := List.mem_of_getElem? hget
    simp only [List.mem_singleton, Option.some.injEq] at hmem
    subst hmem
    exact ⟨coherent_empty, numbered_nil⟩

theorem run_sound (h : Sound s) (events : List Event) : Sound (run s events) := by
  induction events generalizing s with
  | nil => exact h
  | cons event events ih => exact ih (step_steps h event).sound

/-- Events that do not write a reader leave it and what it reads. -/
theorem run_kept (h : Sound s) {events : List Event} (hr : s.reader n = some r)
    (hquiet : ∀ event ∈ events, event.writes n = false) :
    (run s events).reader n = some r ∧
      (run s events).cells.contexts r.handle = s.cells.contexts r.handle := by
  induction events generalizing s with
  | nil => exact ⟨hr, rfl⟩
  | cons event events ih =>
    obtain ⟨hstays, hreads⟩ := (step_steps h event).kept n r hr (hquiet event (.head _))
    obtain ⟨hstays', hreads'⟩ := ih (step_steps h event).sound hstays fun e he =>
      hquiet e (.tail _ he)
    exact ⟨hstays', hreads'.trans hreads⟩

end

end StackPulse.SnapshotReaders
