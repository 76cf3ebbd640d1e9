import StackPulse.JitObjects

/-!
What a reading of the memory of a process is made of: the reads between its start and its
end and nothing else. Its failures are those that are reported, and its results are
known. Reading registrations is such a reading.
-/
namespace StackPulse.JitReads

open OrderedMap Attempts JitProtocol JitObjects

/-- The failures that the source knows. -/
def Reported (fault : Fault) : Prop := fault ≠ .underflow

theorem jitError_reported (operation detail : String) : Reported (jitError operation detail) :=
  fun h => nomatch h

/-- The same world with another memory. -/
def withMemory (world : World) (memory : Memory) : World := { world with toMemory := memory }

/-- The memories cannot be told apart by the reads from `start` on and before `stop`. -/
def Agree (memory memory' : Memory) (start stop : ℕ) : Prop :=
  ∀ time, start ≤ time → time < stop → memory'.read time = memory.read time

/-- A computation that is made of the reads between its start and its end. -/
structure Timely {α : Type} (m : World → Access α) : Prop where
  le : ∀ world time, time ≤ (m world time).2
  within : ∀ world memory time, Agree world.toMemory memory time (m world time).2 →
    m (withMemory world memory) time = m world time

/-- A reading, with what is known of its results. -/
structure Reads {α : Type} (m : World → Access α) (Q : α → Prop) : Prop extends Timely m where
  ensures : ∀ world, Ensures Reported (m world) Q

/-- The end of a reading. -/
def Ends {α : Type} (Q : α → Prop) : Except Fault α → Prop
  | .ok a => Q a
  | .error e => Reported e

namespace Reads

variable {α β : Type} {m m' : World → Access α} {Q R : α → Prop} {P : β → Prop}

/-- A computation without reads. -/
theorem unread (hle : ∀ world time, time ≤ (m world time).2)
    (hsame : ∀ world memory, m (withMemory world memory) = m world)
    (h : ∀ world, Ensures Reported (m world) Q) : Reads m Q :=
  ⟨⟨hle, fun world memory time _ => by rw [hsame]⟩, h⟩

theorem value {a : World → α} (hsame : ∀ world memory, a (withMemory world memory) = a world)
    (h : ∀ world, Q (a world)) : Reads (fun world => (pure (a world) : Access α)) Q :=
  unread (fun _ _ => le_rfl) (fun world memory => by rw [hsame]) fun world => .pure (h world)

theorem pure {a : α} (h : Q a) : Reads (fun _ => (pure a : Access α)) Q :=
  value (fun _ _ => rfl) fun _ => h

theorem throw {fault : Fault} (h : Reported fault) : Reads (fun _ => (throw fault : Access α)) Q :=
  unread (fun _ _ => le_rfl) (fun _ _ => rfl) fun _ => .throw h

theorem lift {result : World → Except Fault α}
    (hsame : ∀ world memory, result (withMemory world memory) = result world)
    (hok : ∀ world a, result world = .ok a → Q a)
    (herror : ∀ world, FailsWith Reported (result world)) :
    Reads (fun world => (ExceptT.mk (Pure.pure (result world)) : Access α)) Q := by
  refine unread (fun _ _ => le_rfl) (fun world memory => by rw [hsame]) fun world time => ?_
  cases hresult : result world with
  | ok a => exact hok world a hresult
  | error fault => exact herror world fault hresult

theorem ends (h : Reads m Q) (world : World) (time : ℕ) : Ends Q (m world time).1 := by
  rcases hread : m world time with ⟨e | a, time'⟩
  · exact (h.ensures world).error hread
  · exact (h.ensures world).ok hread

theorem mono (h : Reads m Q) (hQ : ∀ a, Q a → R a) : Reads m R :=
  ⟨h.toTimely, fun world => (h.ensures world).mono hQ⟩

/-- What follows a computation, for its result or its fault. -/
theorem step {k : Except Fault α → World → Access β} (hm : Reads m Q)
    (hk : ∀ r, Ends Q r → Reads (k r) P) :
    Reads (fun world time => k (m world time).1 world (m world time).2) P where
  le world time := (hm.le world time).trans ((hk _ (hm.ends world time)).le world _)
  within world memory time hagree := by
    have hnext := hk _ (hm.ends world time)
    have hsame := hm.within world memory time fun t h1 h2 =>
      hagree t h1 (h2.trans_le (hnext.le world _))
    rw [hsame]
    exact hnext.within world memory _ fun t h1 h2 => hagree t ((hm.le world time).trans h1) h2
  ensures world time := (hk _ (hm.ends world time)).ensures world _

theorem handle {f : α → World → Access β} {g : Fault → World → Access β} (hm : Reads m Q)
    (hf : ∀ a, Q a → Reads (f a) P) (hg : ∀ e, Reported e → Reads (g e) P) :
    Reads (fun world => handle (m world) (fun a => f a world) fun e => g e world) P := by
  refine cast (congrArg (Reads · P) ?_) (hm.step (k := fun r => r.rec g f) fun r hr => ?_)
  · funext world time
    rcases hread : m world time with ⟨e | a, time'⟩
    · rw [handle_of_error hread]
    · rw [handle_of_ok hread]
  · cases r with
    | error e => exact hg e hr
    | ok a => exact hf a hr

theorem bind {f : α → World → Access β} (hm : Reads m Q) (hf : ∀ a, Q a → Reads (f a) P) :
    Reads (fun world => m world >>= fun a => f a world) P := by
  refine cast (congrArg (Reads · P) ?_) (hm.handle hf fun _ he => throw he)
  funext world time
  rcases hread : m world time with ⟨e | a, time'⟩
  · rw [handle_of_error hread, bind_of_error hread]
    rfl
  · rw [handle_of_ok hread, bind_of_ok hread]

theorem ite {c : Prop} [Decidable c] (hm : c → Reads m Q) (hm' : ¬ c → Reads m' Q) :
    Reads (fun world => if c then m world else m' world) Q := by
  by_cases h : c
  · simp only [if_pos h]
    exact hm h
  · simp only [if_neg h]
    exact hm' h

/-- A choice that does not look at the memory. -/
theorem choose {c : World → Prop} [∀ world, Decidable (c world)]
    (hc : ∀ world memory, c (withMemory world memory) ↔ c world) (hm : Reads m Q)
    (hm' : Reads m' Q) : Reads (fun world => if c world then m world else m' world) Q := by
  have hcases : ∀ world, (c world → Reads m Q) ∧ (¬ c world → Reads m' Q) := fun _ =>
    ⟨fun _ => hm, fun _ => hm'⟩
  have hsame := fun world memory => propext (hc world memory)
  refine ⟨⟨fun world => (ite (hcases world).1 (hcases world).2).le world,
    fun world memory time hagree => ?_⟩,
    fun world => (ite (hcases world).1 (hcases world).2).ensures world⟩
  simp only [hsame]
  exact (ite (c := c world) (hcases world).1 (hcases world).2).within world memory time hagree

end Reads

theorem access_reads (address size : ℕ) :
    Reads (fun world => world.toMemory.access address size) fun _ => True where
  le world time := by
    unfold Memory.access
    split <;> exact Nat.le_succ time
  within world memory time hagree := by
    have hread : (withMemory world memory).read time = world.read time := by
      apply hagree time le_rfl
      unfold Memory.access
      split <;> exact Nat.lt_succ_self time
    unfold Memory.access
    rw [hread]
  ensures world time := by
    unfold Memory.access
    cases world.read time address size with
    | ok bytes => trivial
    | error e =>
      intro h
      cases h

theorem readArray_reads (size address : ℕ) :
    Reads (fun world => readArray world.toMemory size address) fun _ => True :=
  .ite (fun _ => .throw fun h => nomatch h) fun _ => access_reads address size

theorem readMemory_reads (address size : ℕ) :
    Reads (fun world => readMemory world.toMemory address size) fun _ => True :=
  .ite (fun _ => .throw (jitError_reported _ _)) fun _ => readArray_reads size address

theorem readDescriptors_reads (locations : List JitDescriptorLocation) :
    Reads (fun world => readDescriptors world.toMemory locations) fun _ => True := by
  induction locations with
  | nil => exact .pure trivial
  | cons location locations ih =>
    refine Reads.bind (Q := fun _ => True) ?_ fun descriptor _ => ih.bind fun _ _ => .pure trivial
    refine (readArray_reads 24 location.address).bind fun bytes _ => ?_
    exact .ite (fun _ => .throw (jitError_reported _ _)) fun _ => .pure trivial

theorem entryFault_reported {address previous : ℕ} {entry : JitCodeEntry} {fault : Fault}
    (h : entryFault address previous entry = some fault) : Reported fault := by
  unfold entryFault at h
  split at h
  · cases h
    exact fun h => nomatch h
  · split at h
    · cases h
      exact jitError_reported _ _
    · split at h
      · cases h
        exact jitError_reported _ _
      · cases h

theorem readEntriesLoop_reads (fuel : ℕ) (entries : BTreeMap ℕ JitCodeEntry)
    (address previous : ℕ) :
    Reads (fun world => readEntriesLoop world.toMemory fuel entries address previous)
      fun _ => True := by
  induction fuel generalizing entries address previous with
  | zero => exact .throw fun h => nomatch h
  | succ fuel ih =>
    unfold readEntriesLoop
    refine .ite (fun _ => .pure trivial) fun _ => .ite (fun _ => .throw fun h => nomatch h)
      fun _ => ?_
    refine .ite (fun _ => .throw (jitError_reported _ _)) fun _ => ?_
    refine (readArray_reads 32 address).bind fun bytes _ => ?_
    simp only
    split
    · next fault hfault => exact .throw (entryFault_reported hfault)
    · exact ih _ _ _

theorem mergeEntries_reported (listed : List (ℕ × JitCodeEntry)) (entries : BTreeMap ℕ JitCodeEntry)
    (totalSize : ℕ) : FailsWith Reported (mergeEntries listed entries totalSize) := by
  induction listed generalizing entries totalSize with
  | nil => exact .ok _
  | cons entry listed ih =>
    unfold mergeEntries
    split
    · exact .ite (fun _ => .error (jitError_reported _ _)) fun _ => ih _ _
    · refine .ite (fun _ => .error fun h => nomatch h) fun _ => ?_
      refine .ite (fun _ => .error fun h => nomatch h) fun _ => ?_
      exact .ite (fun _ => .error fun h => nomatch h) fun _ => ih _ _

theorem readSnapshot_reads (descriptors : List (ℕ × JitDescriptor)) :
    Reads (fun world => readSnapshot world.toMemory descriptors) fun _ => True := by
  have hloop : ∀ entries totalSize, Reads (fun world =>
      readSnapshotLoop world.toMemory descriptors entries totalSize) fun _ => True := by
    induction descriptors with
    | nil => exact fun _ _ => .pure trivial
    | cons descriptor descriptors ih =>
      intro entries totalSize
      refine (readEntriesLoop_reads _ _ _ _).bind fun listed _ => ?_
      exact (Reads.lift (Q := fun _ => True) (fun _ _ => rfl) (fun _ _ _ => trivial)
        fun _ => mergeEntries_reported _ _ _).bind fun merged _ => ih merged.1 merged.2
  exact (hloop .empty 0).bind fun entries _ => .pure trivial

theorem readRegistry_reads (locations : List JitDescriptorLocation) :
    Reads (fun world => readRegistry world.toMemory locations) fun _ => True :=
  (readDescriptors_reads locations).bind fun descriptors _ => readSnapshot_reads descriptors

end StackPulse.JitReads
