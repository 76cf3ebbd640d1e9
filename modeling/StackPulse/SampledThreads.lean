import StackPulse.Interning
import StackPulse.WireFacts

/-!
Threads and their samples in a stream of the writer. A thread is written right in
front of the first sample that refers to it, so wherever a stream is cut, every
thread of the cut stream has a sample of its process, except one that stands at
the very end.
-/
namespace StackPulse.SampledThreads

open Model Encode Writer Plans Records Sessions WireRecords WireFacts WireRuns

variable {records : List SpoolRecord} {threadId : UInt64} {processId : Int32}
  {thread : ThreadRecord}

/-- Every thread stands right in front of a sample of that thread. -/
def Paired : List SpoolRecord → Prop
  | [] => True
  | .thread id _ _ :: records =>
      (∃ delta stackId, records.head? = some (.sample delta id stackId)) ∧ Paired records
  | _ :: records => Paired records

/-- The record defines a frame or a stack. -/
def IsNode : SpoolRecord → Prop
  | .frame _ _ _ | .stack _ _ _ => True
  | _ => False

theorem paired_of_nodes {nodes rest : List SpoolRecord} (h : ∀ record ∈ nodes, IsNode record)
    (hrest : Paired rest) : Paired (nodes ++ rest) := by
  induction nodes with
  | nil => exact hrest
  | cons record nodes ih =>
    have hnode := h record (.head _)
    have hmore := ih fun r hr => h r (.tail _ hr)
    cases record with
    | frame id tag address => exact hmore
    | stack id parent frameId => exact hmore
    | _ => exact absurd hnode (by simp [IsNode])

theorem Paired.append {more : List SpoolRecord} (h : Paired records) (h' : Paired more) :
    Paired (records ++ more) := by
  induction records with
  | nil => exact h'
  | cons record records ih =>
    cases record with
    | thread id processId threadId =>
      obtain ⟨⟨delta, stackId, hhead⟩, hrest⟩ := h
      refine ⟨⟨delta, stackId, ?_⟩, ih hrest⟩
      cases records with
      | nil => cases hhead
      | cons next records => exact hhead
    | _ => exact ih h

theorem planStack_nodes (frames : List FrameRecord) : (planStack frames).Emits IsNode :=
  planStack_emits (fun _ _ _ _ _ => trivial) fun _ _ _ => trivial

/-- A new thread is one record; a known one is none, and neither is a failure. -/
theorem planThread_cases {caches : Caches} {result : Except Stop UInt32}
    (h : planThread processId threadId caches = (records, result)) :
    records = [] ∨ ∃ id, result = .ok id ∧ records = [.thread id processId threadId] := by
  unfold planThread at h
  rw [Plan.get_bind] at h
  rcases hlookup : caches.threadCache.lookup (processId, threadId) with _ | known
  · rw [hlookup] at h
    simp only at h
    rcases hnext : nextSpoolId caches.threadCache.entries.length "thread" with e | next
    · rw [hnext] at h
      cases h
      exact .inl rfl
    · rw [hnext, Plan.ofExcept_ok_bind] at h
      cases h
      exact .inr ⟨next, rfl, rfl⟩
  · rw [hlookup] at h
    cases h
    exact .inl rfl

/-- The records of a call: frames and stack nodes, and if a sample is written, its thread
unless it is known, and the sample. -/
theorem planSample_split {timestampNs : UInt64} {frames : List FrameRecord} {caches : Caches}
    {result : Outcome}
    (h : planSample timestampNs processId threadId frames caches = (records, result)) :
    ((∀ record ∈ records, IsNode record) ∧ ∀ stackId, result ≠ .ok (some stackId)) ∨
      ∃ nodes threads delta id stackId, (∀ record ∈ nodes, IsNode record) ∧
        (threads = [] ∨ threads = [.thread id processId threadId]) ∧
        result = .ok (some stackId) ∧
        records = nodes ++ (threads ++ [.sample delta id stackId]) := by
  unfold planSample at h
  by_cases hframes : frames = []
  · rw [if_pos hframes] at h
    cases h
    exact .inl ⟨fun record hmem => absurd hmem List.not_mem_nil, fun _ hid => by cases hid⟩
  rw [if_neg hframes, Plan.get_bind] at h
  rcases Plan.bind_cases h with ⟨e, hdelta, rfl⟩ | ⟨first, delta, rest, hdelta, hrest, rfl⟩
  · have hnone : records = [] := (congrArg Prod.fst hdelta).symm
    rw [hnone]
    exact .inl ⟨fun record hmem => absurd hmem List.not_mem_nil, fun _ hid => by cases hid⟩
  have hfirst : first = [] := (congrArg Prod.fst hdelta).symm
  subst hfirst
  rw [List.nil_append]
  have hnodes := (planStack_nodes frames).records (caches.absorbAll [])
  rcases Plan.bind_cases hrest with ⟨e, hstack, rfl⟩ | ⟨nodes, stack, more, hstack, hmore, rfl⟩
  · rw [hstack] at hnodes
    exact .inl ⟨hnodes, fun _ hid => by cases hid⟩
  rw [hstack] at hnodes
  rcases stack with _ | stackId
  · cases hmore
    rw [List.append_nil]
    exact .inl ⟨hnodes, fun _ hid => by cases hid⟩
  rcases Plan.bind_cases hmore with ⟨e, hthread, rfl⟩ | ⟨threads, id, last, hthread, hlast, rfl⟩
  · rcases planThread_cases hthread with rfl | ⟨id, hid, -⟩
    · rw [List.append_nil]
      exact .inl ⟨hnodes, fun _ hid => by cases hid⟩
    · cases hid
  · cases hlast
    refine .inr ⟨nodes, threads, delta, id, stackId, hnodes, ?_, rfl, rfl⟩
    refine (planThread_cases hthread).imp_right fun ⟨id', hid, hthreads⟩ => ?_
    cases hid
    exact hthreads

theorem planSample_paired (timestampNs : UInt64) (processId : Int32) (threadId : UInt64)
    (frames : List FrameRecord) (caches : Caches) :
    Paired (planSample timestampNs processId threadId frames caches).1 := by
  rcases hplan : planSample timestampNs processId threadId frames caches with ⟨records, result⟩
  rcases planSample_split hplan with
    ⟨hnodes, -⟩ | ⟨nodes, threads, delta, id, stackId, hnodes, hthreads, -, rfl⟩
  · have hpaired : Paired (records ++ []) := paired_of_nodes hnodes trivial
    rwa [List.append_nil] at hpaired
  · apply paired_of_nodes hnodes
    rcases hthreads with rfl | rfl
    · trivial
    · exact ⟨⟨delta, stackId, rfl⟩, trivial⟩

theorem planOps_paired (ops : List Op) (caches : Caches) : Paired (planOps ops caches).1 := by
  induction ops generalizing caches with
  | nil => trivial
  | cons op ops ih =>
    rw [planOps_cons]
    apply Paired.append _ (ih _)
    cases op with
    | writeSampleFrames timestampNs processId threadId frames =>
      exact planSample_paired timestampNs processId threadId frames caches
    | _ => trivial

variable {s t : ReaderState}

theorem decoded_thread {record : SpoolRecord} (h : decoded s record = .ok (.thread thread)) :
    ∃ id tid, record = .thread id thread.processId.get tid ∧ id.toNat = s.threads.length := by
  cases record with
  | thread id processId threadId =>
    obtain ⟨found, hfound, hthread⟩ := map_ok.mp h
    cases hthread
    obtain ⟨hid, hpid, -⟩ := threadDecoded_ok.mp hfound
    exact ⟨id, threadId, by rw [hpid], hid⟩
  | _ =>
    obtain ⟨found, -, hother⟩ := map_ok.mp h
    cases hother

/-- The sample behind a thread belongs to its process. -/
theorem sample_behind {id : UInt32} {delta : Int64} {stackId : UInt32} {value : DecodedSpoolRecord}
    (hid : id.toNat = s.threads.length) (hcommit : s.commit (.thread thread) = .ok t)
    (h : decoded t (.sample delta id stackId) = .ok value) :
    ∃ sample, value = .sample sample ∧ sample.processId = thread.processId := by
  obtain ⟨sample, hsample, rfl⟩ := map_ok.mp h
  obtain ⟨-, hthread, -⟩ := sampleDecoded_ok.mp hsample
  cases hcommit
  have hlast : (s.threads ++ [thread])[id.toNat]? = some thread := by
    rw [hid]
    exact List.getElem?_concat_length
  have hsame := Option.some.inj (hlast.symm.trans hthread)
  exact ⟨sample, rfl, by rw [hsame]⟩

/-- The threads of a cut stream have samples, but for the last record. -/
theorem sampled_or_last {all : List SpoolRecord} {values : List DecodedSpoolRecord}
    (h : Reads s records values t) (hall : Paired all) (hcut : records <+: all)
    (hmem : .thread thread ∈ values) :
    (∃ sample, .sample sample ∈ values ∧ sample.processId = thread.processId) ∨
      ∃ id tid, records.getLast? = some (.thread id thread.processId.get tid) := by
  induction h generalizing all with
  | nil s => cases hmem
  | @cons s s' t record records value values hstep hreads ih =>
    obtain ⟨more, rfl⟩ := hcut
    obtain ⟨hdecoded, hcommit⟩ := step_ok.mp hstep
    have hpaired : Paired (records ++ more) := by
      cases record with
      | thread id processId threadId => exact hall.2
      | _ => exact hall
    rcases List.mem_cons.mp hmem with rfl | htail
    · obtain ⟨id, tid, rfl, hid⟩ := decoded_thread hdecoded
      cases hreads with
      | nil => exact .inr ⟨id, tid, rfl⟩
      | @cons _ s'' _ next records value values hstep' hreads =>
        obtain ⟨⟨delta, stackId, hnext⟩, -⟩ := hall
        cases hnext
        obtain ⟨sample, rfl, hsample⟩ := sample_behind hid hcommit (step_ok.mp hstep').1
        exact .inl ⟨sample, by simp, hsample⟩
    · rcases ih hpaired (List.prefix_append records more) htail with ⟨sample, hmem, hsample⟩ | hlast
      · exact .inl ⟨sample, .tail _ hmem, hsample⟩
      · obtain ⟨id, tid, hlast⟩ := hlast
        refine .inr ⟨id, tid, ?_⟩
        rw [List.getLast?_cons, hlast]
        rfl

/-- A thread record that the reader goes through gives a thread. -/
theorem thread_of_record {values : List DecodedSpoolRecord} (h : Reads s records values t)
    {id : UInt32} (hmem : .thread id processId threadId ∈ records) :
    ∃ thread : ThreadRecord, .thread thread ∈ values ∧ thread.processId.get = processId := by
  induction h with
  | nil s => cases hmem
  | @cons s s' t record records value values hstep hreads ih =>
    rcases List.mem_cons.mp hmem with rfl | htail
    · obtain ⟨thread, hthread, rfl⟩ := map_ok.mp (step_ok.mp hstep).1
      exact ⟨thread, .head _, (threadDecoded_ok.mp hthread).2.1⟩
    · obtain ⟨thread, hmem, hpid⟩ := ih htail
      exact ⟨thread, .tail _ hmem, hpid⟩

end StackPulse.SampledThreads
