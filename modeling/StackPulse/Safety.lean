import StackPulse.ContextFacts
import StackPulse.Stacks

/-!
Safety of the reader on arbitrary bytes. Every record keeps the state well
formed, and on a well-formed state no record can make the reader panic. What the
iterators rely on later is part of the invariant.
-/
namespace StackPulse.Safety

open Attempts Bytes Bytes.ByteReader Varint Model SpoolCursor FrameContexts ContextFacts Decode
  DecodeFacts ReaderFacts Records Scanning OpenSpool Stacks

variable {V : IntegerEncoding} {record : DecodedSpoolRecord} {s t : ReaderState}

/-- What a decoded record may refer to. -/
def Accepts (s : ReaderState) : DecodedSpoolRecord → Prop
  | .module module => module.id.toNat = s.modules.length
  | .frame frame => PinnedIn s.modules frame
  | .stack node => NodeOver s.stackNodes s.frames.length node
  | .sample sample => SampleOver s.threads s.stackNodes.length sample
  | .deactivateModule moduleId => moduleId < s.modules.length
  | _ => True

theorem decodeTagged_triple (s : ReaderState) (tag : UInt8) :
    (decodeTagged V s tag).Triple (Accepts s) Orderly := by
  apply decodeTagged_cases V s fun _ m => m.Triple (Accepts s) Orderly
  · intro tag _
    exact Triple.map (readModuleRecord_reads V _ tag).triple
  · exact Triple.map (readFrame_reads V _ _).triple
  · exact Triple.map (readStackNode_reads V _ _).triple
  · exact Triple.map (readThread_reads V _).triple
  · exact Triple.map (readSample_reads V _ _ _).triple
  · exact Triple.map (readPythonRuntime_reads V).triple
  · exact Triple.map (readPid_reads V).triple
  · exact Triple.map (readIndexWithin_reads V _ _).triple
  · intro tag _
    exact Triple.fail rfl

/-- Everything one record can do: it was accepted, and it was committed. -/
theorem next_accepts {c d : Cursor} (hc : c.Valid)
    (h : (spoolFormat V).next s c = (.ok (record, t), d)) :
    Accepts s record ∧ s.commit record = .ok t := by
  obtain ⟨tag, c', htag, hrest⟩ := bind_eq_ok h
  obtain ⟨record', c'', hdecode, hcommit⟩ := bind_eq_ok hrest
  have hc' := ((recordTag_reads.triple c hc).1 tag c' htag).2
  have haccept := ((decodeTagged_triple s tag c' hc').1 record' c'' hdecode).1
  obtain ⟨t', c3, hof, hpure⟩ := bind_eq_ok hcommit
  cases hpure
  exact ⟨haccept, congrArg Prod.fst hof⟩

structure WellFormed (s : ReaderState) : Prop where
  moduleIds : ∀ (i : ℕ) module, s.modules[i]? = some module → module.id.toNat = i
  contexts : Coherent s.frameContexts s.modules s.frames.length
  pinned : ∀ frame ∈ s.frames, PinnedIn s.modules frame
  linked : Linked s.stackNodes s.frames.length

theorem wellFormed_initial : WellFormed .initial where
  moduleIds i module h := by cases h
  contexts := coherent_empty
  pinned frame h := by cases h
  linked i node h := by cases h

theorem pinnedIn_append {modules : List ModuleRecord} {frame : FrameRecord}
    (h : PinnedIn modules frame) (more : List ModuleRecord) : PinnedIn (modules ++ more) frame := by
  intro id hid
  obtain ⟨module, hget, hpin⟩ := h id hid
  refine ⟨module, ?_, hpin⟩
  rw [List.getElem?_append_left (List.getElem?_eq_some_iff.mp hget).1]
  exact hget

namespace WellFormed

theorem pushModule (h : WellFormed s) {module : ModuleRecord}
    (hid : module.id.toNat = s.modules.length) : WellFormed (s.pushModule module) where
  moduleIds i m hm := by
    change (s.modules ++ [module])[i]? = some m at hm
    rcases Nat.lt_or_ge i s.modules.length with hi | hi
    · rw [List.getElem?_append_left hi] at hm
      exact h.moduleIds i m hm
    · rw [List.getElem?_append_right hi] at hm
      have hlt := (List.getElem?_eq_some_iff.mp hm).1
      rw [List.length_singleton] at hlt
      have hmem := List.mem_of_getElem? hm
      rw [List.mem_singleton.mp hmem]
      omega
  contexts := h.contexts.pushModule module
  pinned frame hframe := pinnedIn_append (h.pinned frame hframe) [module]
  linked := h.linked

theorem pushFrame (h : WellFormed s) {frame : FrameRecord} (hpin : PinnedIn s.modules frame) :
    WellFormed (s.pushFrame frame) where
  moduleIds := h.moduleIds
  contexts := by
    change Coherent _ s.modules (s.frames ++ [frame]).length
    rw [List.length_append]
    exact h.contexts.pushFrame
  pinned f hf := by
    rcases List.mem_append.mp hf with hold | hnew
    · exact h.pinned f hold
    · rw [List.mem_singleton.mp hnew]
      exact hpin
  linked := by
    change Linked s.stackNodes (s.frames ++ [frame]).length
    rw [List.length_append]
    exact h.linked.mono (Nat.le_add_right _ _)

theorem retired (h : WellFormed s) {deactivatedAt : ℕ} {moduleIds : List ℕ}
    {contexts : SpoolFrameModuleContexts}
    (hretires : Retires deactivatedAt moduleIds s.frameContexts contexts) :
    WellFormed { s with frameContexts := contexts } where
  moduleIds := h.moduleIds
  contexts := hretires.coherent h.contexts
  pinned := h.pinned
  linked := h.linked

/-- An accepted record can be committed, and keeps the state well formed. -/
theorem commit (h : WellFormed s) (hlen : s.stackNodes.length < 2 ^ 63)
    (haccept : Accepts s record) :
    ∃ t, s.commit record = .ok t ∧ WellFormed t := by
  cases record with
  | module module => exact ⟨_, rfl, h.pushModule haccept⟩
  | frame frame => exact ⟨_, rfl, h.pushFrame haccept⟩
  | stack node =>
    exact ⟨_, rfl, h.moduleIds, h.contexts, h.pinned, h.linked.push hlen haccept⟩
  | thread thread => exact ⟨_, rfl, h.moduleIds, h.contexts, h.pinned, h.linked⟩
  | sample sample => exact ⟨_, rfl, h.moduleIds, h.contexts, h.pinned, h.linked⟩
  | pythonRuntime record => exact ⟨s, rfl, h⟩
  | deactivateProcess processId =>
    obtain ⟨deactivated, contexts, hok, hretires⟩ :=
      h.contexts.deactivateOwner (.process processId) s.frames.length
    refine ⟨{ s with frameContexts := contexts }, ?_, h.retired hretires⟩
    change (·.2) <$> s.deactivateProcess processId = _
    unfold ReaderState.deactivateProcess
    rw [hok]
    rfl
  | deactivateModule moduleId =>
    obtain ⟨wasActive, contexts, hok, hretires⟩ :=
      h.contexts.deactivateModule s.frames.length haccept
    refine ⟨{ s with frameContexts := contexts }, ?_, h.retired hretires⟩
    change s.deactivateModule moduleId = _
    unfold ReaderState.deactivateModule
    rw [hok]
    rfl

end WellFormed

/-- No record makes a well-formed reader panic. -/
theorem next_orderly (h : WellFormed s) (hlen : s.stackNodes.length < 2 ^ 63) :
    ((spoolFormat V).next s).Triple (fun p => WellFormed p.2) Orderly := by
  refine recordTag_reads.triple.bind fun tag _ => ?_
  refine (decodeTagged_triple s tag).bind fun record haccept => ?_
  obtain ⟨t, hcommit, ht⟩ := h.commit hlen haccept
  rw [hcommit]
  exact Triple.pure ht

/-- The invariant of the record loop: each node took at least one byte. -/
structure Tracked (s : ReaderState) (c : Cursor) : Prop where
  wellFormed : WellFormed s
  nodes_le : s.stackNodes.length ≤ c.position

theorem Tracked.length_lt {c : Cursor} (h : Tracked s c) (hc : c.Valid) :
    s.stackNodes.length < 2 ^ 63 := by
  have hlt := c.mmap.length_lt
  have hle := h.nodes_le
  have hpos : c.position ≤ c.mmap.bytes.length := hc
  omega

/-- `t` extends the definitions of `s`. -/
structure Grows (s t : ReaderState) : Prop where
  modules : s.modules <+: t.modules
  frames : s.frames <+: t.frames
  stackNodes : s.stackNodes <+: t.stackNodes
  threads : s.threads <+: t.threads

namespace Grows

theorem refl (s : ReaderState) : Grows s s :=
  ⟨List.prefix_rfl, List.prefix_rfl, List.prefix_rfl, List.prefix_rfl⟩

theorem trans {u : ReaderState} (h : Grows s t) (h' : Grows t u) : Grows s u :=
  ⟨h.modules.trans h'.modules, h.frames.trans h'.frames, h.stackNodes.trans h'.stackNodes,
    h.threads.trans h'.threads⟩

end Grows

inductive DefinitionKind
  | module
  | frame
  | stack
  | thread
  deriving DecidableEq

/-- The kind of definition a record adds. -/
def definitionKind : DecodedSpoolRecord → Option DefinitionKind
  | .module _ => some .module
  | .frame _ => some .frame
  | .stack _ => some .stack
  | .thread _ => some .thread
  | _ => none

def definitionCount (s : ReaderState) : DefinitionKind → ℕ
  | .module => s.modules.length
  | .frame => s.frames.length
  | .stack => s.stackNodes.length
  | .thread => s.threads.length

variable {kind : DefinitionKind}

/-- A committed deactivation changes the contexts only. -/
theorem commit_deactivate (h : s.commit record = .ok t)
    (hrecord : (∃ pid, record = .deactivateProcess pid) ∨ ∃ id, record = .deactivateModule id) :
    ∃ contexts, t = { s with frameContexts := contexts } := by
  rcases hrecord with ⟨pid, rfl⟩ | ⟨id, rfl⟩
  · change (·.2) <$> s.deactivateProcess pid = .ok t at h
    unfold ReaderState.deactivateProcess at h
    rcases hok : s.frameContexts.deactivateOwner (.process pid) s.frames.length with e | p <;>
      rw [hok] at h <;> cases h
    exact ⟨_, rfl⟩
  · obtain ⟨p, -, h⟩ := bind_ok.mp h
    cases h
    exact ⟨_, rfl⟩

theorem commit_grows (h : s.commit record = .ok t) : Grows s t := by
  cases record with
  | deactivateProcess | deactivateModule =>
    obtain ⟨contexts, rfl⟩ := commit_deactivate h (by simp)
    exact ⟨List.prefix_rfl, List.prefix_rfl, List.prefix_rfl, List.prefix_rfl⟩
  | _ =>
    cases h
    constructor <;> first | exact List.prefix_rfl | exact List.prefix_append _ _

theorem commit_count (h : s.commit record = .ok t) (kind : DefinitionKind) :
    definitionCount t kind =
      definitionCount s kind + if definitionKind record = some kind then 1 else 0 := by
  cases record with
  | deactivateProcess | deactivateModule =>
    obtain ⟨contexts, rfl⟩ := commit_deactivate h (by simp)
    cases kind <;> rfl
  | _ =>
    cases h
    cases kind <;>
      simp [definitionCount, definitionKind, ReaderState.pushModule, ReaderState.pushFrame,
        ReaderState.pushStack, ReaderState.pushThread]

theorem tracked_next {c d : Cursor} (h : Tracked s c) (hc : c.Valid)
    (hnext : (spoolFormat V).next s c = (.ok (record, t), d)) : Tracked t d := by
  obtain ⟨haccept, hcommit⟩ := next_accepts hc hnext
  obtain ⟨t', hcommit', ht⟩ := h.wellFormed.commit (h.length_lt hc) haccept
  rw [hcommit] at hcommit'
  cases hcommit'
  refine ⟨ht, ?_⟩
  have hlt := (spoolFormat V).progress _ _ _ _ hc hnext
  have hle := h.nodes_le
  have hcount := commit_count hcommit .stack
  change t.stackNodes.length = s.stackNodes.length + _ at hcount
  split at hcount <;> omega

variable {c d : Cursor} {entries : List SpoolEntry}

section

variable (h : Run (spoolFormat V) s c entries t d)

include h

theorem tracked_run (hc : c.Valid) (hs : Tracked s c) : Tracked t d :=
  h.invariant Tracked (fun _ _ _ _ _ hs hc hnext => tracked_next hs hc hnext) hc hs

theorem grows_run (hc : c.Valid) : Grows s t := by
  induction h with
  | nil s c => exact Grows.refl s
  | cons hnext _ ih =>
    have hstep := commit_grows (next_accepts hc hnext).2
    exact hstep.trans (ih (next_valid hc hnext))

theorem count_run (hc : c.Valid) (kind : DefinitionKind) :
    definitionCount t kind = definitionCount s kind +
      entries.countP fun entry => definitionKind entry.record = some kind := by
  induction h with
  | nil s c => rfl
  | @cons s s' t c c' d record entries hnext _ ih =>
    have hstep := commit_count (next_accepts hc hnext).2 kind
    rw [ih (next_valid hc hnext), hstep, List.countP_cons]
    by_cases hkind : definitionKind record = some kind
    · simp only [hkind, if_true, decide_true]
      omega
    · simp only [hkind, if_false, decide_false, Bool.false_eq_true]
      omega

end

/-- The id that a definition record carries right behind its tag. -/
def wireId (V : IntegerEncoding) (mmap : Mmap) (recordStart : ℕ) : Option ℕ :=
  match readVarint V UInt64 ⟨mmap, recordStart + 1⟩ with
  | (.ok id, _) => some id.toNat
  | (.error _, _) => none

theorem readVarint_of_checkId {α : Type} {expected : ℕ} {kind : String} {f : Unit → Reader α}
    {a : α} (h : (checkId V expected kind >>= f) c = (.ok a, d)) :
    ∃ id c', readVarint V UInt64 c = (.ok id, c') ∧ id.toNat = expected := by
  obtain ⟨_, c', hcheck, _⟩ := bind_eq_ok h
  obtain ⟨id, c'', hread, hmatch⟩ := bind_eq_ok hcheck
  exact ⟨id, c'', hread, matchId_ok.mp (congrArg Prod.fst hmatch)⟩

theorem readVarint_of_decodeTagged {tag : UInt8} (h : decodeTagged V s tag c = (.ok record, d))
    (hkind : definitionKind record = some kind) :
    ∃ id c', readVarint V UInt64 c = (.ok id, c') ∧ id.toNat = definitionCount s kind := by
  revert h
  have other : ∀ {α : Type} {m : Reader α} {f : α → DecodedSpoolRecord},
      (∀ a, definitionKind (f a) = none) → (f <$> m) c = (.ok record, d) →
        ∃ id c', readVarint V UInt64 c = (.ok id, c') ∧ id.toNat = definitionCount s kind := by
    intro α m f hf h
    obtain ⟨a, c', _, hpure⟩ := bind_eq_ok h
    cases hpure
    rw [hf a] at hkind
    cases hkind
  have definition : ∀ {α : Type} (k : DefinitionKind) {text : String} {m : Unit → Reader α}
      {f : α → DecodedSpoolRecord}, (∀ a, definitionKind (f a) = some k) →
        (f <$> (checkId V (definitionCount s k) text >>= m)) c = (.ok record, d) →
          ∃ id c', readVarint V UInt64 c = (.ok id, c') ∧ id.toNat = definitionCount s kind := by
    intro α k text m f hf h
    obtain ⟨a, c', hread, hpure⟩ := bind_eq_ok h
    cases hpure
    rw [hf a] at hkind
    cases hkind
    exact readVarint_of_checkId hread
  apply decodeTagged_cases V s fun _ m => m c = (.ok record, d) →
    ∃ id c', readVarint V UInt64 c = (.ok id, c') ∧ id.toNat = definitionCount s kind
  · exact fun _ _ => definition .module fun _ => rfl
  · exact definition .frame fun _ => rfl
  · exact definition .stack fun _ => rfl
  · exact definition .thread fun _ => rfl
  · exact other fun _ => rfl
  · exact other fun _ => rfl
  · exact other fun _ => rfl
  · exact other fun _ => rfl
  · intro tag _ h
    cases h

/-- The id on the wire is the number of definitions of that kind read before. -/
theorem wireId_of_next (hc : c.Valid) (h : (spoolFormat V).next s c = (.ok (record, t), d))
    (hkind : definitionKind record = some kind) :
    wireId V c.mmap c.position = some (definitionCount s kind) := by
  obtain ⟨tag, c', htag, hrest⟩ := bind_eq_ok h
  obtain ⟨record', c'', hdecode, hcommit⟩ := bind_eq_ok hrest
  obtain ⟨t', c3, _, hpure⟩ := bind_eq_ok hcommit
  cases hpure
  have hmmap := recordTag_reads.stable.mmap_eq c hc
  rw [htag] at hmmap
  have hpos := recordTag_progress htag
  have hcursor : (⟨c.mmap, c.position + 1⟩ : Cursor) = c' := by
    rw [← hmmap, ← hpos]
  obtain ⟨id, c4, hread, hid⟩ := readVarint_of_decodeTagged hdecode hkind
  unfold wireId
  rw [hcursor, hread]
  exact congrArg some hid

theorem dense_run (h : Run (spoolFormat V) s c entries t d) (hc : c.Valid)
    {pre post : List SpoolEntry} {entry : SpoolEntry} (hsplit : entries = pre ++ entry :: post)
    (hkind : definitionKind entry.record = some kind) :
    wireId V c.mmap entry.start = some (definitionCount s kind +
      pre.countP fun entry => definitionKind entry.record = some kind) := by
  rw [hsplit] at h
  obtain ⟨s', c', c'', hpre, hnext, hstart, _, _⟩ := h.at_entry
  obtain ⟨hmmap, hvalid⟩ := hpre.mmap_eq hc
  rw [hstart, ← hmmap, wireId_of_next hvalid hnext hkind, count_run hpre hc kind]

/-- Every sample of a run refers to a stack and a thread known at its end. -/
theorem sample_run (h : Run (spoolFormat V) s c entries t d) (hc : c.Valid)
    {entry : SpoolEntry} (hentry : entry ∈ entries) {sample : SampleRecord}
    (hsample : entry.record = .sample sample) :
    sample.stackId.toNat < t.stackNodes.length ∧
      ⟨sample.processId, sample.threadId⟩ ∈ t.threads := by
  obtain ⟨pre, post, rfl⟩ := List.append_of_mem hentry
  obtain ⟨s', c', c'', hpre, hnext, _, _, hpost⟩ := h.at_entry
  have hvalid := hpre.valid hc
  obtain ⟨haccept, hcommit⟩ := next_accepts hvalid hnext
  rw [hsample] at haccept
  have hgrows := (commit_grows hcommit).trans (grows_run hpost (next_valid hvalid hnext))
  have hover : SampleOver s'.threads s'.stackNodes.length sample := haccept
  refine ⟨?_, hgrows.threads.subset hover.thread⟩
  have hle := hgrows.stackNodes.length_le
  have hlt := hover.stack_lt
  omega

/-- What the iterators over an accepted spool rely on. -/
structure SafeSpool (V : IntegerEncoding) (opened : OpenedSpool) (entries : List SpoolEntry) :
    Prop where
  moduleIds : ∀ (i : ℕ) module, opened.definitions.modules[i]? = some module →
    module.id.toNat = i
  denseIds : ∀ pre entry post kind, entries = pre ++ entry :: post →
    definitionKind entry.record = some kind →
    wireId V opened.mmap entry.start =
      some (pre.countP fun entry => definitionKind entry.record = some kind)
  nodes : ∀ (i : ℕ) node, opened.definitions.stackNodes[i]? = some node →
    (∀ parent, node.parent = some parent → parent.val.toNat - 1 < i) ∧
      ∃ chain, Chain opened.definitions.stackNodes i chain ∧ node.depth = chain.length
  pinned : ∀ frame ∈ opened.definitions.frames, ∀ id, frame.moduleId = some id →
    ∃ module, opened.definitions.modules[id.toNat]? = some module ∧
      module.start ≤ frame.absIp ∧ frame.absIp < module.stop
  retained : ∀ sample ∈ opened.samples, ∃ entry ∈ entries, entry.record = .sample sample
  samples : ∀ entry ∈ entries, ∀ sample, entry.record = .sample sample →
    ⟨sample.processId, sample.threadId⟩ ∈ opened.threads ∧
      ∃ node it refs, opened.definitions.stackNodes[sample.stackId.toNat]? = some node ∧
        rawFrames opened.definitions sample.stackId = .ok it ∧
        it.drain (node.depth + 1) = .ok refs ∧ refs.length = node.depth

theorem samples_final_subset (storage : SampleStorage) (rangeLimit : ℕ) (entries : List SpoolEntry)
    (sample : SampleRecord) (h : sample ∈ (Reading.final storage rangeLimit entries).samples) :
    ∃ entry ∈ entries, entry.record = .sample sample := by
  unfold Reading.final at h
  rw [OpenState.samples_absorbAll] at h
  rcases List.mem_append.mp h with hinit | hsome
  · cases hinit
  · split at hsome
    · obtain ⟨entry, hentry, hsample⟩ := List.mem_filterMap.mp hsome
      refine ⟨entry, hentry, ?_⟩
      rcases hrecord : entry.record <;> rw [hrecord] at hsample <;> cases hsample
      rfl
    · cases hsome

theorem safe_of_reading {mmap : Mmap} {header : SpoolHeader} {ending : Ending Stop}
    (h : Reading V mmap header c entries t d ending) {opened : OpenedSpool}
    (hmmap : opened.mmap = mmap) (hold : Holds opened t)
    (hretained : ∀ sample ∈ opened.samples, ∃ entry ∈ entries, entry.record = .sample sample) :
    SafeSpool V opened entries := by
  obtain ⟨hcursor, hvalid⟩ := Reading.header_valid h.header
  have htracked := tracked_run h.scan.run hvalid ⟨wellFormed_initial, Nat.zero_le _⟩
  have hwf := htracked.wellFormed
  have hlinked : Linked opened.definitions.stackNodes opened.definitions.frames.length := by
    rw [hold.stackNodes, hold.frames]
    exact hwf.linked
  refine ⟨?_, ?_, ?_, ?_, hretained, ?_⟩
  · intro i module hmodule
    rw [hold.modules] at hmodule
    exact hwf.moduleIds i module hmodule
  · intro pre entry post kind hsplit hkind
    have hdense := dense_run h.scan.run hvalid hsplit hkind
    rw [hmmap, ← hcursor, hdense]
    cases kind <;> simp [definitionCount, ReaderState.initial]
  · intro i node hnode
    obtain ⟨chain, hchain, hlength, _⟩ := hlinked.exists_chain i node hnode
    refine ⟨?_, chain, hchain, hlength.symm⟩
    intro parent hparent
    rcases (hlinked i node hnode).2 with ⟨hroot, _⟩ | ⟨parent', _, hparent', hlt, _⟩
    · rw [hroot] at hparent
      cases hparent
    · rw [hparent'] at hparent
      cases hparent
      exact hlt
  · intro frame hframe id hid
    rw [hold.frames] at hframe
    rw [hold.modules]
    obtain ⟨module, hmodule, hpin⟩ := hwf.pinned frame hframe id hid
    exact ⟨module, hmodule, hpin.start_le, hpin.lt_stop⟩
  · intro entry hentry sample hsample
    obtain ⟨hstack, hthread⟩ := sample_run h.scan.run hvalid hentry hsample
    rw [← hold.stackNodes] at hstack
    obtain ⟨chain, refs, _, hlength, hraw, hdrain, hall⟩ :=
      stackFrames_eq opened.definitions hlinked sample.stackId hstack
    unfold stackFrames at hdrain
    rw [hraw] at hdrain
    refine ⟨by rw [hold.threads]; exact hthread, _, _, refs,
      List.getElem?_eq_getElem hstack, hraw, ?_, ?_⟩
    · rw [← hlength]
      exact hdrain
    · rw [← hlength]
      exact hall.length_eq.symm

theorem recordError_orderly {e : Stop} (tag : UInt8) (recordStart : ℕ) (h : Orderly e) :
    Orderly (recordError e tag recordStart) := by
  rcases e with error | site | _
  · rfl
  · cases h
  · cases h

/-- The reader never panics and never runs out of rounds. -/
theorem open_orderly (V : IntegerEncoding) (storage : SampleStorage) (rangeLimit : ℕ) (mmap : Mmap)
    {e : Stop} (h : openSpoolWithRangeLimit V storage rangeLimit mmap = .error e) : Orderly e := by
  have hzero := Reading.valid_zero mmap
  rcases hheader : readHeader V ⟨mmap, 0⟩ with ⟨e' | header, c⟩
  · unfold openSpoolWithRangeLimit at h
    rw [hheader] at h
    cases h
    exact ((readHeader_reads V).triple ⟨mmap, 0⟩ hzero).2 e c hheader
  · obtain ⟨entries, t, d, ending, hreading⟩ := Reading.exists_reading hheader
    obtain ⟨_, hvalid⟩ := Reading.header_valid hheader
    have htracked := tracked_run hreading.scan.run hvalid ⟨wellFormed_initial, Nat.zero_le _⟩
    have hvalid' := hreading.scan.run.valid hvalid
    obtain ⟨tag, htag⟩ := hreading.open_eq storage rangeLimit
    rw [htag] at h
    rcases ending with _ | _ | e'
    · cases h
    · cases h
    · cases h
      obtain ⟨_, hnext, _⟩ := hreading.scan.halts
      apply recordError_orderly
      exact (next_orderly htracked.wellFormed (htracked.length_lt hvalid') d hvalid').2 e' _
        (Prod.ext hnext rfl)

/-- Decoding any bytes comes to an end without a panic, and an accepted spool is
safe to iterate over. -/
theorem decoding_is_safe (V : IntegerEncoding) (storage : SampleStorage) (rangeLimit : ℕ)
    (mmap : Mmap) :
    (∀ e, openSpoolWithRangeLimit V storage rangeLimit mmap = .error e →
      e ≠ .pending ∧ ∀ site, e ≠ .panic site) ∧
    ∀ opened, openSpoolWithRangeLimit V storage rangeLimit mmap = .ok opened →
      ∃ header c entries t d ending, Reading V mmap header c entries t d ending ∧
        Holds opened t ∧ SafeSpool V opened entries := by
  constructor
  · intro e he
    have hio := open_orderly V storage rangeLimit mmap he
    rcases e with error | site | _
    · refine ⟨?_, fun site => ?_⟩ <;> intro heq <;> cases heq
    · cases hio
    · cases hio
  · intro opened hopened
    obtain ⟨header, c, entries, t, d, ending, hreading, _, rfl⟩ :=
      Reading.of_open_eq_ok hopened
    have hold := hreading.finish_holds storage rangeLimit ending.isTorn
    refine ⟨header, c, entries, t, d, ending, hreading, hold, ?_⟩
    exact safe_of_reading hreading rfl hold (samples_final_subset storage rangeLimit entries)

/-- A header, then one frame, one stack node, one thread and one sample. -/
def oneSampleSpool : Mmap where
  bytes := CURRENT_MAGIC ++ [0, 0, 0] ++ [2, 0, 1, 5] ++ [3, 0, 255, 255, 255, 255, 15, 0] ++
    [4, 0, 2, 1] ++ [5, 14, 0, 0]
  length_lt := by decide

theorem decoding_is_safe_one_sample : ∃ opened entries,
    openSpoolWithRangeLimit Varint.standard .retain 4 oneSampleSpool = .ok opened ∧
      opened.samples.length = 1 ∧ SafeSpool Varint.standard opened entries := by
  have hlen : (openSpoolWithRangeLimit Varint.standard .retain 4 oneSampleSpool).toOption.map
      (·.samples.length) = some 1 := by rfl
  rcases hopen : openSpoolWithRangeLimit Varint.standard .retain 4 oneSampleSpool with e | opened
  · rw [hopen] at hlen
    cases hlen
  · rw [hopen] at hlen
    obtain ⟨_, _, entries, _, _, _, _, _, hsafe⟩ :=
      (decoding_is_safe Varint.standard .retain 4 oneSampleSpool).2 opened hopen
    exact ⟨opened, entries, rfl, Option.some.inj hlen, hsafe⟩

/-- The same records, another sample, and a deactivation. -/
def twoSampleSpool : Mmap where
  bytes := oneSampleSpool.bytes ++ [5, 2, 0, 0] ++ [7, 2]
  length_lt := by decide

end StackPulse.Safety
