import StackPulse.Recall

/-!
Sessions that the reader accepts. The ids of the writer are always right; what a
caller has to respect are the module ids, the process and thread ids, the symbol
lists of modules and the shape of frames. Under these conditions the reader goes
through every record of the session.
-/
namespace StackPulse.Acceptance

open Attempts Model Decode DecodeFacts ReaderFacts Encode Writer Plans Sessions Interning Records
  WireFields WireRecords WireRuns WireFacts Recall

variable {modules : List ModuleRecord} {frame : FrameRecord} {s : ReaderState}
  {module : ModuleRecord} {record : SpoolRecord} {threadId : UInt64}

/-- The limits of the reader on the symbols of a module. -/
structure ValidSymbols (module : ModuleRecord) (symbols : List JitSymbol) : Prop where
  user : module.isKernel = false
  count : symbols.length ≤ MAX_JIT_SYMBOLS
  nonempty : ∀ symbol ∈ symbols, symbol.start < symbol.stop
  within : ∀ symbol ∈ symbols, module.start ≤ symbol.start ∧ symbol.stop ≤ module.stop
  names : ∀ symbol ∈ symbols, (JitSymbol.nameBytes symbol).length ≤ MAX_JIT_SYMBOL_NAME
  sorted : symbols.Pairwise fun before symbol => before.start ≤ symbol.start

/-- The module takes the next id, and its symbols are within the limits. -/
structure ValidModule (count : ℕ) (module : ModuleRecord) : Prop where
  id : module.id.toNat = count
  symbols : ∀ symbols, module.jitSymbols = some symbols → ValidSymbols module symbols

/-- The marker of a truncated stack, a frame without a module whose file address is
its address, or a frame in a module that was written. -/
inductive ValidFrame (modules : List ModuleRecord) (frame : FrameRecord) : Prop
  | marker : frame = .truncatedStackMarker → ValidFrame modules frame
  | unpinned : frame.moduleId = none → frame.mode ≠ .truncatedStackMarker →
      frame.fileRelativeIp = frame.absIp → ValidFrame modules frame
  | pinned (id : UInt32) (module : ModuleRecord) : frame.moduleId = some id →
      modules[id.toNat]? = some module → PinnedTo module frame → ValidFrame modules frame

/-- What a call has to respect, given the modules written before it. -/
def ValidOp (modules : List ModuleRecord) : Op → Prop
  | .writeModule module => ValidModule modules.length module
  | .writeSampleFrames _ processId threadId frames =>
      (0 < processId ∧ 0 < threadId.toNat ∧ threadId.toNat < 2 ^ 31) ∧
        ∀ frame ∈ frames, ValidFrame modules frame
  | .writePythonRuntime _ processId _ => 0 < processId
  | .writeModuleDeactivation processId => 0 < processId
  | .writeModuleDeactivationOne moduleId => moduleId.toNat < modules.length
  | .flush => True

def ValidOps : List ModuleRecord → List Op → Prop
  | _, [] => True
  | modules, op :: ops => ValidOp modules op ∧ ValidOps (modules ++ (writtenModule op).toList) ops

theorem checkSymbols_of_valid {symbols rest : List JitSymbol}
    (hnonempty : ∀ symbol ∈ rest, symbol.start < symbol.stop)
    (hwithin : ∀ symbol ∈ rest, module.start ≤ symbol.start ∧ symbol.stop ≤ module.stop)
    (hnames : ∀ symbol ∈ rest, (JitSymbol.nameBytes symbol).length ≤ MAX_JIT_SYMBOL_NAME)
    (hsorted : (symbols ++ rest).Pairwise fun before symbol => before.start ≤ symbol.start) :
    checkSymbols module symbols rest = .ok (symbols ++ rest) := by
  induction rest generalizing symbols with
  | nil =>
    rw [List.append_nil]
    rfl
  | cons symbol rest ih =>
    have hmem : symbol ∈ symbol :: rest := (.head _)
    obtain ⟨hstart, hstop⟩ := hwithin symbol hmem
    have hrange : ¬(symbol.stop ≤ symbol.start ∨ symbol.start < module.start ∨
        module.stop < symbol.stop) := by
      rintro (h | h | h)
      · exact absurd (hnonempty symbol hmem) (UInt64.not_lt.mpr h)
      · exact absurd hstart (UInt64.not_le.mpr h)
      · exact absurd hstop (UInt64.not_le.mpr h)
    have horder : (symbols.getLast?.any fun before => symbol.start < before.start) = false := by
      rcases hlast : symbols.getLast? with _ | before
      · rfl
      · have hbefore := List.mem_of_getLast? hlast
        have hle := (List.pairwise_append.mp hsorted).2.2 before hbefore symbol hmem
        exact decide_eq_false (UInt64.not_lt.mpr hle)
    have hcheck : checkSymbol module symbols symbol = .ok symbol := by
      unfold checkSymbol
      rw [if_neg hrange, if_neg (Nat.not_lt.mpr (hnames symbol hmem)), horder]
      rfl
    have hmore : symbols ++ symbol :: rest = symbols ++ [symbol] ++ rest := by simp
    rw [checkSymbols, hcheck, hmore]
    rw [hmore] at hsorted
    exact ih (fun s hs => hnonempty s (.tail _ hs))
      (fun s hs => hwithin s (.tail _ hs))
      (fun s hs => hnames s (.tail _ hs)) hsorted

theorem ValidModule.decoded {count : ℕ} (h : ValidModule count module) :
    ∃ found, moduleFromWire count module = .ok found := by
  have hmatch : matchId module.id.toUInt64 count "module" = .ok () :=
    matchId_ok.mpr (by rw [UInt32.toNat_toUInt64]; exact h.id)
  unfold moduleFromWire
  rw [hmatch]
  rcases hjit : module.jitSymbols with _ | symbols
  · exact ⟨module, rfl⟩
  · have hvalid := h.symbols symbols hjit
    have hsymbols : symbolsFromWire { module with jitSymbols := none } symbols = .ok symbols := by
      unfold symbolsFromWire
      have huser : ({ module with jitSymbols := none } : ModuleRecord).isKernel = false :=
        hvalid.user
      rw [if_neg]
      · exact checkSymbols_of_valid hvalid.nonempty hvalid.within hvalid.names hvalid.sorted
      · rintro (hcount | hkernel)
        · exact absurd hvalid.count (Nat.not_le.mpr hcount)
        · rw [huser] at hkernel
          cases hkernel
    exact ⟨_, bind_ok.mpr ⟨(), rfl, bind_ok.mpr ⟨symbols, hsymbols, rfl⟩⟩⟩

theorem ValidFrame.append (h : ValidFrame modules frame) (more : List ModuleRecord) :
    ValidFrame (modules ++ more) frame := by
  cases h with
  | marker hmarker => exact .marker hmarker
  | unpinned hmodule hmode hip => exact .unpinned hmodule hmode hip
  | pinned id module hid hget hpin =>
    refine .pinned id module hid ?_ hpin
    rw [List.getElem?_append_left (List.getElem?_eq_some_iff.mp hget).1]
    exact hget

theorem shiftLeft_shiftRight_one (id : UInt32) : (id.toUInt64 <<< 1) >>> 1 = id.toUInt64 := by
  have hlt := id.toNat_lt
  apply UInt64.toNat_inj.mp
  rw [UInt64.toNat_shiftRight, UInt64.toNat_shiftLeft, UInt32.toNat_toUInt64]
  show (id.toNat <<< 1 % 2 ^ 64) >>> 1 = id.toNat
  rw [Nat.shiftLeft_eq, Nat.shiftRight_eq_div_pow]
  omega

theorem frameFromWire_unpinned (modules : List ModuleRecord) (address : UInt64) (kernel : Bool) :
    frameFromWire modules (if kernel then 3 else 1) address =
      .ok ⟨none, address, address, frameMode kernel⟩ := by
  have hmode : ((if kernel then (3 : UInt64) else 1) &&& 2 != 0) = kernel := by
    cases kernel <;> decide
  unfold frameFromWire
  rw [if_neg (by cases kernel <;> decide), if_neg (by cases kernel <;> decide), hmode]

theorem shiftLeft_one_ne_marker (id : UInt32) :
    id.toUInt64 <<< 1 ≠ TRUNCATED_STACK_MARKER_TAG := by
  intro heq
  have heven := Realization.shiftLeft_one_and_one id.toUInt64
  rw [heq] at heven
  exact absurd heven (by decide)

theorem frameFromWire_pinned {id : UInt32} (hget : modules[id.toNat]? = some module)
    (address : UInt64) :
    frameFromWire modules (id.toUInt64 <<< 1) address = pinnedFrame id module address := by
  have hlt := (List.getElem?_eq_some_iff.mp hget).1
  have hbounded : boundedId id.toUInt64 modules.length "frame module" = .ok id :=
    boundedId_ok.mpr ⟨by rw [UInt32.toNat_toUInt64], hlt⟩
  unfold frameFromWire
  rw [if_neg (shiftLeft_one_ne_marker id), if_pos (Realization.shiftLeft_one_and_one _),
    shiftLeft_shiftRight_one, hbounded]
  simp only [bind, Except.bind, hget]

/-- A frame of a module that was not written is refused. -/
theorem frameFromWire_bounded {id : UInt32} {address : UInt64}
    (h : frameFromWire modules (id.toUInt64 <<< 1) address = .ok frame) :
    id.toNat < modules.length := by
  unfold frameFromWire at h
  rw [if_neg (shiftLeft_one_ne_marker id), if_pos (Realization.shiftLeft_one_and_one _),
    shiftLeft_shiftRight_one] at h
  obtain ⟨found, hfound, -⟩ := bind_ok.mp h
  obtain ⟨heq, hlt⟩ := boundedId_ok.mp hfound
  rw [UInt32.toNat_toUInt64] at heq
  omega

/-- A valid frame comes back from the wire as it was written. -/
theorem ValidFrame.wire (h : ValidFrame modules frame) :
    ∃ key, compactFrame frame = .ok key ∧ frameFromWire modules key.1 key.2 = .ok frame := by
  cases h with
  | marker hmarker =>
    subst hmarker
    exact ⟨_, rfl, rfl⟩
  | unpinned hmodule hmode hip =>
    rcases frame with ⟨moduleId, fileRelativeIp, absIp, mode⟩
    cases hmodule
    cases hip
    cases mode with
    | user =>
      have htag : ((1 : UInt64) ||| (0 : UInt64) <<< 1) = 1 := by decide
      refine ⟨(1, fileRelativeIp), ?_, frameFromWire_unpinned modules fileRelativeIp false⟩
      show Except.ok ((1 : UInt64) ||| (0 : UInt64) <<< 1, fileRelativeIp) = _
      rw [htag]
    | kernel =>
      have htag : ((1 : UInt64) ||| (1 : UInt64) <<< 1) = 3 := by decide
      refine ⟨(3, fileRelativeIp), ?_, frameFromWire_unpinned modules fileRelativeIp true⟩
      show Except.ok ((1 : UInt64) ||| (1 : UInt64) <<< 1, fileRelativeIp) = _
      rw [htag]
    | truncatedStackMarker => exact absurd rfl hmode
  | pinned id module hid hget hpin =>
    have hmode : frame.mode ≠ .truncatedStackMarker := by
      rw [hpin.mode]
      unfold frameMode
      split <;> simp
    refine ⟨(id.toUInt64 <<< 1, frame.fileRelativeIp), ?_, ?_⟩
    · unfold compactFrame
      rw [if_neg hmode, hid]
    · rw [frameFromWire_pinned hget]
      exact pinnedFrame_ok.mpr ⟨hid, rfl, hpin⟩

theorem exists_pid {processId : Int32} (h : 0 < processId) :
    ∃ pid, pidTryFrom processId = .ok pid :=
  ⟨⟨processId, h⟩, pidTryFrom_ok.mpr rfl⟩

theorem exists_tid (hpos : 0 < threadId.toNat) (hlt : threadId.toNat < 2 ^ 31) :
    ∃ tid, tidTryFrom threadId = .ok tid := by
  have hraw : 0 < Int32.ofNat threadId.toNat := by
    rw [Int32.lt_iff_toInt_lt, Int32.toInt_ofNat_of_lt hlt]
    show (0 : ℤ) < _
    omega
  refine ⟨⟨Int32.ofNat threadId.toNat, hraw⟩, ?_⟩
  unfold tidTryFrom Tid.tryFrom
  rw [if_pos hlt]
  unfold Tid.new
  rw [dif_pos hraw]

/-- An accepted thread id is the number that was written. -/
theorem toInt_of_tidTryFrom {tid : Tid} (h : tidTryFrom threadId = .ok tid) :
    tid.get.toInt = threadId.toNat := by
  unfold tidTryFrom Tid.tryFrom at h
  by_cases hlt : threadId.toNat < 2 ^ 31
  · rw [if_pos hlt] at h
    unfold Tid.new at h
    split at h
    · rename_i found hfound
      cases h
      split at hfound
      · rename_i found' hfound'
        split at hfound'
        · cases hfound'
          cases hfound
          exact Int32.toInt_ofNat_of_lt hlt
        · cases hfound'
      · cases hfound
    · cases h
  · rw [if_neg hlt] at h
    cases h

/-- What the reader asks of a record beyond its ids. -/
def Acceptable (modules : List ModuleRecord) : SpoolRecord → Prop
  | .module module => ∃ found, moduleFromWire modules.length module = .ok found
  | .frame _ tag address => ∃ frame, frameFromWire modules tag address = .ok frame
  | .thread _ processId threadId => 0 < processId ∧ ∃ tid, tidTryFrom threadId = .ok tid
  | .pythonRuntime _ processId _ => 0 < processId
  | .moduleDeactivation processId => 0 < processId
  | .moduleDeactivationOne moduleId => moduleId.toNat < modules.length
  | _ => True

theorem stackDecoded_of_known {id parent frameId : UInt32} (hid : id.toNat = s.stackNodes.length)
    (hparent : parent = NONE_U32 ∨ (parent ≠ NONE_U32 ∧ parent.toNat < s.stackNodes.length))
    (hframe : frameId.toNat < s.frames.length) :
    ∃ node, stackDecoded s id parent frameId = .ok node := by
  have hfound : ∃ found, stackPrefix parent.toUInt64 s.stackNodes.length = .ok found := by
    rcases hparent with rfl | ⟨hne, hlt⟩
    · exact ⟨none, if_pos rfl⟩
    · refine ⟨some parent, ?_⟩
      unfold stackPrefix
      rw [if_neg fun heq => hne (UInt32.toUInt64_inj.mp heq)]
      exact bind_ok.mpr ⟨parent, boundedId_ok.mpr ⟨by rw [UInt32.toNat_toUInt64], hlt⟩, rfl⟩
  obtain ⟨found, hfound⟩ := hfound
  obtain ⟨node, hnode, _⟩ := stackNodeFrom_of_parent hframe hfound
  refine ⟨node, bind_ok.mpr ⟨(), matchId_ok.mpr (by rw [UInt32.toNat_toUInt64]; exact hid), ?_⟩⟩
  exact bind_ok.mpr ⟨found, hfound, bind_ok.mpr ⟨frameId,
    boundedId_ok.mpr ⟨by rw [UInt32.toNat_toUInt64], hframe⟩, hnode⟩⟩

section

variable {c : Caches}

theorem decoded_of_acceptable (hin : InStep c s) (hplanned : Planned c record)
    (h : Acceptable s.modules record) : ∃ value, decoded s record = .ok value := by
  cases record with
  | module module =>
    obtain ⟨found, hfound⟩ := h
    exact ⟨.module found, map_ok.mpr ⟨found, hfound, rfl⟩⟩
  | frame id tag address =>
    obtain ⟨frame, hframe⟩ := h
    have hid : id.toNat = s.frames.length := by
      rw [hplanned.1]
      exact hin.synced.nextFrame
    exact ⟨.frame frame, map_ok.mpr ⟨frame, frameDecoded_ok.mpr ⟨hid, hframe⟩, rfl⟩⟩
  | stack id parent frameId =>
    obtain ⟨⟨hid, _, _⟩, hparent, cache, key, hframe⟩ := hplanned
    have hparent' : parent = NONE_U32 ∨ (parent ≠ NONE_U32 ∧
        parent.toNat < s.stackNodes.length) := by
      rcases hparent with hroot | hknown
      · exact .inl hroot
      · obtain ⟨key, hkey⟩ := hknown
        obtain ⟨node, hnode, _⟩ := hin.synced.nodes key parent hkey
        exact .inr ⟨hin.sane parent ⟨key, hkey⟩, (List.getElem?_eq_some_iff.mp hnode).1⟩
    obtain ⟨node, hnode⟩ := stackDecoded_of_known (hid.trans hin.synced.stackCount) hparent'
      (Epochs.InEpoch.known hin.synced cache hframe)
    exact ⟨.stack node, map_ok.mpr ⟨node, hnode, rfl⟩⟩
  | thread id processId threadId =>
    obtain ⟨hpid, tid, htid⟩ := h
    refine ⟨.thread ⟨⟨processId, hpid⟩, tid⟩, map_ok.mpr ⟨_, ?_, rfl⟩⟩
    exact threadDecoded_ok.mpr ⟨hplanned.1.trans hin.synced.threadCount, rfl, htid⟩
  | sample delta threadId stackId =>
    obtain ⟨⟨threadKey, hthread⟩, ⟨stackKey, hstack⟩, htimestamp⟩ := hplanned
    obtain ⟨timestampNs, htimestamp⟩ := Option.isSome_iff_exists.mp htimestamp
    obtain ⟨thread, hget, _⟩ := hin.synced.threads _ _ hthread
    obtain ⟨node, hnode, _⟩ := hin.synced.nodes _ _ hstack
    rw [hin.synced.timestamp] at htimestamp
    refine ⟨.sample ⟨timestampNs, thread.processId, thread.threadId, stackId⟩,
      map_ok.mpr ⟨_, sampleDecoded_ok.mpr ⟨htimestamp, hget, rfl, ?_⟩, rfl⟩⟩
    exact (List.getElem?_eq_some_iff.mp hnode).1
  | pythonRuntime timestampNs processId isPythonRuntime =>
    obtain ⟨pid, hpid⟩ := exists_pid h
    exact ⟨.pythonRuntime ⟨timestampNs, pid, isPythonRuntime⟩,
      map_ok.mpr ⟨_, bind_ok.mpr ⟨pid, hpid, rfl⟩, rfl⟩⟩
  | moduleDeactivation processId =>
    obtain ⟨pid, hpid⟩ := exists_pid h
    exact ⟨.deactivateProcess pid, map_ok.mpr ⟨pid, hpid, rfl⟩⟩
  | moduleDeactivationOne moduleId =>
    refine ⟨.deactivateModule moduleId.toNat, map_ok.mpr ⟨moduleId.toNat, ?_, rfl⟩⟩
    exact boundedIndex_ok.mpr ⟨by rw [UInt32.toNat_toUInt64], h⟩

theorem step_of_acceptable (hin : InStep c s) (hplanned : Planned c record)
    (h : Acceptable s.modules record) : ∃ value t, step s record = .ok (value, t) := by
  obtain ⟨value, hvalue⟩ := decoded_of_acceptable hin hplanned h
  have hlen := hin.synced.nodes_lt
  obtain ⟨t, ht, _⟩ := hin.wellFormed.commit (by omega) (decoded_accepts hvalue)
  exact ⟨value, t, step_ok.mpr ⟨hvalue, ht⟩⟩

/-- Records that define no module are accepted one after another. -/
theorem reads_of_acceptable (hin : InStep c s) {records : List SpoolRecord}
    (hplanned : PlannedAll c records)
    (h : ∀ record ∈ records, Acceptable s.modules record ∧ definedModule record = none) :
    ∃ values t, Reads s records values t := by
  induction records generalizing c s with
  | nil => exact ⟨[], s, .nil s⟩
  | cons record records ih =>
    obtain ⟨hfirst, hmodule⟩ := h record (.head _)
    obtain ⟨value, u, hstep⟩ := step_of_acceptable hin hplanned.1 hfirst
    have hmodules := modules_of_step hstep
    rw [hmodule] at hmodules
    obtain ⟨values, t, hreads⟩ := ih (hin.absorb hplanned.1 hstep) hplanned.2 (by
      rw [hmodules]
      simpa using fun r hr => h r (List.mem_cons_of_mem record hr))
    exact ⟨value :: values, t, .cons hstep hreads⟩

end

/-- The reader can place whatever the frame becomes on the wire. -/
def Placeable (modules : List ModuleRecord) (frame : FrameRecord) : Prop :=
  ∀ key, compactFrame frame = .ok key → ∃ found, frameFromWire modules key.1 key.2 = .ok found

theorem ValidFrame.placeable (h : ValidFrame modules frame) : Placeable modules frame := by
  intro key hkey
  obtain ⟨key', hkey', hwire⟩ := h.wire
  rw [hkey'] at hkey
  cases hkey
  exact ⟨frame, hwire⟩

/-- The records of a sample: they define no module and can be decoded. -/
def Clean (modules : List ModuleRecord) (record : SpoolRecord) : Prop :=
  Acceptable modules record ∧ definedModule record = none

/-- The records of a sample, apart from its thread. -/
def CleanBut (modules : List ModuleRecord) (processId : Int32) (threadId : UInt64)
    (record : SpoolRecord) : Prop :=
  Clean modules record ∨ ∃ id, record = .thread id processId threadId

theorem CleanBut.clean {processId : Int32} (h : CleanBut modules processId threadId record)
    (hpid : 0 < processId) (htid : ∃ tid, tidTryFrom threadId = .ok tid) :
    Clean modules record := by
  rcases h with hclean | ⟨id, rfl⟩
  · exact hclean
  · exact ⟨⟨hpid, htid⟩, rfl⟩

theorem planSample_clean {frames : List FrameRecord}
    (hframes : ∀ frame ∈ frames, Placeable modules frame) (timestampNs : UInt64)
    (processId : Int32) (threadId : UInt64) :
    (planSample timestampNs processId threadId frames).Emits
      (CleanBut modules processId threadId) :=
  planSample_emits (fun frame hframe key _ hkey => .inl ⟨hframes frame hframe key hkey, rfl⟩)
    (fun _ _ _ => .inl ⟨trivial, rfl⟩) (fun id => .inr ⟨id, rfl⟩)
    fun _ _ _ => .inl ⟨trivial, rfl⟩

/-- What a call has to respect for the reader to go on, given the modules written before it: a frame
that the writer refuses does not matter. -/
def ReadableOp (modules : List ModuleRecord) : Op → Prop
  | .writeSampleFrames _ processId threadId frames =>
      (0 < processId ∧ 0 < threadId.toNat ∧ threadId.toNat < 2 ^ 31) ∧
        ∀ frame ∈ frames, Placeable modules frame
  | op => ValidOp modules op

def ReadableOps : List ModuleRecord → List Op → Prop
  | _, [] => True
  | modules, op :: ops =>
      ReadableOp modules op ∧ ReadableOps (modules ++ (writtenModule op).toList) ops

theorem ValidOp.readable {op : Op} (h : ValidOp modules op) : ReadableOp modules op := by
  cases op with
  | writeSampleFrames timestampNs processId threadId frames =>
    exact ⟨h.1, fun frame hframe => (h.2 frame hframe).placeable⟩
  | _ => exact h

theorem ValidOps.readable {ops : List Op} (h : ValidOps modules ops) : ReadableOps modules ops := by
  induction ops generalizing modules with
  | nil => trivial
  | cons op ops ih => exact ⟨h.1.readable, ih h.2⟩

/-- The reader goes through the records of a readable call. -/
theorem reads_of_readable {c : Caches} (hin : InStep c s) {op : Op} (h : ReadableOp s.modules op) :
    ∃ values t, Reads s (op.plan c).1 values t := by
  have hsingle : ∀ record, Planned c record → Acceptable s.modules record →
      ∃ values t, Reads s [record] values t := by
    intro record hplanned haccept
    obtain ⟨value, t, hstep⟩ := step_of_acceptable hin hplanned haccept
    exact ⟨[value], t, .cons hstep (.nil t)⟩
  cases op with
  | writeSampleFrames timestampNs processId threadId frames =>
    obtain ⟨⟨hpid, htid, hlt⟩, hframes⟩ := h
    refine reads_of_acceptable hin
      (planSample_cases timestampNs processId threadId frames hin.sane).1 ?_
    have hclean := (planSample_clean hframes timestampNs processId threadId).records c
    exact fun record hmem => (hclean record hmem).clean hpid (exists_tid htid hlt)
  | flush => exact ⟨[], s, .nil s⟩
  | writeModule module => exact hsingle _ trivial (ValidModule.decoded h)
  | writePythonRuntime timestampNs processId isPythonRuntime => exact hsingle _ trivial h
  | writeModuleDeactivation processId => exact hsingle _ trivial h
  | writeModuleDeactivationOne moduleId => exact hsingle _ trivial h

/-- The reader goes through the records of a readable session. -/
theorem planOps_reads_readable (ops : List Op) {c : Caches} (hin : InStep c s)
    (h : ReadableOps s.modules ops) : ∃ values t, Reads s (planOps ops c).1 values t := by
  induction ops generalizing c s with
  | nil => exact ⟨[], s, .nil s⟩
  | cons op ops ih =>
    obtain ⟨first, u, hfirst⟩ := reads_of_readable hin h.1
    have hmodules := (plan_followed op hin hfirst).modules
    have hrest := h.2
    rw [← hmodules] at hrest
    obtain ⟨rest, t, hreads⟩ := ih (hin.absorbAll (plan_planned op hin.sane) hfirst) hrest
    rw [planOps_cons]
    exact ⟨first ++ rest, t, hfirst.append hreads⟩

end StackPulse.Acceptance
