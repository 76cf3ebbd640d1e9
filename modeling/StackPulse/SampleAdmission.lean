import StackPulse.Model
import StackPulse.Words

/-!
The counters of a recording, and the admission of a sample. A sample event is
counted before anything else is known about it; one that cannot be attributed is
counted once more, in the category that says why.
-/
namespace StackPulse.SampleAdmission

open Words

def bump (counter : UInt64) : UInt64 := saturatingAdd counter 1

/-- The counters that the admission of a sample touches. -/
structure RecordingSummary where
  sampleEvents : UInt64
  missingPidSamples : UInt64
  missingTidSamples : UInt64
  idleTidSamples : UInt64
  missingTimestampSamples : UInt64

def RecordingSummary.default : RecordingSummary := ⟨0, 0, 0, 0, 0⟩

/-- `i32::try_from`. -/
def i32FromU32 (value : UInt32) : Option Int32 :=
  if value.toNat < 2 ^ 31 then some (Int32.ofNat value.toNat) else none

structure PreparedSampleMeta where
  timestampNs : UInt64
  pid : Int32
  tid : UInt64
  deriving DecidableEq

/-- Count a sample event, and say whom the sample belongs to. -/
def prepareSampleMeta (summary : RecordingSummary) (task : Option (UInt32 × UInt32))
    (timestampNs : Option UInt64) : Option PreparedSampleMeta × RecordingSummary :=
  let summary := { summary with sampleEvents := bump summary.sampleEvents }
  match task with
  | none => (none, { summary with missingPidSamples := bump summary.missingPidSamples })
  | some (rawPid, rawTid) =>
    match i32FromU32 rawPid with
    | none => (none, { summary with missingPidSamples := bump summary.missingPidSamples })
    | some pid =>
      match i32FromU32 rawTid with
      | none => (none, { summary with missingTidSamples := bump summary.missingTidSamples })
      | some tid =>
        if tid = 0 then
          (none, { summary with idleTidSamples := bump summary.idleTidSamples })
        else
          match timestampNs with
          | none =>
            (none, { summary with missingTimestampSamples := bump summary.missingTimestampSamples })
          | some timestampNs => (some ⟨timestampNs, pid, tid.toInt64.toUInt64⟩, summary)

theorem i32FromU32_eq_some {value : UInt32} {raw : Int32} :
    i32FromU32 value = some raw ↔ value.toNat < 2 ^ 31 ∧ raw = Int32.ofNat value.toNat := by
  unfold i32FromU32
  rw [Option.ite_none_right_eq_some, Option.some_inj, eq_comm]

theorem toInt_of_i32FromU32 {value : UInt32} {raw : Int32} (h : i32FromU32 value = some raw) :
    raw.toInt = value.toNat := by
  obtain ⟨hlt, rfl⟩ := i32FromU32_eq_some.mp h
  exact Int32.toInt_ofNat_of_lt hlt

/-- What is known of an admitted sample. -/
structure Admitted (task : UInt32 × UInt32) (sample : PreparedSampleMeta) : Prop where
  pid_lt : task.1.toNat < 2 ^ 31
  pid : sample.pid.toInt = task.1.toNat
  tid_pos : 0 < task.2.toNat
  tid_lt : task.2.toNat < 2 ^ 31
  tid : sample.tid.toNat = task.2.toNat

theorem admitted_of_prepare {summary : RecordingSummary} {task : UInt32 × UInt32}
    {timestampNs : Option UInt64} {sample : PreparedSampleMeta}
    (h : (prepareSampleMeta summary (some task) timestampNs).1 = some sample) :
    Admitted task sample := by
  obtain ⟨rawPid, rawTid⟩ := task
  unfold prepareSampleMeta at h
  simp only at h
  rcases hpid : i32FromU32 rawPid with _ | pid
  · rw [hpid] at h
    cases h
  rcases htid : i32FromU32 rawTid with _ | tid
  · rw [hpid, htid] at h
    cases h
  rw [hpid, htid] at h
  simp only at h
  by_cases hidle : tid = 0
  · rw [if_pos hidle] at h
    cases h
  rw [if_neg hidle] at h
  rcases timestampNs with _ | timestamp
  · cases h
  cases h
  have hpidInt := toInt_of_i32FromU32 hpid
  have htidInt := toInt_of_i32FromU32 htid
  have hne : tid.toInt ≠ 0 := fun hzero => hidle (Int32.toInt_inj.mp hzero)
  have hlt := (i32FromU32_eq_some.mp htid).1
  have hwide : tid.toInt64.toUInt64.toNat = rawTid.toNat := by
    have hnonneg : 0 ≤ tid.toInt64 := by
      rw [Int64.le_iff_toInt_le, Int32.toInt_toInt64, htidInt]
      exact Int.natCast_nonneg _
    rw [Int64.toNat_toUInt64_of_le hnonneg, Int64.toNatClampNeg, Int32.toInt_toInt64, htidInt,
      Int.toNat_natCast]
  refine ⟨(i32FromU32_eq_some.mp hpid).1, hpidInt, ?_, hlt, hwide⟩
  show 0 < rawTid.toNat
  omega

end StackPulse.SampleAdmission
