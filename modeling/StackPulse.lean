import StackPulse.ReplayEquivalence
import StackPulse.FailStop
import StackPulse.PerfMapReload
import StackPulse.KallsymsLookup
import StackPulse.RetirementRuns
import StackPulse.LivePublication
import StackPulse.JitAtomicity
import StackPulse.OwnerIndex
import StackPulse.ProcessSets
import StackPulse.AdmittedSamples
import StackPulse.ModuleInvariant
import StackPulse.ModuleExhaustion
import StackPulse.RecorderAgreement
import StackPulse.JitTraversal
import StackPulse.RingSamples
import StackPulse.ImageBases
import StackPulse.ForkBatches
import StackPulse.Reconciliation
import StackPulse.StringInterning
import StackPulse.StopOwnership
import StackPulse.Descendants
import StackPulse.CoreSymbols
import StackPulse.StackCache
