import Loquela.Vm.Conformance
import Loquela.Vm.ZeroRegister
import Loquela.Vm.Log
import Loquela.Vm.FetchSafety
import Loquela.Vm.Runs
import Loquela.Vm.Refinement
import Loquela.Vm.Assembler
import Loquela.Soundness.Chain
import Loquela.Soundness.Memory
import Loquela.Soundness.Ordering
import Loquela.Soundness.Fetch
import Loquela.Soundness.Binding
import Loquela.Soundness.ProgramHash
import Loquela.Soundness.Absorption
import Loquela.Soundness.Immediate
import Loquela.Soundness.LogicalShift
import Loquela.Soundness.Arithmetic
import Loquela.Soundness.Bitwise
import Loquela.Soundness.RomAddress
import Loquela.Soundness.NextPc
import Loquela.Soundness.Execution
import Loquela.Soundness.Residual
import Loquela.Soundness.Collision
import Loquela.Soundness.EndToEnd
import Loquela.Soundness.Mutation
import Loquela.Soundness.MutatedTables
import Loquela.Soundness.SupportTables
import Loquela.Soundness.LookupTables
import Loquela.Soundness.HashTable
import Loquela.Completeness.Multiplicities
import Loquela.Completeness.Agreement
import Loquela.Completeness.AddressComparison
import Loquela.Completeness.Fetch
import Loquela.Completeness.MemoryTrace
import Loquela.Completeness.HonestRows
import Loquela.Completeness.Pipeline
import Loquela.Completeness.Alignment
import Loquela.Completeness.RowBuses
import Loquela.Completeness.Prover
import Loquela.Completeness.Heights
import Loquela.Completeness.Preprocessed
import Loquela.Soundness.Honest
