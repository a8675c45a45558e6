import SymReloc.Sym.Overflow
import SymReloc.Wire.RoundTrip
import SymReloc.Runtime.TypedValue
import SymReloc.Wire.DecodeTyped
import SymReloc.Wire.ValidateTyped
import SymReloc.Wire.Canonical
import SymReloc.Runtime.Eval
import SymReloc.Runtime.Bind
import SymReloc.Runtime.Descriptors
import SymReloc.Runtime.PadFills
import SymReloc.Runtime.WholeView
import SymReloc.Runtime.BindTyped
import SymReloc.Runtime.TrustBoundary
import SymReloc.Runtime.TransferSafety
import SymReloc.Reloc.Meaning
import SymReloc.Runtime.TypedChunks
import SymReloc.Cache.Clear
import SymReloc.Dispatch.Lifecycle
import SymReloc.Dispatch.StreamedUpload
import SymReloc.Dispatch.SelectedRows
import SymReloc.Dispatch.SummedBags
import SymReloc.Dispatch.ScratchAccounting
import SymReloc.Dispatch.PoolInvariant
import SymReloc.Runtime.GatherBarrier
import SymReloc.Frontend.ExecuteOnce
import SymReloc.Frontend.QueueRuns
import SymReloc.Reloc.FoldSettles
import SymReloc.Runtime.Narrow
import SymReloc.Reloc.Verdicts
import SymReloc.Sym.AsmLexer
import SymReloc.Frontend.ExprAdmission
import SymReloc.Sym.ShapeInference
import SymReloc.Runtime.TypedCells
import SymReloc.Reloc.MergeOrder
import SymReloc.Dispatch.PrefoldExecution
import SymReloc.Runtime.GatherGrains
import SymReloc.Runtime.StrideTests
import SymReloc.Frontend.CompileWaits
import SymReloc.Runtime.TransposeWalk
import SymReloc.Runtime.ThreadedGather
import SymReloc.Reloc.ChannelMaps
import SymReloc.InFlight
import SymReloc.Runtime.PipelineResult
import SymReloc.Runtime.Inverse
