import CronoVM.Lib.Checked
import CronoVM.Isa
import CronoVM.Image
import CronoVM.Machine
import CronoVM.Interp.Switch
import CronoVM.Interp.Threaded
import CronoVM.Interp.Run
import CronoVM.Lemmas.Bounds
import CronoVM.Format
import CronoVM.Loader
import CronoVM.Theorems.Builds
import CronoVM.Lemmas.SectionTable
import CronoVM.Lemmas.LoadPlan
import CronoVM.Lemmas.LoadImage
import CronoVM.Theorems.Load
import CronoVM.Theorems.Safety
import CronoVM.Translator.Writer
import CronoVM.Lemmas.Written
import CronoVM.Lemmas.Accepted
import CronoVM.Theorems.Roundtrip
import CronoVM.Lemmas.StraightCode
import CronoVM.Lib.ParallelCopy
import CronoVM.Translator.Emit
import CronoVM.Translator.PhiMoves
import CronoVM.Lemmas.Emission
import CronoVM.Lemmas.Operands
import CronoVM.Lemmas.PhiCopy
import CronoVM.Lemmas.PhiSequence
import CronoVM.Lemmas.PhiOrder
import CronoVM.Lemmas.PhiEdge
import CronoVM.Theorems.PhiMoves
import CronoVM.Lemmas.Relaxation
import CronoVM.Lemmas.Relocation
import CronoVM.Lemmas.Jumps
import CronoVM.Theorems.Relaxation
import CronoVM.Lemmas.Alu
import CronoVM.Translator.Switch
import CronoVM.Lemmas.Advance
import CronoVM.Lemmas.Positions
import CronoVM.Lemmas.SwitchChain
import CronoVM.Theorems.Switch
import CronoVM.Theorems.SwitchEdges
import CronoVM.Lemmas.SwitchEdges
import CronoVM.Translator.Scalar
import CronoVM.Theorems.NarrowArithmetic
import CronoVM.Lemmas.Results
import CronoVM.Lib.TwoWord
import CronoVM.Lemmas.Blocks
import CronoVM.Translator.WideDef
import CronoVM.Lemmas.WideWords
import CronoVM.Lemmas.Wide64
import CronoVM.Lemmas.Structured
import CronoVM.Lib.Precision
import CronoVM.Runtime.Float64
import CronoVM.Lemmas.Float64
import CronoVM.Lemmas.Float64Mul
import CronoVM.Lemmas.Float64Div
import CronoVM.Theorems.Float64
import CronoVM.Lemmas.Float64Add
import CronoVM.Lemmas.Float64Sum
import CronoVM.Lib.Links
import CronoVM.Lib.Tiling
import CronoVM.Runtime.Alloc
import CronoVM.Lemmas.Alloc
import CronoVM.Lemmas.Heap
import CronoVM.Lemmas.HeapCalls
import CronoVM.Theorems.Alloc
import CronoVM.Lemmas.CoroSwap
import CronoVM.Theorems.CoroSwap
import CronoVM.Runtime.Exceptions
import CronoVM.Theorems.Exceptions
import CronoVM.Theorems.CatchByBase
import CronoVM.Theorems.CoroExceptions
import CronoVM.Lemmas.Footprint
import CronoVM.Theorems.Setjmp
import CronoVM.Lemmas.Calls
import CronoVM.Theorems.FunctionPointers
import CronoVM.Theorems.StackOverflow
import CronoVM.Lib.LongDivision
import CronoVM.Runtime.Int64
import CronoVM.Lemmas.Int64
import CronoVM.Theorems.Int64Division
import CronoVM.Theorems.Int64Shifts
import CronoVM.Runtime.Float64Compare
import CronoVM.Lemmas.Float64Order
import CronoVM.Translator.RuntimeCall
import CronoVM.Lemmas.RuntimeCall
import CronoVM.Theorems.FloatCompare
import CronoVM.Translator.Intrinsics
import CronoVM.Lemmas.Intrinsics
import CronoVM.Theorems.NarrowIntrinsics
import CronoVM.Lemmas.Overflow
import CronoVM.Theorems.Overflow
import CronoVM.Runtime.Float64Convert
import CronoVM.Lemmas.Float64Flush
import CronoVM.Lemmas.Float64Range
import CronoVM.Theorems.FloatFlush
import CronoVM.Lib.Regions
import CronoVM.Translator.Globals
import CronoVM.Lemmas.GlobalImage
import CronoVM.Lemmas.GlobalLayout
import CronoVM.Theorems.Globals
import CronoVM.Lifecycle
import CronoVM.Theorems.RegionLookup
import CronoVM.Lemmas.Scripts
import CronoVM.Translator.BitIntrinsics
import CronoVM.Lemmas.FreshRegister
import CronoVM.Lemmas.Funnel
import CronoVM.Lib.BitCount
import CronoVM.Theorems.FunnelShifts
import CronoVM.Lemmas.BitIntrinsics
import CronoVM.Lemmas.BitReversal
import CronoVM.Lemmas.LeadingZeros64
import CronoVM.Theorems.BitIntrinsics
import CronoVM.Translator.Vectors
import CronoVM.Lemmas.Vectors
import CronoVM.Theorems.VectorConstants
import CronoVM.Lemmas.FloatConvert
import CronoVM.Theorems.FloatConvert
import CronoVM.Lemmas.Float32
import CronoVM.Lemmas.Float64Int
import CronoVM.Theorems.FloatConversions
import CronoVM.Lemmas.LoadLedger
import CronoVM.Theorems.LoadFree
import CronoVM.Runtime.OnceInit
import CronoVM.Theorems.OnceInit
import CronoVM.Lib.Newton
import CronoVM.Lemmas.Float64Sqrt
import CronoVM.Theorems.Peek
import CronoVM.Theorems.AllocSizes
import CronoVM.Lib.Lfsr
import CronoVM.Theorems.Seal
import CronoVM.Interp.Profile
import CronoVM.Theorems.Profile
import CronoVM.Theorems.HandlerSelection
import CronoVM.Translator.PreAlloc
import CronoVM.Lemmas.PreAlloc
import CronoVM.Theorems.FrameSlots
import CronoVM.Translator.Gep
import CronoVM.Lemmas.Gep
import CronoVM.Theorems.Gep
import CronoVM.Lib.LinearProbing
import CronoVM.Interp.RedZone
import CronoVM.Lemmas.RedZone
import CronoVM.Theorems.RedZone
import CronoVM.Translator.Ctors
import CronoVM.Lemmas.Ctors
import CronoVM.Theorems.Ctors
import CronoVM.Disassembler
import CronoVM.Lemmas.Decoding
import CronoVM.Theorems.Disassembler
import CronoVM.Translator.ValueIndex
import CronoVM.Lemmas.ValueIndex
import CronoVM.Theorems.ValueIndex
import CronoVM.Lemmas.WideCompare
import CronoVM.Lemmas.WideInsts
import CronoVM.Theorems.WideLowering
import CronoVM.Lib.CIntegers
import CronoVM.Lib.Draws
import CronoVM.Fuzz.Language
import CronoVM.Fuzz.Emit
import CronoVM.Lemmas.FuzzTyping
import CronoVM.Lemmas.FuzzStatements
import CronoVM.Lemmas.FuzzRuns
import CronoVM.Theorems.Fuzz
import CronoVM.Lib.DataFlow
import CronoVM.Translator.Liveness
import CronoVM.Translator.ControlFlow
import CronoVM.Lemmas.ControlFlow
import CronoVM.Lemmas.Registers
import CronoVM.Theorems.Registers
import CronoVM.Lemmas.Liveness
import CronoVM.Lemmas.LivePaths
import CronoVM.Theorems.Liveness
import CronoVM.Theorems.CallerSaves
import CronoVM.Lib.Effects
import CronoVM.Translator.Function
import CronoVM.IrRun
import CronoVM.Lemmas.Homes
import CronoVM.Lemmas.FunctionCode
import CronoVM.Lemmas.WordValues
import CronoVM.Lemmas.WordSteps
import CronoVM.Lemmas.WordEntry
import CronoVM.Theorems.Translation
