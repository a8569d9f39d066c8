import Cibyl.CRunTime
import Cibyl.Library.ByteLanes
import Cibyl.Emit
import Cibyl.FlatMemory
import Cibyl.Instruction
import Cibyl.Program
import Cibyl.Jvm
import Cibyl.Architecture
import Cibyl.Instructions
import Cibyl.Decode
import Cibyl.EmitExec
import Cibyl.AluArith
import Cibyl.Alu
import Cibyl.AluCorrect
import Cibyl.Builtin
import Cibyl.Pass1
import Cibyl.Pass2
import Cibyl.ArgumentPassing
import Cibyl.Library.LabelledCode
import Cibyl.Machine
import Cibyl.MemoryCode
import Cibyl.Usage
import Cibyl.Subroutine
import Cibyl.MemoryCorrect
import Cibyl.CodeShape
import Cibyl.Faults
import Cibyl.Layout
import Cibyl.StackFrame
import Cibyl.Coverage
import Cibyl.DataImage
import Cibyl.DelaySlot
import Cibyl.Handlers
import Cibyl.Library.WordFile
import Cibyl.ObjectRepository
import Cibyl.RegisterUse
import Cibyl.SyscallDatabase
import Cibyl.SyscallRoundTrip
import Cibyl.UsageSound
import Cibyl.CallTable
import Cibyl.CallTableComplete
import Cibyl.LabelAddresses
import Cibyl.LabelCount
import Cibyl.LabelsOnce
import Cibyl.Activations
import Cibyl.Blocks
import Cibyl.CatchTable
import Cibyl.Longjmp
import Cibyl.FileOps
import Cibyl.Library.CArray
import Cibyl.LongBuiltins
import Cibyl.MemoryFile
import Cibyl.S9
import Cibyl.S9Dictionary
import Cibyl.StreamFile
import Cibyl.StackBalance
import Cibyl.JalArguments
import Cibyl.UnusedLabel
import Cibyl.ByteCopy
import Cibyl.Pruning
import Cibyl.Library.ByteString
import Cibyl.Library.FirstDifference
import Cibyl.StringCompare
import Cibyl.StringCopy
import Cibyl.RecordStore
import Cibyl.IndirectClose
import Cibyl.IndirectFile
import Cibyl.UnalignedPair
import Cibyl.CallTargets
import Cibyl.ComputedJumps
import Cibyl.Library.ByteBlocks
import Cibyl.LibcString
import Cibyl.S9Keys
import Cibyl.FopsTable
import Cibyl.AtExit
import Cibyl.Fgets
import Cibyl.Library.Worklist
import Cibyl.SyscallSets
import Cibyl.Strtoll
import Cibyl.Cibar
import Cibyl.Scanf
import Cibyl.JavaClass
import Cibyl.CallTableRanges
import Cibyl.CallTableDispatch
import Cibyl.TemplateScan
import Cibyl.RegisterLinks
import Cibyl.LeafCall
import Cibyl.SmallocSafety
import Cibyl.Optimizer
import Cibyl.Time
import Cibyl.VsnprintfNumbers
import Cibyl.PrintedText
import Cibyl.StringTokens
import Cibyl.DefiniteAssignment
import Cibyl.Colocation
import Cibyl.GotoNextLine
import Cibyl.OptimizedMethod
