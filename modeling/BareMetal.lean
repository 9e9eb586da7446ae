import BareMetal.Framework.Machine
import BareMetal.Framework.FirstFit
import BareMetal.Pmm.Sweep
import BareMetal.Pmm.Accounting
import BareMetal.Pmm.Completeness
import BareMetal.Io.JumpRows
import BareMetal.Io.CursorSteps
import BareMetal.Framework.Zipper
import BareMetal.Terminal.LineEditor
import BareMetal.Terminal.Insertion
import BareMetal.Terminal.Mirror
import BareMetal.Framework.Numeral
import BareMetal.Framework.IntTypes
import BareMetal.Terminal.Numbers
import BareMetal.Terminal.Printing
import BareMetal.Terminal.Decimal
import BareMetal.Terminal.Hexadecimal
import BareMetal.Drivers.Decoding
import BareMetal.Pmm.Laws
import BareMetal.Pmm.Exhaustion
import BareMetal.Pmm.MemoryMap
import BareMetal.Drivers.Queue
import BareMetal.Drivers.Modifiers
import BareMetal.Framework.CallGraph
import BareMetal.Framework.DepthFirst
import BareMetal.Framework.HeaviestPath
import BareMetal.DiagnosticTools.StackCalculator
import BareMetal.DiagnosticTools.InterruptStack
import BareMetal.DiagnosticTools.Nodes
import BareMetal.DiagnosticTools.CycleCheck
import BareMetal.DiagnosticTools.Relaxation
import BareMetal.DiagnosticTools.CallGraphLines
import BareMetal.DiagnosticTools.CallGraphFiles
import BareMetal.DiagnosticTools.FileOrder
import BareMetal.Framework.WordStack
import BareMetal.Interrupts.Entry
import BareMetal.Interrupts.EntrySpec
import BareMetal.Interrupts.Nesting
import BareMetal.Kernel.Timer
import BareMetal.Tools.Stopwatch
import BareMetal.Apps.Shell
import BareMetal.Framework.Masked
import BareMetal.Drivers.Guard
import BareMetal.Apps.Repl
import BareMetal.Apps.ReplSafety
import BareMetal.Apps.ReplProgress
import BareMetal.Framework.Pic8259
import BareMetal.Kernel.Pic
import BareMetal.Kernel.Logger
import BareMetal.Kernel.Exceptions
import BareMetal.Kernel.Delivery
import BareMetal.Kernel.Vectors
import BareMetal.Kernel.CrashDump
import BareMetal.Boot.MemoryDetection
import BareMetal.Interrupts.StackRoom
import BareMetal.Pmm.Clients
import BareMetal.Kernel.Sleep
import BareMetal.Framework.Pit8254
import BareMetal.Kernel.Pit
import BareMetal.DiagnosticTools.CallGraphText
import BareMetal.DiagnosticTools.Report
import BareMetal.Framework.Polling
import BareMetal.Framework.Ps2
import BareMetal.Drivers.Initialize
