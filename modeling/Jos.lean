import Jos.Library.Exec
import Jos.Library.SparseSearch
import Jos.Library.Ring
import Jos.Library.Output
import Jos.Library.Numeral
import Jos.Lib.String
import Jos.Lib.Printfmt
import Jos.Lib.Directives
import Jos.Lib.FormatText
import Jos.Lib.NumberText
import Jos.Lib.FormatAppend
import Jos.Lib.Snprintf
import Jos.Lib.EscapeFormats
import Jos.Lib.StrtolSnprintf
import Jos.Lib.Verbatim
import Jos.Lib.NumberWidth
import Jos.Lib.UnsignedConversions
import Jos.Lib.StringWidth
import Jos.Lib.FixedField
import Jos.Lib.WrittenWidth
import Jos.Kern.Kdebug
import Jos.Kern.StabSearch
import Jos.Kern.KdebugReport
import Jos.Kern.KdebugLookup
import Jos.Kern.KdebugFile
import Jos.Kern.KdebugLine
import Jos.Kern.KdebugAssembly
import Jos.Kern.KdebugArgs
import Jos.Kern.ConsoleInput
import Jos.Kern.InputFifo
import Jos.Kern.InputOverrun
import Jos.Kern.CgaTerminal
import Jos.Kern.FirmwareCursor
import Jos.Kern.Keyboard
import Jos.Kern.ScanCodes
import Jos.Kern.ModifierKeys
import Jos.Kern.HeldKeys
import Jos.Kern.MouseBytes
import Jos.Kern.CommandLine
import Jos.Kern.Printf
import Jos.Kern.PrintCount
import Jos.Lib.Readline
import Jos.Lib.LineEditor
import Jos.Lib.MemmovePortable
import Jos.Lib.Memset
import Jos.Lib.Compare
import Jos.Lib.ErrorCodes
import Jos.Lib.StringCopy
import Jos.Library.Overlay
import Jos.Boot.Main
import Jos.Boot.LoadSegments
import Jos.Boot.KernelImage
import Jos.Boot.IntactSegments
import Jos.Boot.SectorLoop
import Jos.Kern.StabBounds
import Jos.Kern.KdebugSafety
import Jos.Kern.StabRange
import Jos.Kern.StabPath
import Jos.Kern.StabMiss
import Jos.Kern.StabNeighbours
import Jos.Kern.PortOutput
import Jos.Kern.CallStack
import Jos.Library.Polling
import Jos.Library.Paging
import Jos.Boot.DiskPorts
import Jos.Kern.SerialPort
import Jos.Kern.ParallelPort
import Jos.Library.Segmentation
import Jos.Inc.Mmu
import Jos.Inc.MmuSegments
import Jos.Boot.Start
import Jos.Kern.EntryPgdir
import Jos.Kern.Entry
import Jos.Boot.DiskImage
import Jos.Inc.Types
import Jos.Lib.FormatRules
import Jos.Kern.Commands
import Jos.Kern.BacktraceText
import Jos.Kern.CommandReply
import Jos.Kern.Session
import Jos.Kern.DeviceSession
import Jos.Kern.Init
import Jos.Library.Framing
import Jos.Grade.Runner
import Jos.Grade.Tests
import Jos.Grade.Assertions
