import EszOs.Config
import EszOs.Lib.Bytes
import EszOs.Lib.Blocks
import EszOs.Lib.Ledger
import EszOs.Lib.Radix
import EszOs.Lib.Runs
import EszOs.Lib.Transcript
import EszOs.Lib.Views
import EszOs.Lib.LineEditor
import EszOs.Lib.Faults
import EszOs.Lib.Ownership
import EszOs.Math.Rounding
import EszOs.Memory.HeapRuns
import EszOs.Memory.PmmBitmap
import EszOs.Memory.Boot
import EszOs.Memory.Move
import EszOs.Memory.PmmCounts
import EszOs.Memory.HeapBlocks
import EszOs.Memory.MemoryInfo
import EszOs.Memory.PercentBar
import EszOs.Memory.VmmRoundTrip
import EszOs.Memory.WalkServes
import EszOs.Io.AhciBuffers
import EszOs.Io.AhciCommands
import EszOs.Io.Timer
import EszOs.Io.Keyboard
import EszOs.Io.Pci
import EszOs.Io.Idt
import EszOs.Io.AhciPorts
import EszOs.Io.AhciIdentify
import EszOs.Io.AhciController
import EszOs.Io.AhciDisk
import EszOs.Types.Replace
import EszOs.Types.Splits
import EszOs.Types.Numerals
import EszOs.Types.Trims
import EszOs.Types.StringOwnership
import EszOs.Rendering.Transcript
import EszOs.Storage.DirectoryChain
import EszOs.Storage.FileRead
import EszOs.Storage.Geometry
import EszOs.Storage.Layout
import EszOs.Storage.CommandBlocks
import EszOs.Storage.FaultyReads
import EszOs.Storage.NullReads
import EszOs.Storage.NullRequests
import EszOs.Storage.Devices
import EszOs.Terminal.Bounds
import EszOs.Terminal.History
import EszOs.Terminal.PlainText
import EszOs.Terminal.Refinement
import EszOs.Terminal.Completion
import EszOs.Rendering.Framebuffer
import EszOs.Terminal.Display
import EszOs.Terminal.SessionRuns
