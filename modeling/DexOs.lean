import DexOs.Lib.Linked
import DexOs.Lib.Words
import DexOs.Lib.Bytes
import DexOs.Lib.Bitmap
import DexOs.Lib.Wp
import DexOs.Lib.Pieces
import DexOs.Lib.Ledger
import DexOs.ExfatVolume
import DexOs.ExfatCapacity
import DexOs.ExfatUnlink
import DexOs.ExfatContents
import DexOs.ExfatGeometry
import DexOs.ExfatConfinement
import DexOs.ExfatSpace
import DexOs.ExfatCreate
import DexOs.ExfatReadPrefix
import DexOs.ExfatWriteOutcome
import DexOs.ExfatWriteFailure
import DexOs.ExfatWriteVisible
import DexOs.PartitionDiscovery
import DexOs.BootReservations
import DexOs.PageTranslation
import DexOs.ConsoleTerminal
import DexOs.ConsoleBounds
import DexOs.InputDisplay
import DexOs.SchedulerContextRuns
import DexOs.VfsMounts
import DexOs.ShellAgreement
import DexOs.DevfsBytes
import DexOs.FrameTotals
import DexOs.FrameFirstFit
import DexOs.FrameFreeSet
import DexOs.PageIdentity
import DexOs.KernelHeapRequests
import DexOs.LineEditor
import DexOs.ConsoleViewport
import DexOs.BlockTransfers
import DexOs.RamdiskCreate
import DexOs.ShellBounds
import DexOs.ShellNormal
import DexOs.ExfatReturns
import DexOs.ShellFill
import DexOs.ExfatStandard
import DexOs.Lib.Searches
import DexOs.ExfatReaders
import DexOs.ExfatTaken
import DexOs.ExfatReclaim
import DexOs.MemoryFunctions
import DexOs.Pci
import DexOs.ConsoleDecimal
import DexOs.ConsoleProgress
import DexOs.MemoryTest
import DexOs.KeyboardDriver
import DexOs.ShellTokens
import DexOs.MultibootReads
import DexOs.DeviceCreation
import DexOs.ReadOnlyVolume
import DexOs.ExfatFill
import DexOs.ExfatStore
import DexOs.StoreSpace
import DexOs.SchedulerFairness
import DexOs.ShellStore
import DexOs.ExfatRemount
