import SimplrOS.InodeTable
import SimplrOS.RoundTrip
import SimplrOS.FreeCounters
import SimplrOS.ReadFault
import SimplrOS.BumpArena
import SimplrOS.Heap
import SimplrOS.Loader
import SimplrOS.Ahci
import SimplrOS.AhciProtocol
import SimplrOS.KernelOverlap
import SimplrOS.Font
import SimplrOS.Screen
import SimplrOS.Shell
import SimplrOS.DrawSafety
import SimplrOS.EntryName
import SimplrOS.Placement
import SimplrOS.SizeLimit
import SimplrOS.Atomicity
import SimplrOS.Lookup
import SimplrOS.CatFile
import SimplrOS.Words
import SimplrOS.CommandLine
import SimplrOS.LineEditor
import SimplrOS.AhciOutcome
import SimplrOS.LoaderBounds
import SimplrOS.AhciEncoding
import SimplrOS.DirSearch
import SimplrOS.ResolvePath
import SimplrOS.RootNames
import SimplrOS.DirListing
import SimplrOS.FileRead
import SimplrOS.Pci
import SimplrOS.ShiftKeys
import SimplrOS.Echo
import SimplrOS.CommandHeader
import SimplrOS.ContiguousImage
import SimplrOS.StoredFiles
import SimplrOS.FileShell
import SimplrOS.Typing
import SimplrOS.SessionMemory
import SimplrOS.TextGrid
import SimplrOS.Conversation
import SimplrOS.DiskTransfer
import SimplrOS.Interaction
import SimplrOS.PortRebase
import SimplrOS.BootProtocol
import SimplrOS.FirstFault
import SimplrOS.Terminal
import SimplrOS.DriveRuns
