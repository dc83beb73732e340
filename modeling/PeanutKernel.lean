import PeanutKernel.Lib.Runs
import PeanutKernel.Lib.Query
import PeanutKernel.Lib.Overlay
import PeanutKernel.Lib.Collect
import PeanutKernel.Sched
import PeanutKernel.SchedRun
import PeanutKernel.Block
import PeanutKernel.Partition
import PeanutKernel.Fat32
import PeanutKernel.Proofs.Sched
import PeanutKernel.Proofs.SchedContext
import PeanutKernel.Proofs.SchedExec
import PeanutKernel.Proofs.Block
import PeanutKernel.Proofs.Fat32
import PeanutKernel.Proofs.Fat32Overwrite
import PeanutKernel.Proofs.Directory
import PeanutKernel.Proofs.Fat32Listing
import PeanutKernel.Proofs.Fat32LongName
import PeanutKernel.Proofs.Fat32Cuts
import PeanutKernel.Proofs.Fat32Contained
import PeanutKernel.Extfs
import PeanutKernel.Proofs.Extfs
import PeanutKernel.Proofs.ExtfsOverwrite
import PeanutKernel.Proofs.Cluster
import PeanutKernel.Exfat
import PeanutKernel.PopulateExfat
import PeanutKernel.Proofs.Exfat
import PeanutKernel.Proofs.ExfatListing
import PeanutKernel.Proofs.ExfatCuts
import PeanutKernel.Proofs.ExfatImage
import PeanutKernel.Proofs.Populate
import PeanutKernel.Proofs.PopulateExfat
import PeanutKernel.Initramfs
import PeanutKernel.Proofs.Initramfs
import PeanutKernel.Proofs.SchedTable
import PeanutKernel.Proofs.SchedFair
import PeanutKernel.Vfs
import PeanutKernel.Syscall
import PeanutKernel.Proofs.Syscall
import PeanutKernel.Proofs.SyscallMemory
import PeanutKernel.Proofs.SyscallPaths
import PeanutKernel.FileCursor
import PeanutKernel.Proofs.FileCursor
import PeanutKernel.Proofs.WriteBack
import PeanutKernel.Alloc
import PeanutKernel.Lib.Regions
import PeanutKernel.Proofs.Alloc
import PeanutKernel.Proofs.AllocRun
import PeanutKernel.Proofs.Fat32Mount
import PeanutKernel.Proofs.ExfatContained
import PeanutKernel.Proofs.ExfatOverwrite
import PeanutKernel.Proofs.ExtfsContained
import PeanutKernel.Lib.Folders
import PeanutKernel.Proofs.Fat32Lookup
import PeanutKernel.Proofs.ExfatLookup
import PeanutKernel.Proofs.Lookup
import PeanutKernel.Lib.TableTree
import PeanutKernel.Vm
import PeanutKernel.Proofs.VmTables
import PeanutKernel.Proofs.Vm
import PeanutKernel.UserStack
import PeanutKernel.Proofs.UserStack
import PeanutKernel.Lib.SplitSearch
import PeanutKernel.Lib.SplitSearch
import PeanutKernel.Proofs.ExtfsExtents
import PeanutKernel.Proofs.ExtfsIndirect
import PeanutKernel.Lib.Halting
import PeanutKernel.Lib.Fuel
import PeanutKernel.Proofs.ExtfsVisits
import PeanutKernel.ExtfsReads
import PeanutKernel.Proofs.ExtfsReads
import PeanutKernel.Proofs.Slashes
import PeanutKernel.Proofs.Fat32Errors
import PeanutKernel.Lib.Rounds
import PeanutKernel.Proofs.InitramfsScan
import PeanutKernel.Lib.Access
import PeanutKernel.ElfLoad
import PeanutKernel.Proofs.ElfInterp
import PeanutKernel.Proofs.ElfBounds
import PeanutKernel.Proofs.ElfImage
import PeanutKernel.Fat12
import PeanutKernel.Proofs.ShortNames
import PeanutKernel.Proofs.Fat12
import PeanutKernel.Net
import PeanutKernel.Proofs.Net
import PeanutKernel.E1000
import PeanutKernel.Proofs.E1000
import PeanutKernel.Lib.CycleRing
import PeanutKernel.Xhci
import PeanutKernel.Proofs.XhciEvents
import PeanutKernel.Proofs.XhciCommands
import PeanutKernel.Ide
import PeanutKernel.Proofs.Ide
import PeanutKernel.Proofs.AllocHeap
import PeanutKernel.AllocClients
import PeanutKernel.Proofs.AllocClients
import PeanutKernel.Proofs.SlabRuns
import PeanutKernel.Proofs.HeapRuns
import PeanutKernel.VmIdentity
import PeanutKernel.Proofs.VmIdentity
import PeanutKernel.Entropy
import PeanutKernel.Proofs.Entropy
import PeanutKernel.Lib.OnesComplement
import PeanutKernel.NetChecksum
import PeanutKernel.Proofs.NetChecksum
import PeanutKernel.Proofs.FatTable
import PeanutKernel.Proofs.ExtfsBytes
import PeanutKernel.Proofs.PseudoFiles
import PeanutKernel.Proofs.Ps2
import PeanutKernel.Fb
import PeanutKernel.Proofs.FbTags
import PeanutKernel.Iso9660
import PeanutKernel.Proofs.Iso9660
import PeanutKernel.Mounts
import PeanutKernel.Proofs.Mounts
import PeanutKernel.Lib.TextGrid
import PeanutKernel.Proofs.FbConsole
import PeanutKernel.Kstdio
import PeanutKernel.Lib.Decimal
import PeanutKernel.Proofs.Kstdio
import PeanutKernel.Proofs.Shebang
import PeanutKernel.ExfatReads
import PeanutKernel.Proofs.ExfatReads
import PeanutKernel.Lib.Serve
import PeanutKernel.Pci
import PeanutKernel.Proofs.Pci
import PeanutKernel.NetDrivers
import PeanutKernel.Proofs.NetDrivers
import PeanutKernel.Ahci
import PeanutKernel.Proofs.Ahci
import PeanutKernel.Proofs.AhciRuns
import PeanutKernel.Boot
import PeanutKernel.Proofs.Boot
