import Infos.Arch.Acpi
import Infos.Arch.ContextRuns
import Infos.Arch.DescriptorTables
import Infos.Arch.FastString
import Infos.Drivers.Ata
import Infos.Drivers.CmosDecode
import Infos.Drivers.ConsoleChunks
import Infos.Drivers.InterruptRoutes
import Infos.Drivers.KeyboardRuns
import Infos.Drivers.VgaConsole
import Infos.Fs.ElfImage
import Infos.Fs.NameTables
import Infos.Fs.OctalSizes
import Infos.Fs.Partition
import Infos.Fs.ReadFailures
import Infos.Fs.TokenBuffers
import Infos.Kernel.Accounting
import Infos.Kernel.FairScheduler
import Infos.Kernel.Log
import Infos.Kernel.RoundRobin
import Infos.Kernel.SpinDelay
import Infos.Kernel.TerminateRuns
import Infos.Kernel.ThreadStacks
import Infos.Kernel.TimeOfDay
import Infos.Kernel.WaitLoops
import Infos.Mm.BuddyRejects
import Infos.Mm.BuddySplitMerge
import Infos.Mm.MemoryProtection
import Infos.Mm.SimplePageAllocator
import Infos.Mm.VmaDump
import Infos.User.Cat
import Infos.User.Ls
import Infos.User.Shell
import Infos.User.TicTacToe
import Infos.Util.PrintfTruncation
import Infos.Util.StringHash
