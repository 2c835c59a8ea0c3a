import Ukern.Boot.Loader
import Ukern.Device.Console
import Ukern.Device.Disk
import Ukern.Device.Guid
import Ukern.Device.Keyboard
import Ukern.Device.Partition
import Ukern.Device.Pcie
import Ukern.Device.Redraw
import Ukern.Exfat.Bounds
import Ukern.Exfat.Chain
import Ukern.Exfat.Dots
import Ukern.Exfat.Entries
import Ukern.Exfat.File
import Ukern.Exfat.Listing
import Ukern.Exfat.Lookup
import Ukern.Exfat.Open
import Ukern.Exfat.Path
import Ukern.Kernel.Access
import Ukern.Kernel.Boot
import Ukern.Kernel.Console
import Ukern.Kernel.Disk
import Ukern.Kernel.Exec
import Ukern.Kernel.Exfat
import Ukern.Kernel.Fs
import Ukern.Kernel.MemMap
import Ukern.Kernel.Memory
import Ukern.Kernel.PageInfo
import Ukern.Kernel.Partition
import Ukern.Kernel.Pcie
import Ukern.Kernel.Pipe
import Ukern.Kernel.Proc
import Ukern.Kernel.State
import Ukern.Kernel.Syscall
import Ukern.Kernel.Trap
import Ukern.Lib.Alias
import Ukern.Lib.Chain
import Ukern.Lib.Eager
import Ukern.Lib.Emit
import Ukern.Lib.Fold
import Ukern.Lib.Forest
import Ukern.Lib.Grid
import Ukern.Lib.Numeral
import Ukern.Lib.Post
import Ukern.Lib.Radix
import Ukern.Lib.Ring
import Ukern.Lib.Scan
import Ukern.Lib.Simulation
import Ukern.Memory.Account
import Ukern.Memory.Buffer
import Ukern.Memory.Check
import Ukern.Memory.Clear
import Ukern.Memory.Copy
import Ukern.Memory.Cow
import Ukern.Memory.DirectMap
import Ukern.Memory.Drain
import Ukern.Memory.Exact
import Ukern.Memory.Fault
import Ukern.Memory.Fork
import Ukern.Memory.Frame
import Ukern.Memory.Free
import Ukern.Memory.FreeList
import Ukern.Memory.Image
import Ukern.Memory.Invariant
import Ukern.Memory.KernelTable
import Ukern.Memory.Load
import Ukern.Memory.Map
import Ukern.Memory.MemMap
import Ukern.Memory.Patch
import Ukern.Memory.Room
import Ukern.Memory.Segments
import Ukern.Memory.Space
import Ukern.Memory.Undo
import Ukern.Memory.Walk
import Ukern.Memory.WalkMap
import Ukern.Memory.Word
import Ukern.Pipe.Copy
import Ukern.Pipe.Counts
import Ukern.Pipe.Create
import Ukern.Pipe.State
import Ukern.Pipe.Wakeup
import Ukern.Process.Calls
import Ukern.Process.Descriptors
import Ukern.Process.Exec
import Ukern.Process.Exit
import Ukern.Process.Family
import Ukern.Process.Fate
import Ukern.Process.Forest
import Ukern.Process.Fork
import Ukern.Process.Frame
import Ukern.Process.Inv
import Ukern.Process.Kill
import Ukern.Process.Pipes
import Ukern.Process.Registry
import Ukern.Process.Step
import Ukern.Process.Tables
import Ukern.Process.Transfer
import Ukern.Process.Traps
import Ukern.Process.Zombies
import Ukern.Run.Apart
import Ukern.Run.Args
import Ukern.Run.Atomic
import Ukern.Run.Boot
import Ukern.Run.Close
import Ukern.Run.Coherent
import Ukern.Run.Effect
import Ukern.Run.ExecReads
import Ukern.Run.Forest
import Ukern.Run.Household
import Ukern.Run.Isolation
import Ukern.Run.Machine
import Ukern.Run.Memories
import Ukern.Run.Registers
import Ukern.Run.Reports
import Ukern.Run.Running
import Ukern.Run.Sbrk
import Ukern.Run.Session
import Ukern.Run.Status
import Ukern.Run.Turns
import Ukern.Run.Waitless
import Ukern.User.Fraction
import Ukern.User.LineEditor
import Ukern.User.Numeral
import Ukern.User.Printfmt
import Ukern.User.Sh
import Ukern.User.Stdout
import Ukern.User.String
import Ukern.User.Tokens
