import Xinu.Paging.VmallocSpec
import Xinu.Paging.FaultSpec
import Xinu.Paging.KillSpec
import Xinu.Paging.BootSpec
import Xinu.Lib.Threads
import Xinu.Kernel.Machine
import Xinu.Kernel.QueueSpec
import Xinu.Kernel.SchedSpec
import Xinu.Kernel.CallsSpec
import Xinu.Kernel.MachineSpec
import Xinu.Kernel.QueueRuns
import Xinu.Kernel.VmSpec
import Xinu.Kernel.VmRuns
import Xinu.Kernel.FaultRuns
import Xinu.Kernel.VmOwnership
import Xinu.Kernel.Contents
import Xinu.Kernel.Moves
import Xinu.Kernel.Effects
import Xinu.Kernel.Steps
import Xinu.Kernel.SleepQueue
import Xinu.Kernel.Semaphores
import Xinu.Kernel.Priorities
import Xinu.Kernel.Mailboxes
import Xinu.Kernel.Delays
import Xinu.Kernel.Lives
import Xinu.Kernel.Kills
import Xinu.Lib.Regions
import Xinu.Heap.Memlist
import Xinu.Heap.FreeList
import Xinu.Heap.Links
import Xinu.Heap.Runs
import Xinu.Lib.Ring
import Xinu.Net.Endpoint
import Xinu.Net.EndpointSpec
import Xinu.Net.Udp
import Xinu.Net.Icmp
import Xinu.Net.Arp
import Xinu.Net.ArpSpec
import Xinu.Lib.Linked
import Xinu.Rds.Queue
import Xinu.Rds.QueueSpec
import Xinu.Rds.Cache
import Xinu.Rds.Disk
import Xinu.Rds.Coherence
import Xinu.Rds.DiskSpec
import Xinu.Lib.Semaphore
import Xinu.Lib.Shares
import Xinu.Lib.Blocks
import Xinu.Tty.Output
import Xinu.Tty.Input
import Xinu.Tty.InputSpec
import Xinu.Lfs.Open
import Xinu.Lfs.OpenSpec
import Xinu.Net.Held
import Xinu.Net.Ip
import Xinu.Net.Ownership
import Xinu.Lfs.Blocks
import Xinu.Lfs.File
import Xinu.Lfs.Files
import Xinu.Lfs.Layout
import Xinu.Lfs.SetupSpec
import Xinu.Lfs.FileSpec
import Xinu.Lfs.TruncateSpec
import Xinu.Heap.Checks
import Xinu.Lfs.Create
import Xinu.Rfs.File
import Xinu.Rfs.FileSpec
import Xinu.Eth.Receive
import Xinu.Lib.Footprint
import Xinu.Net.Bounds
import Xinu.Net.Tftp
import Xinu.Net.TftpSpec
import Xinu.Kernel.FitRuns
import Xinu.Paging.RoundTrip
import Xinu.Kernel.RoundTripRuns
import Xinu.Paging.VmallocUses
import Xinu.Kernel.BoundsRuns
import Xinu.Lfs.Store
import Xinu.Lfs.FilesSpec
import Xinu.Lfs.FilesOpen
import Xinu.Lfs.FilesRuns
import Xinu.Lfs.Ownership
import Xinu.Lfs.Durable
import Xinu.Rds.Iteration
import Xinu.Lib.Bytes
import Xinu.Net.ByteOrder
import Xinu.Rds.Comm
import Xinu.Rds.CommSpec
import Xinu.Clock.Ascdate
import Xinu.Lib.Calendar
import Xinu.Clock.AscdateSpec
import Xinu.Config.Assigns
import Xinu.Config.Compiler
import Xinu.Config.Devices
import Xinu.Rfs.Bounds
import Xinu.Lib.OnesComplement
import Xinu.Net.Checksum
import Xinu.Net.Dns
import Xinu.Net.DnsFormat
import Xinu.Net.DnsSpec
import Xinu.Net.Dhcp
import Xinu.Net.DhcpSpec
import Xinu.Net.Clients
import Xinu.Net.ClientsSpec
import Xinu.Lib.Strings
import Xinu.Net.Dotted
import Xinu.Kernel.DirPrefix
import Xinu.Lfs.ModesSpec
import Xinu.Lfs.Sector
import Xinu.Nam.Names
import Xinu.Nam.NamesSpec
import Xinu.Shell.LexanSpec
import Xinu.Lib.FatPivot
import Xinu.Lib.Qsort
import Xinu.Lib.QsortSpec
import Xinu.Port.Ports
import Xinu.Port.PortsSpec
import Xinu.Buf.Pools
import Xinu.Buf.PoolsHeap
import Xinu.Fmt.DoprntSpec
import Xinu.Fmt.DoscanSpec
import Xinu.Str.StringsSpec
import Xinu.Fmt.Doscan
import Xinu.Shell.ArgsSpec
import Xinu.Eth.Transmit
