import Relis.Lib.Run
import Relis.Lib.Bytes
import Relis.Lib.Radix
import Relis.Lib.Ring
import Relis.Lib.Lock
import Relis.Lib.ByteFile
import Relis.Lib.Cyclic
import Relis.Lib.Stack
import Relis.Lib.Fields
import Relis.Lib.Sweep
import Relis.Lib.EndAround
import Relis.Lib.Numeral
import Relis.Lib.Traverse
import Relis.Lib.Nest
import Relis.Code.String
import Relis.Code.PageAlloc
import Relis.Code.Paging
import Relis.Code.Mprotect
import Relis.Code.Boot
import Relis.Code.Vmalloc
import Relis.Code.Nic
import Relis.Code.Pipe
import Relis.Code.List
import Relis.Code.Slab
import Relis.Code.Task
import Relis.Code.Sched
import Relis.Code.Process
import Relis.Code.Ipc
import Relis.Code.Syscall
import Relis.Code.Memory
import Relis.Code.Relisfs
import Relis.Code.Exec
import Relis.Code.Vfs
import Relis.Code.Keyboard
import Relis.Code.NicRing
import Relis.Code.Asm
import Relis.Code.Ip
import Relis.Code.Vga
import Relis.Code.Printk
import Relis.Code.Pci
import Relis.Code.PciConfig
import Relis.Code.Irq
import Relis.PageAlloc
import Relis.PageAlloc.Image
import Relis.Slab
import Relis.Pipe
import Relis.Lists
import Relis.Paging.Entry
import Relis.Paging.Spec
import Relis.Paging.Tables
import Relis.Paging.Map
import Relis.Paging.Space
import Relis.Paging.Boot
import Relis.Paging.Refine
import Relis.Paging.Copy
import Relis.Paging.Clone
import Relis.Paging.Owner
import Relis.Paging.Need
import Relis.Paging.Levels
import Relis.Vmalloc.Window
import Relis.Vmalloc.Areas
import Relis.Vmalloc.Run
import Relis.Vmalloc.Apic
import Relis.Vmalloc.Range
import Relis.Vmalloc.Requests
import Relis.Vmalloc.Spaces
import Relis.Paging.Kinds
import Relis.Paging.Reach
import Relis.Paging.Huge
import Relis.Paging.Protect
import Relis.Sched.Spec
import Relis.Sched.Links
import Relis.Sched.Inv
import Relis.Sched.Run
import Relis.Sched.Fair
import Relis.Sched.Zombie
import Relis.Syscall
import Relis.Process.Tasks
import Relis.Process.Image
import Relis.Process.Run
import Relis.Process.Spaces
import Relis.Process.Child
import Relis.Process.Load
import Relis.Process.Bounds
import Relis.Process.Contents
import Relis.Process.Execve
import Relis.Process.Name
import Relis.Process.Steady
import Relis.Process.Fault
import Relis.Relisfs.Mount
import Relis.Relisfs.File
import Relis.Files.Memory
import Relis.Files.Agree
import Relis.Files.Path
import Relis.Files.Slots
import Relis.Process.Frame
import Relis.Signal.Deliver
import Relis.Signal.Kill
import Relis.Keyboard
import Relis.NicRing
import Relis.Checksum
import Relis.Vga
import Relis.Printk
import Relis.Pci
import Relis.Pci.Config
import Relis.Irq
import Relis.Asm.Exec
import Relis.Asm.Switch
import Relis.Asm.Frame
import Relis.Asm.Child
import Relis.Strings.Move
import Relis.Strings.Copy
import Relis.Strings.Compare
import Relis.Strings.Search
import Relis.Strings.Separate
import Relis.Lists.Iterate
import Relis.Ata
import Relis.Ata.Disk
import Relis.Keyboard.Modifiers
import Relis.Sched.Tick
import Relis.Sched.RealTime
import Relis.Udp
import Relis.Process.Users
import Relis.Smp
