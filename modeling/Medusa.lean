import Medusa.Machine.Word
import Medusa.Machine.Loop
import Medusa.Machine.Iterate
import Medusa.Machine.Run
import Medusa.Machine.Box
import Medusa.Machine.HeapTrace
import Medusa.Machine.Action
import Medusa.Machine.Memory
import Medusa.Machine.Raster
import Medusa.Machine.Mmu
import Medusa.Machine.Access
import Medusa.Machine.Numeral
import Medusa.Machine.Split
import Medusa.Machine.Chain
import Medusa.Machine.DigitalLine
import Medusa.Machine.Probing
import Medusa.Machine.Division
import Medusa.Machine.I386
import Medusa.Machine.Interrupts
import Medusa.Machine.Interleaving
import Medusa.Machine.DoubleRead
import Medusa.Machine.Ports
import Medusa.Machine.I8259
import Medusa.Machine.Polling
import Medusa.Machine.Congruential
import Medusa.Kernel.Misc
import Medusa.Kernel.Buffer
import Medusa.Libc.String
import Medusa.Libc.Memmove
import Medusa.Libc.CString
import Medusa.Libc.Numbers
import Medusa.Libc.Printf
import Medusa.Libc.Strtol
import Medusa.Libc.Pieces
import Medusa.Libc.Conversions
import Medusa.Libc.Output
import Medusa.Libc.Div
import Medusa.Libc.Rand
import Medusa.Libc.Compare
import Medusa.Libc.Fields
import Medusa.Serial.Transmit
import Medusa.Serial.Setup
import Medusa.Pit.Timer
import Medusa.Rtc.Date
import Medusa.Rtc.Calendar
import Medusa.Rtc.Reading
import Medusa.Pmm.Bitmap
import Medusa.Pmm.Search
import Medusa.Pmm.Alloc
import Medusa.Pmm.Ownership
import Medusa.Multiboot.Info
import Medusa.Pmm.Boot
import Medusa.Multiboot.Walk
import Medusa.Pmm.BootSafety
import Medusa.Pmm.Region
import Medusa.Pmm.Accounting
import Medusa.Pmm.Supply
import Medusa.Paging.Defs
import Medusa.Paging.Tables
import Medusa.Paging.Map
import Medusa.Paging.Reach
import Medusa.Paging.Translation
import Medusa.Paging.Unmap
import Medusa.Paging.Leaf
import Medusa.Paging.Lookup
import Medusa.Paging.Rounds
import Medusa.Paging.AllOrNothing
import Medusa.Paging.Data
import Medusa.Paging.Staging
import Medusa.Paging.Ledger
import Medusa.Paging.Tlb
import Medusa.Heap.Defs
import Medusa.Heap.Layout
import Medusa.Heap.FirstFit
import Medusa.Heap.Refine
import Medusa.Heap.Session
import Medusa.Heap.Client
import Medusa.Heap.ListSound
import Medusa.Heap.Limit
import Medusa.Heap.Realloc
import Medusa.Heap.Usage
import Medusa.Fb.Remap
import Medusa.Chip8.Emulator
import Medusa.Chip8.Sandbox
import Medusa.Chip8.Arithmetic
import Medusa.Chip8.Calls
import Medusa.Chip8.Display
import Medusa.Chip8.Dump
import Medusa.Chip8.Scaling
import Medusa.Vfs.Search
import Medusa.Vfs.Mount
import Medusa.Vfs.Path
import Medusa.Vfs.Readdir
import Medusa.Vfs.Write
import Medusa.Initrd.Scan
import Medusa.Initrd.Archive
import Medusa.Initrd.Nodes
import Medusa.Vfs.Open
import Medusa.Elf.Defs
import Medusa.Elf.Image
import Medusa.Elf.Relocate
import Medusa.Elf.Stage1
import Medusa.Elf.Load
import Medusa.Elf.Trace
import Medusa.Elf.Bounds
import Medusa.Elf.Frame
import Medusa.Elf.Linkable
import Medusa.Elf.Module
import Medusa.Elf.Survival
import Medusa.Proc.World
import Medusa.Proc.Account
import Medusa.Proc.RunCode
import Medusa.Proc.Exhaustion
import Medusa.Proc.UserStack
import Medusa.Libc.Strtok
import Medusa.Libc.StrtokR
import Medusa.Proc.Arguments
import Medusa.Proc.FlatHeap
import Medusa.Elf.Exec
import Medusa.Tools.Base64
import Medusa.Tools.Base64Bounds
import Medusa.Irq.Pic
import Medusa.Irq.Chips
import Medusa.Irq.Segments
import Medusa.Irq.Frame
import Medusa.Irq.Gates
import Medusa.Task.Switch
import Medusa.Task.Interrupted
import Medusa.Task.Yield
import Medusa.Task.Turns
import Medusa.Task.Init
import Medusa.Proc.UserEntry
import Medusa.Proc.SystemCall
import Medusa.Pci.Find
import Medusa.DataStructures.Hashtable
import Medusa.DataStructures.DynList
import Medusa.DataStructures.HashProbe
import Medusa.DataStructures.LinkedList
import Medusa.DataStructures.Stack
import Medusa.Terminal.Framebuffer
import Medusa.Graphics.Lines
import Medusa.Graphics.LineEnds
import Medusa.Graphics.Pixels
import Medusa.Gui.Windows
import Medusa.Gui.Drawing
import Medusa.Gui.Composition
import Medusa.Gui.Scenes
import Medusa.Terminal.LineEditor
import Medusa.Terminal.Ansi
import Medusa.Shell.Previous
import Medusa.Shell.Launch
import Medusa.Shell.Directory
