import Ylos.Lib.Exec
import Ylos.Lib.Keeps
import Ylos.Lib.Bytes
import Ylos.Model.Bitmap
import Ylos.Model.Fs.State
import Ylos.Model.Fs.Alloc
import Ylos.Model.Fs.Inode
import Ylos.Model.Fs.Namei
import Ylos.Model.Fs.Super
import Ylos.Model.Fs.File
import Ylos.Model.Fs.Mount
import Ylos.Lib.Allocator
import Ylos.Verification.Bitmap.FirstFit
import Ylos.Verification.Alloc.Blocks
import Ylos.Verification.Alloc.Zones
import Ylos.Verification.Alloc.Inodes
import Ylos.Lib.Runs
import Ylos.Lib.RefCount
import Ylos.Lib.Ring
import Ylos.Lib.Chain
import Ylos.Model.Buffer
import Ylos.Model.Task
import Ylos.Model.Memory
import Ylos.Model.Boot
import Ylos.Model.File
import Ylos.Model.System
import Ylos.Model.Incore
import Ylos.Model.Pipe
import Ylos.Model.Request
import Ylos.Verification.Buffer.Invariant
import Ylos.Verification.Buffer.Coherence
import Ylos.Verification.Buffer.WriteBack
import Ylos.Verification.Task.Calls
import Ylos.Verification.Task.States
import Ylos.Verification.Task.Scheduler
import Ylos.Verification.Task.Slices
import Ylos.Verification.Task.Sleepers
import Ylos.Verification.Task.Family
import Ylos.Verification.Task.Reaping
import Ylos.Model.Mutex
import Ylos.Verification.Mutex.Bystanders
import Ylos.Verification.Mutex.Exclusion
import Ylos.Verification.Mutex.Steps
import Ylos.Verification.Mutex.Runs
import Ylos.Verification.Task.Dead
import Ylos.Verification.File.Counts
import Ylos.Verification.Incore.Loaded
import Ylos.Verification.Pipe.Order
import Ylos.Verification.Request.Queue
import Ylos.Verification.Memory.Frames
import Ylos.Verification.Memory.Tables
import Ylos.Verification.Memory.Spaces
import Ylos.Verification.Memory.Paging
import Ylos.Verification.Memory.Fork
import Ylos.Verification.Memory.Exit
import Ylos.Verification.Memory.Steps
import Ylos.Verification.Memory.Counts
import Ylos.Verification.Memory.Isolation
import Ylos.Verification.Memory.Booting
import Ylos.Verification.Memory.Tally
import Ylos.Verification.Path.Match
import Ylos.Verification.Path.Tree
import Ylos.Verification.Path.Components
import Ylos.Verification.Path.Placed
import Ylos.Verification.Path.Walk
import Ylos.Verification.Path.Iget
import Ylos.Verification.Path.Lookup
import Ylos.Verification.Path.Resolve
import Ylos.Verification.Path.Pwd
import Ylos.Verification.Path.Trail
import Ylos.Verification.Path.Chdir
import Ylos.Verification.Path.Access
import Ylos.Verification.Dir.Reading
import Ylos.Verification.Dir.Slots
import Ylos.Verification.Refs.Ledger
import Ylos.Verification.Refs.Neutral
import Ylos.Verification.Refs.Inodes
import Ylos.Verification.Refs.Paths
import Ylos.Verification.Refs.Calls
import Ylos.Model.Arena
import Ylos.Verification.Bitmap.Runs
import Ylos.Verification.Mount.Calm
import Ylos.Verification.Mount.Phase
import Ylos.Verification.Mount.Calls
import Ylos.Verification.Mount.Holders
import Ylos.Verification.Mount.Steps
import Ylos.Verification.Mount.InUse
import Ylos.Verification.Mount.Rollback
import Ylos.Verification.Fs.Acts
import Ylos.Verification.Index.Shape
import Ylos.Verification.Index.Volume
import Ylos.Verification.Index.Create
import Ylos.Verification.Index.Mapping
import Ylos.Verification.Index.Transfer
import Ylos.Verification.Index.Truncate
import Ylos.Verification.Arena.Pages
import Ylos.Verification.Arena.Lists
import Ylos.Verification.Arena.Layout
import Ylos.Verification.Arena.Stored
import Ylos.Verification.Arena.Owners
import Ylos.Verification.Arena.Malloc
import Ylos.Verification.Arena.Free
import Ylos.Verification.Arena.Boot
import Ylos.Verification.Arena.Safe
import Ylos.Verification.Arena.Runs
import Ylos.Verification.Arena.Areas
import Ylos.Verification.Arena.Exit
import Ylos.Verification.Memory.Supervisor
import Ylos.Verification.Buffer.Exhausted
import Ylos.Verification.Pipe.Duplex
import Ylos.Verification.File.Dup
import Ylos.Verification.Request.Elevator
import Ylos.Verification.Memory.Mmap
import Ylos.Model.Execve
import Ylos.Verification.Execve.Memory
import Ylos.Verification.Execve.Load
import Ylos.Verification.Execve.Failure
import Ylos.Verification.Path.Create
import Ylos.Verification.Index.Exhausted
import Ylos.Verification.Path.Exhausted
import Ylos.Lib.Calendar
import Ylos.Model.Time
import Ylos.Verification.Time.Mktime
import Ylos.Verification.Time.Localtime
import Ylos.Lib.Ram
import Ylos.Model.Copy
import Ylos.Verification.Ram.Copy
import Ylos.Model.Ramdisk
import Ylos.Verification.Ramdisk.Requests
import Ylos.Verification.Ramdisk.Transfers
import Ylos.Lib.Scan
import Ylos.Verification.Task.Search
import Ylos.Lib.Terminal
import Ylos.Model.Console
import Ylos.Verification.Console.Simulation
import Ylos.Verification.Console.Session
import Ylos.Model.Shell
import Ylos.Verification.Shell.Readline
import Ylos.Verification.Shell.Words
import Ylos.Verification.Shell.Parse
import Ylos.Lib.Text
import Ylos.Model.Arguments
import Ylos.Verification.Execve.Arguments
import Ylos.Verification.Execve.Startup
import Ylos.Lib.Queue
import Ylos.Verification.Pipe.Fifo
import Ylos.Lib.Carve
import Ylos.Model.BufferMemory
import Ylos.Verification.Buffer.Carving
import Ylos.Lib.Ghost
import Ylos.Verification.Index.Lookup
import Ylos.Lib.Chains
import Ylos.Lib.Insertion
import Ylos.Model.List
import Ylos.Verification.List.Loops
import Ylos.Verification.List.Sequences
import Ylos.Verification.Switch.Returns
import Ylos.Verification.Printf.Decimal
import Ylos.Model.Keyboard
import Ylos.Verification.Keyboard.Typing
import Ylos.Verification.Keyboard.Reading
import Ylos.Model.Device
import Ylos.Verification.Device.Table
import Ylos.Verification.Keyboard.Command
import Ylos.Verification.Keyboard.Progress
