import Atfs.Allocator.Alloc
import Atfs.Allocator.Init
import Atfs.Log.Basic
import Atfs.Log.Entry
import Atfs.Log.Append
import Atfs.Log.Rep
import Atfs.Io.Basic
import Atfs.Io.Copy
import Atfs.Io.Chunk
import Atfs.Io.Write
import Atfs.Io.Supply
import Atfs.Allocator.Contract
import Atfs.Io.Read
import Atfs.Io.Contents
import Atfs.Io.History
import Atfs.Io.Entries
import Atfs.Inode.Basic
import Atfs.Log.Slots
import Atfs.Io.Zero
import Atfs.Gc.Basic
import Atfs.Io.Ranges
import Atfs.Io.Appended
import Atfs.Io.Calls
import Atfs.Allocator.Account
import Atfs.Library.LinkedRing
import Atfs.Super.Basic
import Atfs.Super.Init
import Atfs.Super.Recency
import Atfs.Super.Reattach
import Atfs.Inode.Table
import Atfs.Inode.Supply
import Atfs.Inode.Pool
import Atfs.Allocator.Stores
import Atfs.Io.Interrupt
import Atfs.Io.Reads
import Atfs.Allocator.Exhaust
import Atfs.Inode.Interleave
import Atfs.Inode.Lifecycle
import Atfs.Io.Use
import Atfs.Inode.NewFile
import Atfs.Library.MarkRuns
import Atfs.Gc.Runs
import Atfs.Gc.Collect
import Atfs.Gc.Block
import Atfs.Gc.Kept
import Atfs.Gc.Release
import Atfs.Gc.Progress
import Atfs.Gc.Unlink
import Atfs.Gc.Task
import Atfs.Gc.Trigger
import Atfs.Library.WordMix
import Atfs.Library.TableCrc
import Atfs.Hash.Crc
import Atfs.Hash.Fd
import Atfs.Log.Invalidate
import Atfs.Library.RingHeap
import Atfs.Super.List
import Atfs.Log.Joined
import Atfs.Log.Mark
import Atfs.Volume.Basic
import Atfs.Volume.Steps
import Atfs.Volume.Counters
import Atfs.Library.LabelledRun
import Atfs.Gc.Live
import Atfs.Volume.Names
import Atfs.Volume.Live
import Atfs.Volume.PagedFile
import Atfs.Volume.Files
import Atfs.Volume.FileSteps
import Atfs.Volume.Supply
import Atfs.Volume.FileRuns
import Atfs.Gc.Ledger
import Atfs.Volume.Ledger
import Atfs.Library.MoveToFront
import Atfs.System.Basic
import Atfs.System.Files
import Atfs.System.Progress
