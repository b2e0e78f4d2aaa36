import MmapIo.Lib.Word
import MmapIo.Lib.Machine
import MmapIo.Lib.RwLock
import MmapIo.Lib.FairLock
import MmapIo.Lib.Bytes
import MmapIo.Lib.Ledger
import MmapIo.Lib.Backing
import MmapIo.Lib.Round
import MmapIo.Lib.Owned
import MmapIo.Lib.Chunk
import MmapIo.Lib.Text
import MmapIo.Lib.Linear
import MmapIo.Utils
import MmapIo.RawRange
import MmapIo.Align
import MmapIo.HugePages
import MmapIo.Views
import MmapIo.ViewsSlab
import MmapIo.ViewsStep
import MmapIo.ViewsOwn
import MmapIo.ViewsInv
import MmapIo.ViewsExcl
import MmapIo.Mmap
import MmapIo.Resize
import MmapIo.ResizeRuns
import MmapIo.Iterator
import MmapIo.Create
import MmapIo.ByteVec
import MmapIo.Reader
import MmapIo.OpenOrCreate
import MmapIo.AccountStep
import MmapIo.Account
import MmapIo.FlushThreshold
import MmapIo.CrashLoss
import MmapIo.PinStep
import MmapIo.Pin
import MmapIo.PinWrap
import MmapIo.PinEntries
import MmapIo.CopyOut
import MmapIo.TouchPages
import MmapIo.Chunks
import MmapIo.ChunksMut
import MmapIo.ChunksUnwind
import MmapIo.Flusher
import MmapIo.Unmap
import MmapIo.Watch
import MmapIo.PendingWrap
import MmapIo.Construct
import MmapIo.ConstructLen
import MmapIo.ConstructUndo
import MmapIo.CreateRace
import MmapIo.Nonblocking
import MmapIo.NonShared
import MmapIo.NonSharedVec
import MmapIo.Segments
import MmapIo.ReaderRuns
import MmapIo.SizeLimits
import MmapIo.Validation
import MmapIo.Locks
import MmapIo.LocksProgress
import MmapIo.RawMapping
import MmapIo.RawRuns
import MmapIo.RawViews
import MmapIo.RawInner
import MmapIo.Sections
import MmapIo.Atomicity
import MmapIo.Advice
import MmapIo.AdviceRuns
import MmapIo.Anonymous
