import Miracle.Memblock.PfnIteration
import Miracle.Memblock.MarkUndo
import Miracle.Memblock.BootRuns
import Miracle.PageAlloc.Lifecycle
import Miracle.Locking.QrwLock
import Miracle.Locking.QspinlockRuns
import Miracle.Mmu.Remap
import Miracle.Vmalloc.Completeness
import Miracle.Vmalloc.Atomicity
import Miracle.Idr.IdaSet
import Miracle.Memblock.Trim
import Miracle.PageAlloc.Canonical
import Miracle.Slub.KmallocPaths
import Miracle.Slub.BootFailure
import Miracle.Percpu.Fit
import Miracle.Percpu.LaidOut
import Miracle.EarlyIoremap.Runs
import Miracle.Llist.Runs
import Miracle.Fdt.Memory
import Miracle.Arm64.MemblockInit
import Miracle.Percpu.SlotSearch
import Miracle.Vsprintf.ScanWidth
import Miracle.Vsprintf.BinaryFit
import Miracle.Bitmap.Parsing
import Miracle.Idr.Range
import Miracle.Crc32.Equivalence
import Miracle.Bitmap.Primitives
import Miracle.Bitmap.Region
import Miracle.Bitmap.Remap
import Miracle.Bitmap.Arr32
import Miracle.Arith.Gcd
import Miracle.Text.Strscpy
import Miracle.Text.HexConversion
import Miracle.Text.HumanSize
import Miracle.Text.EscapeMem
import Miracle.Params.ParseArgs
