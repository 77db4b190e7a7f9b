import Bintos.Lib.Memory
import Bintos.Lib.Packed
import Bintos.Lib.Segments
import Bintos.Machine
import Bintos.Pmem.Source
import Bintos.Lib.Words
import Bintos.Pmem.Memmap
import Bintos.Pmem.Setup
import Bintos.Pmem.Carve
import Bintos.Pmem.Alloc
import Bintos.Pmem.Runs
import Bintos.Pmem.Safety
import Bintos.Pmem.Enumerate
import Bintos.Pmem.Home
import Bintos.Pmem.Cursor
import Bintos.Lib.Radix
import Bintos.Vm.Entries
import Bintos.Vm.Source
import Bintos.Pmem.Free
import Bintos.Vm.Tables
import Bintos.Vm.Fields
import Bintos.Vm.Frames
import Bintos.Vm.Step
import Bintos.Vm.Refine
import Bintos.Vm.LastCall
import Bintos.Vm.Boot
import Bintos.Vm.BootMap
import Bintos.Vm.KernelFrames
import Bintos.Vm.AfterBoot
import Bintos.Lib.Stack
import Bintos.Int.Source
import Bintos.Int.Stubs
import Bintos.Lib.Stores
import Bintos.Lib.TextGrid
import Bintos.Font.Source
import Bintos.Font.Drawing
import Bintos.Font.Bounds
import Bintos.Font.Columns
import Bintos.Font.Render
import Bintos.Font.Bytes
import Bintos.Font.Placement
import Bintos.Vm.Framebuffer
import Bintos.Vm.Record
import Bintos.Vm.Forest
import Bintos.Vm.Failure
import Bintos.Lib.Numeral
import Bintos.Lib.Transducer
import Bintos.Log.Source
import Bintos.Log.Numbers
import Bintos.Log.Format
import Bintos.Log.Scan
import Bintos.Log.Conversions
import Bintos.Stdlib.Source
import Bintos.Stdlib.Copy
import Bintos.Lib.While
import Bintos.Int.Timer
import Bintos.Serial.Source
import Bintos.Serial.Delivery
import Bintos.Lib.ThreeWay
import Bintos.Stdlib.Compare
import Bintos.Lib.Records
import Bintos.Int.Descriptors
import Bintos.Lib.Peripheral
import Bintos.Serial.Chip
import Bintos.Serial.Line
import Bintos.Serial.Setup
import Bintos.Int.Handler
import Bintos.Int.Exceptions
import Bintos.Lib.AddressSpace
import Bintos.Vm.Survival
import Bintos.Int.AfterBoot
import Bintos.Font.Memory
import Bintos.Boot.Source
import Bintos.Boot.Logged
import Bintos.Boot.Budget
import Bintos.Boot.Kmain
import Bintos.Boot.Run
import Bintos.Boot.Transcript
import Bintos.Boot.Refusal
import Bintos.Int.Pit
