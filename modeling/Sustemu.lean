import Sustemu.Memory.Hierarchy
import Sustemu.Isa.Traps
import Sustemu.Isa.MulDiv
import Sustemu.Cpu.Dispatch
import Sustemu.Ooo.Registers
import Sustemu.Ooo.Refinement
import Sustemu.Ooo.StoreOrder
import Sustemu.Ooo.Squash
import Sustemu.Ooo.Difftest
import Sustemu.Inorder.Dual
import Sustemu.Inorder.Refinement
import Sustemu.Cpu.Isolation
import Sustemu.Cpu.Counters
import Sustemu.Memory.Aliases
import Sustemu.Cpu.Invalid
import Sustemu.Ooo.Operands
import Sustemu.Ooo.Detection
import Sustemu.Ooo.Speculation
import Sustemu.Isa.Pmp
import Sustemu.Lib.Alike
import Sustemu.Cpu.SelfModifying
import Sustemu.Cpu.Shortcut
import Sustemu.Memory.Bounds
import Sustemu.Ooo.Misses
import Sustemu.Cpu.Bpred
import Sustemu.Cpu.Budget
import Sustemu.Lib.LongestMatch
import Sustemu.Lib.Recency
import Sustemu.Memory.CacheSystem
import Sustemu.Memory.Calls
import Sustemu.Memory.Prefetch
import Sustemu.Memory.Statistics
import Sustemu.Monitor.Expr
import Sustemu.Monitor.Lexing
import Sustemu.Monitor.Malformed
import Sustemu.Ooo.Completion
import Sustemu.Ooo.Masks
import Sustemu.Ooo.Predictions
import Sustemu.Ooo.Recovery
import Sustemu.Ooo.UnreadyStores
import Sustemu.Ooo.ZeroRegister
import Sustemu.Cpu.PredictorState
import Sustemu.Cpu.ReturnStack
import Sustemu.Cpu.TargetBuffer
import Sustemu.Device.Keyboard
import Sustemu.Inorder.Accounting
import Sustemu.Monitor.Watching
import Sustemu.Runtime.Memory
import Sustemu.Runtime.Stdio
import Sustemu.Isa.Immediates
import Sustemu.Monitor.Brackets
import Sustemu.Runtime.Numerals
import Sustemu.Runtime.Strings
import Sustemu.Runtime.Allocator
import Sustemu.Ooo.Fences
import Sustemu.Ooo.Programs
import Sustemu.Inorder.Programs
import Sustemu.Ooo.Deadlock
import Sustemu.Inorder.Throughput
import Sustemu.Cpu.DualPrograms
import Sustemu.Runtime.Quotients
