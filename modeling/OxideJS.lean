import OxideJS.Bytecode.OpCode
import OxideJS.Ir.Inst
import OxideJS.Lib.Binary64
import OxideJS.Value.JsValue
import OxideJS.Vm.Operators
import OxideJS.Vm.Machine
import OxideJS.Vm.Coercion
import OxideJS.Vm.AfterEffect
import OxideJS.Vm.ActiveModule
import OxideJS.Buffer.Heap
import OxideJS.Buffer.TypedArray
import OxideJS.Buffer.WriteSafety
import OxideJS.Lib.Framing
import OxideJS.Bytecode.Encoding
import OxideJS.Module.Tree
import OxideJS.Module.Flatten
import OxideJS.Module.Undisturbed
import OxideJS.Module.Dynamic
import OxideJS.Ir.Lower
import OxideJS.Ir.Decodable
import OxideJS.Emit.Chain
import OxideJS.Lib.Runs
import OxideJS.Types.PermInterner
import OxideJS.Promise.Settlement
import OxideJS.Promise.Once
import OxideJS.Promise.Drain
import OxideJS.Lib.Worklist
import OxideJS.Gc.Heap
import OxideJS.Gc.Marking
import OxideJS.Gc.Collection
import OxideJS.Gc.Safety
import OxideJS.AsyncGen.Queue
import OxideJS.AsyncGen.Body
import OxideJS.AsyncGen.Thrown
import OxideJS.AsyncGen.Order
import OxideJS.Kernel.ShapeForge
import OxideJS.Kernel.ShapePositions
import OxideJS.Kernel.ShapeThreads
import OxideJS.Lib.Pruning
import OxideJS.Dce.Sweep
import OxideJS.Dce.Fixpoint
import OxideJS.Vm.ConcatN
import OxideJS.Lib.SmallIntegers
import OxideJS.Lib.Nearest
import OxideJS.Value.MixedOrder
import OxideJS.Lib.Trimming
import OxideJS.Lib.Numerals
import OxideJS.Value.StringToBigInt
import OxideJS.Vm.Compound
import OxideJS.Temporal.Calendar
import OxideJS.Lib.Utf16
import OxideJS.Types.KeyText
import OxideJS.Types.Rope
import OxideJS.Json.StringLiteral
import OxideJS.Lib.IndexSet
import OxideJS.Collections.SetKey
import OxideJS.Collections.SetAlgebra
import OxideJS.Collections.Cursors
import OxideJS.Collections.LiveIteration
import OxideJS.Buffer.Atomics
import OxideJS.Events.Dispatch
import OxideJS.Message.Transfer
import OxideJS.Clone.FillProps
import OxideJS.Codec.FromBase64
import OxideJS.Codec.EncodeBase64
import OxideJS.Codec.Uri
import OxideJS.Codec.Hex
import OxideJS.Temporal.DateUntil
import OxideJS.Temporal.Hebrew
import OxideJS.Temporal.HebrewMonths
import OxideJS.Temporal.Rounding
import OxideJS.Lib.FixedWidth
import OxideJS.Date.Time
import OxideJS.Date.Iso
import OxideJS.Date.Text
import OxideJS.Server.Frames
import OxideJS.Temporal.RoundingLaw
import OxideJS.Kernel.SharedGrow
import OxideJS.Lib.Splices
import OxideJS.Buffer.Elements
import OxideJS.Buffer.Moves
import OxideJS.Temporal.DurationAdd
import OxideJS.Temporal.DurationText
import OxideJS.Temporal.TimeZone
import OxideJS.Temporal.StartOfDay
import OxideJS.Temporal.InstantText
import OxideJS.Iterator.Zip
import OxideJS.Module.TopLevelAwait
import OxideJS.Proxy.Invariants
import OxideJS.Vm.Disposal
import OxideJS.Value.MathRounding
import OxideJS.Server.Watchdog
