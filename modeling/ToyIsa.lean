import ToyIsa.Lib.Machine
import ToyIsa.Refine.JitSwitch
import ToyIsa.Block.Chaining
import ToyIsa.Faults.Address
import ToyIsa.Faults.Partial
import ToyIsa.Faults.Status
import ToyIsa.Refine.Threaded
import ToyIsa.Safety.Defined
import ToyIsa.Isa.Word
import ToyIsa.Assembler.Roundtrip
import ToyIsa.Assembler.Program
import ToyIsa.Assembler.Labels
import ToyIsa.Memory.Law
import ToyIsa.Loader.Load
import ToyIsa.Cache.Invalidate
import ToyIsa.Step.Changes
import ToyIsa.Coherence.Reads
import ToyIsa.Refine.Reference
import ToyIsa.Isa.Extract
import ToyIsa.Jit.Saturate
import ToyIsa.Cache.AddressSpace
import ToyIsa.Step.Aligned
import ToyIsa.Block.Threshold
import ToyIsa.Input.Numbers
import ToyIsa.Step.Owned
import ToyIsa.Block.Dispatch
import ToyIsa.Refine.Visited
import ToyIsa.Refine.Engines
import ToyIsa.Lib.Contract
import ToyIsa.Assembler.Accepts
import ToyIsa.Assembler.Errors
import ToyIsa.Assembler.Image
import ToyIsa.Source.Logic
import ToyIsa.Source.Engines
import ToyIsa.Source.Fibonacci
import ToyIsa.Process.CommandLine
import ToyIsa.Process.Main
