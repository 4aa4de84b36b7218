import FractalWasm.Exceptions
import FractalWasm.Control.Machine
import FractalWasm.Control.Metering
import FractalWasm.Control.GasBound
import FractalWasm.Control.Relabel
import FractalWasm.Codec.LittleEndian
import FractalWasm.Codec.Reader
import FractalWasm.Codec.Writer
import FractalWasm.IR.Types
import FractalWasm.IR.Module
import FractalWasm.IR.Operators
import FractalWasm.IR.ControlFlow
import FractalWasm.IR.Validate
import FractalWasm.IR.ValidCode
import FractalWasm.IR.ClosingEnd
import FractalWasm.IR.ValidDefinitions
import FractalWasm.Serialization
import FractalWasm.Serialization.Output
import FractalWasm.WASM.Deserialize
import FractalWasm.WASM.Serialize
import FractalWasm.WASM.Decoded
import FractalWasm.WASM.Sections
import FractalWasm.WASM.RoundTrip.Entities
import FractalWasm.Wasmlib.BinaryOps
import FractalWasm.Wasmlib.Injection
import FractalWasm.Wasmlib.UseGas
import FractalWasm.Wasmlib.Registry
import FractalWasm.Wasmlib.Rewriting
import FractalWasm.Wasmlib.GasSoundness
import FractalWasm.Wasmlib.IndexRemapping
import FractalWasm.Wasmlib.Erasure
import FractalWasm.Wasmlib.Softfloat
import FractalWasm.Platform.Traps
import FractalWasm.Platform.NestedTraps
import FractalWasm.WASM.RoundTrip.Bodies
import FractalWasm.WASM.RoundTrip.Modules
import FractalWasm.WASM.RoundTrip.Reencoding
import FractalWasm.WASM.RoundTrip.DecodedBodies
import FractalWasm.WASM.RoundTrip.DecodedImports
import FractalWasm.WASM.RoundTrip.DecodedModules
import FractalWasm.Codec.Agree
import FractalWasm.Wasmlib.Validation
import FractalWasm.Wasmlib.Statics
import FractalWasm.Runtime.Intrinsics
import FractalWasm.Runtime.Linker
import FractalWasm.Runtime.Memory
import FractalWasm.Runtime.ModuleInstance
import FractalWasm.Wasmlib.Instrumented
import FractalWasm.Wasmlib.Interface
import FractalWasm.Wasmlib.InitialMemory
import FractalWasm.Wasmlib.PrivateModule
import FractalWasm.IR.StackBalance
import FractalWasm.Wasmlib.WellTyped
import FractalWasm.Codec.Errors
import FractalWasm.IR.ValidationErrors
import FractalWasm.Wasmlib.AddedTypes
import FractalWasm.Wasmlib.SizeLimits
import FractalWasm.Runtime.GrowMemory
import FractalWasm.Runtime.AddressSpace
import FractalWasm.Wasmlib.MemoryImage
import FractalWasm.Wasmlib.NestedDepth
import FractalWasm.Wasmlib.SharedMemory
import FractalWasm.Wasmlib.Pointers
import FractalWasm.Wasmlib.Marshalling
import FractalWasm.IR.CheckRules
import FractalWasm.IR.OuterContext
import FractalWasm.Runtime.Execution
import FractalWasm.Runtime.Matching
import FractalWasm.Runtime.Soundness
import FractalWasm.Runtime.TableSpace
import FractalWasm.Runtime.MemoryHistory
import FractalWasm.Wasmlib.ApiEffects
import FractalWasm.Wasmlib.Apply
import FractalWasm.Wasmlib.GasMeter
import FractalWasm.Wasmlib.CallAction
import FractalWasm.Wasmlib.EntryPoint
import FractalWasm.Wasmlib.Execute
import FractalWasm.Wasmlib.MemoryLimit
import FractalWasm.WASM.DecodingErrors
import FractalWasm.WASM.EncodingErrors
import FractalWasm.Wasmlib.Rejection
import FractalWasm.IR.FunctionTypeMap
import FractalWasm.Ieee.Format
import FractalWasm.Ieee.Nearest
import FractalWasm.Ieee.Guard
import FractalWasm.Ieee.Operations
import FractalWasm.Wasmlib.CompilerBuiltins.Calls
import FractalWasm.Wasmlib.CompilerBuiltins.FloatConversion
import FractalWasm.Wasmlib.CompilerBuiltins.QuadComparison
import FractalWasm.Wasmlib.CompilerBuiltins.WideIntegers
import FractalWasm.Wasmlib.SoftfloatApi.BitRounding
import FractalWasm.Wasmlib.SoftfloatApi.MagicRounding
import FractalWasm.Wasmlib.SoftfloatApi.Nans
import FractalWasm.Wasmlib.SoftfloatApi.Truncation
import FractalWasm.Wasmlib.SoftfloatApi.RoundPack
import FractalWasm.Wasmlib.SoftfloatApi.Operands
import FractalWasm.Wasmlib.SoftfloatApi.AddSub
import FractalWasm.Wasmlib.SoftfloatApi.Multiplication
import FractalWasm.Wasmlib.SoftfloatApi.Division
import FractalWasm.Wasmlib.SoftfloatApi.FromIntegers
import FractalWasm.Wasmlib.SoftfloatApi.ToIntegers
import FractalWasm.Wasmlib.SoftfloatApi.Widths
import FractalWasm.Wasmlib.SoftfloatApi.Arithmetic
import FractalWasm.Wasmlib.IndirectCalls
import FractalWasm.Codec.MixedRadix
import FractalWasm.Codec.Words
import FractalWasm.Wasmlib.InstructionStream
import FractalWasm.Wasmlib.OperatorCodecs
import FractalWasm.Wasmlib.Name
import FractalWasm.Runtime.Registrations
import FractalWasm.Serialization.Utf8
import FractalWasm.Serialization.VarInt
import FractalWasm.Serialization.Leb128
import FractalWasm.WASM.ImportLimits
import FractalWasm.Llvm.Emits
import FractalWasm.LLVMJIT.Integers
