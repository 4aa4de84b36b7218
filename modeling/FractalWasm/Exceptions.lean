/-!
# The exceptions of the library

Unrelated C++ families travel through the code, and a `catch` clause sees only its own:

* the classes derived from `ftl::exception` (`exceptions.hpp`), which the host is meant to see;
* the two serialization exceptions of the WebAssembly front end;
* the runtime's `Runtime::Exception`, which only names its cause;
* of the standard library, the `std::runtime_error` that `WAVM_ASSERT_THROW` throws and the
  `std::length_error` of a vector that is asked for more elements than it can have.

`wavmAssertThrow` and `ftlAssert` are the two assertion macros: they succeed exactly when their
condition holds (`wavmAssertThrow_eq_ok`, `ftlAssert_eq_ok`).
-/

namespace FractalWasm

/-- The classes `FTL_DECLARE_DERIVED_EXCEPTION` declares. -/
inductive FtlException where
  | invalidName
  | invalidAddress
  | wasmRuntime
  | wasmSerialization
  | overlappingMemory
  | cryptoApi
  | arithmetic
  deriving DecidableEq, Repr

namespace FtlException

/-- `exception::code()`. -/
def code : FtlException → Nat
  | invalidName => 20001
  | invalidAddress => 20002
  | wasmRuntime => 20003
  | wasmSerialization => 20004
  | overlappingMemory => 20005
  | cryptoApi => 20006
  | arithmetic => 20007

end FtlException

/-- `Runtime::Exception::Cause`. -/
inductive Cause where
  | unknown
  | accessViolation
  | stackOverflow
  | integerDivideByZeroOrIntegerOverflow
  | invalidFloatOperation
  | invokeSignatureMismatch
  | reachedUnreachable
  | indirectCallSignatureMismatch
  | undefinedTableElement
  | calledAbort
  | calledUnimplementedIntrinsic
  | outOfMemory
  | invalidSegmentOffset
  | misalignedAtomicMemoryAccess
  deriving DecidableEq, Repr

/-- What is thrown, by its class. -/
inductive Exception where
  | ftl (kind : FtlException) (what : String)
  | fatalSerialization (message : String)
  | validation (message : String)
  | runtime (cause : Cause)
  | runtimeError (what : String)
  | lengthError (what : String)
  deriving DecidableEq, Repr

/-- `WAVM_ASSERT_THROW(cond)`, given the condition and its text. -/
def wavmAssertThrow (cond : Bool) (text : String) : Except Exception Unit :=
  if cond then .ok () else .error (.runtimeError ("wavm assert: " ++ text))

/-- `FTL_ASSERT(expr, exc_type, format, ...)`, given the formatted text. -/
def ftlAssert (expr : Bool) (kind : FtlException) (what : String) : Except Exception Unit :=
  if expr then .ok () else .error (.ftl kind what)

@[simp] theorem wavmAssertThrow_eq_ok {cond : Bool} {text : String} {u : Unit} :
    wavmAssertThrow cond text = .ok u ↔ cond = true := by
  unfold wavmAssertThrow
  split <;> simp_all

@[simp] theorem ftlAssert_eq_ok {expr : Bool} {kind : FtlException} {what : String} {u : Unit} :
    ftlAssert expr kind what = .ok u ↔ expr = true := by
  unfold ftlAssert
  split <;> simp_all

end FractalWasm
