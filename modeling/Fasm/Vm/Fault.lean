import Fasm.Bytecode.Types

/-!
# Faults

`fault.rs`, and the other two ways in which Rust code called by the interpreter
can fail to return: a panic, and a syscall handler that ends the process.
-/

namespace Fasm

/-- `Fault`. -/
inductive Fault where
  | nullDeref | indexOutOfBounds | fieldNotFound | divisionByZero | stackOverflow
  | unwrapFault | writeAccessViolation | typeMismatch | undeclaredSlot | badSyscall
deriving DecidableEq, Repr

namespace Fault

/-- `Fault::code`. -/
def code : Fault → U32
  | nullDeref => 0x01
  | indexOutOfBounds => 0x02
  | fieldNotFound => 0x03
  | divisionByZero => 0x04
  | stackOverflow => 0x05
  | unwrapFault => 0x06
  | writeAccessViolation => 0x07
  | typeMismatch => 0x08
  | undeclaredSlot => 0x09
  | badSyscall => 0x0A

/-- `Fault::description`. -/
def description : Fault → String
  | nullDeref => "NullDerefFault"
  | indexOutOfBounds => "IndexOutOfBoundsFault"
  | fieldNotFound => "FieldNotFoundFault"
  | divisionByZero => "DivisionByZeroFault"
  | stackOverflow => "StackOverflowFault"
  | unwrapFault => "UnwrapFault"
  | writeAccessViolation => "WriteAccessViolation"
  | typeMismatch => "TypeMismatch"
  | undeclaredSlot => "UndeclaredSlot"
  | badSyscall => "BadSyscall"

/-- The `Display` text of a fault. -/
def display (f : Fault) : String := f.description ++ " (0x" ++ hex2 f.code.toNat ++ ")"

end Fault

/-- The Rust panics that the interpreter's code can reach. -/
inductive Panic where
  /-- `attempt to divide with overflow`, also for the remainder -/
  | divOverflow
  /-- division or remainder by a zero divisor -/
  | divByZero
  /-- an index past the end of a slice -/
  | indexOutOfBounds
  /-- `unwrap` on the top of an empty call stack -/
  | emptyCallStack
deriving DecidableEq, Repr

/-- Why an instruction does not complete. -/
inductive Stop where
  | fault (f : Fault)
  | panic (p : Panic)
  /-- a syscall handler called `std::process::exit` -/
  | exit (code : U32)
deriving DecidableEq, Repr

end Fasm
