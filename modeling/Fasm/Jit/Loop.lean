import Fasm.Jit.Agreement

/-!
# The loop of a tail call

The JIT turns a tail call of a function to itself into a jump to its start.  The parameters
get the values of the `SET_FIELD`s that stand last in the text, and the variables of the
slots stay as they are, where the interpreter starts a fresh frame.
-/

namespace Fasm

variable {ω : Type} {host : Host ω} {p : Program} {idx : Nat} {func : FunctionDef}
  {entry : JitEntry} {abi : Abi} {args : Value} {σ : Nat → View ω} {n : Nat}

section Example

end Example

end Fasm
