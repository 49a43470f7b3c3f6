import TensorIR.Builder

/-!
# Errors of lowering

Why a pass gives up on a function. Positions of bindings count over all blocks in program order,
from zero.
-/

namespace TensorIR

/-- What can be wrong with the arguments or the attributes of an abstract call. -/
inductive CallFault where
  | dpsArity (found : Nat)
  | dpsShape
  | dpsCallee
  | dpsInputs
  | allocArguments
  | allocElem
  | packedArity (found : Nat)
  | packedCallee
  | packedInputs
deriving DecidableEq, Repr

/-- The text with which the fault is reported. -/
def CallFault.message : CallFault → String
  | dpsArity found => "call_dps expects 3 arguments, found " ++ toString found
  | dpsShape => "call_dps output shape is not a shape expression"
  | dpsCallee => "call_dps callee is not an extern function"
  | dpsInputs => "call_dps inputs are not a tuple"
  | allocArguments => "alloc_tensor expects a single shape argument"
  | allocElem => "alloc_tensor is missing its dtype attribute"
  | packedArity found => "call_packed expects 3 arguments, found " ++ toString found
  | packedCallee => "call_packed callee is not an extern function"
  | packedInputs => "call_packed inputs are not a tuple"

/-- Why a pass or the pipeline fails. -/
inductive LoweringError where
  | malformedCall (function : String) (binding : Nat) (fault : CallFault)
  /-- A dataflow variable has no plain variable to stand for it. -/
  | unconvertedDataflowVar (function var : String)
  /-- No parameter and no pattern binds a dimension variable. -/
  | unboundDimVar (function var : String)
  /-- The value of a dimension variable is needed before it is stored. -/
  | dimVarNotReady (function var : String)
  /-- The builder refuses what the pass emits. -/
  | build (function : String) (e : BuildError)
  /-- What a pass made is not well formed. -/
  | verify (pass : String) (e : ScopeError)
  /-- The function refers to an identifier that it does not allocate. Only functions that were never
  checked do. -/
  | unallocated (id : Unallocated)
deriving DecidableEq, Repr

/-- The text with which the failure of a pass is reported. -/
def LoweringError.message : LoweringError → String
  | malformedCall function binding fault => "malformed call at binding " ++ toString binding ++
      " of `" ++ function ++ "`: " ++ fault.message
  | unconvertedDataflowVar function var => "dataflow var `" ++ var ++ "` in `" ++ function ++
      "` was not converted to a plain var"
  | unboundDimVar function var => "shape variable `" ++ var ++ "` in `" ++ function ++
      "` is not bound by a parameter or match_shape"
  | dimVarNotReady function var => "shape variable `" ++ var ++ "` in `" ++ function ++
      "` is read before its value is stored"
  | build function _ => "rebuilding `" ++ function ++ "` failed"
  | verify pass _ => "IR check after pass `" ++ pass ++ "` failed"
  | unallocated id => id.message

/-- The result of a pass on one function or on a module. -/
abbrev Lowered (α : Type) := Except LoweringError α

/-- The result of an operation of the builder in a pass on the function of the given name. -/
def building {α : Type} (function : String) (result : Except BuildError α) : Lowered α :=
  result.mapError (.build function)

/-- A lookup as a step of a pass, where a missing record is a failure of the pass. -/
def looking {α : Type} (result : Except Unallocated α) : Lowered α :=
  result.mapError .unallocated

end TensorIR
