/-!
# Element types

The types that one element of a tensor can have. The set is closed: lowering has to know the width
of each of them to size the storage it allocates.
-/

namespace TensorIR

/-- The types that the elements of a tensor can have. -/
inductive ElemType where
  | bool
  | int8
  | int16
  | int32
  | int64
  | uint8
  | float16
  | float32
  | float64
deriving DecidableEq, Repr

namespace ElemType

/-- Every element type once, in the order in which they are declared. -/
def all : List ElemType := [bool, int8, int16, int32, int64, uint8, float16, float32, float64]

/-- The name of an element type in text. -/
def name : ElemType → String
  | bool => "bool"
  | int8 => "int8"
  | int16 => "int16"
  | int32 => "int32"
  | int64 => "int64"
  | uint8 => "uint8"
  | float16 => "float16"
  | float32 => "float32"
  | float64 => "float64"

/-- The width of one element in storage. -/
def bytes : ElemType → Int64
  | bool | int8 | uint8 => 1
  | int16 | float16 => 2
  | int32 | float32 => 4
  | int64 | float64 => 8

/-- Whether elements of the type are floating-point numbers. -/
def isFloat : ElemType → Bool
  | float16 | float32 | float64 => true
  | bool | int8 | int16 | int32 | int64 | uint8 => false

end ElemType

end TensorIR
