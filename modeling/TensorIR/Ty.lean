import TensorIR.ElemType

/-!
# Static types

The static type of a value: a tensor of some rank and element type, a shape value of some length,
an opaque object of the runtime, or a tuple. An absent rank or length stands for one that is not
known statically.

Two types are compatible when they agree wherever both know; the relation is not transitive, since
an unknown rank is compatible with every rank.
-/

namespace TensorIR

/-- What is known of a value: of tensors and shapes also how many dimensions they have, if that is
known. -/
inductive Ty where
  | tensor (rank : Option Nat) (elem : ElemType)
  | shape (ndim : Option Nat)
  | object
  | tuple (fields : List Ty)
deriving Repr

namespace Ty

mutual

/-- Equality of types, as a test. -/
def same : Ty → Ty → Bool
  | tensor r e, tensor r' e' => r == r' && e == e'
  | shape n, shape n' => n == n'
  | object, object => true
  | tuple fs, tuple gs => sameAll fs gs
  | _, _ => false

/-- Whether two lists of types are the same, place by place. -/
def sameAll : List Ty → List Ty → Bool
  | [], [] => true
  | f :: fs, g :: gs => f.same g && sameAll fs gs
  | _, _ => false

end

mutual

theorem same_iff : ∀ a b : Ty, a.same b = true ↔ a = b
  | tensor r e, b => by cases b <;> simp [same]
  | shape n, b => by cases b <;> simp [same]
  | object, b => by cases b <;> simp [same]
  | tuple fs, b => by cases b <;> simp [same, sameAll_iff fs]

theorem sameAll_iff : ∀ as bs : List Ty, sameAll as bs = true ↔ as = bs
  | [], bs => by cases bs <;> simp [sameAll]
  | a :: as, bs => by cases bs <;> simp [sameAll, same_iff a, sameAll_iff as]

end

instance : DecidableEq Ty := fun a b => decidable_of_iff _ (same_iff a b)

/-- The type of calls that are made for their effect: the empty tuple. -/
def unit : Ty := tuple []

/-- Whether the type is that of the empty tuple. -/
def isUnit : Ty → Bool
  | tuple [] => true
  | tensor .. | shape _ | object | tuple (_ :: _) => false

/-- The element type, if the type is that of tensors. -/
def elem? : Ty → Option ElemType
  | tensor _ e => some e
  | shape _ | object | tuple _ => none

/-- Whether two ranks or lengths agree where both are known. -/
def agree (a b : Option Nat) : Bool :=
  match a, b with
  | some m, some n => m == n
  | _, _ => true

mutual

/-- Whether two types agree wherever both know. -/
def compatible : Ty → Ty → Bool
  | tensor r e, tensor r' e' => e == e' && agree r r'
  | shape n, shape n' => agree n n'
  | object, object => true
  | tuple fs, tuple gs => compatibleAll fs gs
  | _, _ => false

/-- Whether two lists of types are of one length and compatible in each place. -/
def compatibleAll : List Ty → List Ty → Bool
  | [], [] => true
  | f :: fs, g :: gs => f.compatible g && compatibleAll fs gs
  | _, _ => false

end

mutual

/-- A type as text; an unknown number of dimensions shows as a gap or not at all. -/
def render : Ty → String
  | tensor (some r) e => "Tensor[ndim=" ++ toString r ++ ", " ++ e.name ++ "]"
  | tensor none e => "Tensor[_, " ++ e.name ++ "]"
  | shape (some n) => "Shape[" ++ toString n ++ "]"
  | shape none => "Shape"
  | object => "Object"
  | tuple fs => "(" ++ ", ".intercalate (renderAll fs) ++ ")"

/-- The texts of a list of types. -/
def renderAll : List Ty → List String
  | [] => []
  | f :: fs => f.render :: renderAll fs

end

end Ty

end TensorIR
