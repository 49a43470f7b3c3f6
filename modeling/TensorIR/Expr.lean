import TensorIR.Shape
import TensorIR.Ty

/-!
# Value expressions

An expression is the right-hand side of a binding, an argument of a call, or the result of a
function. It reads variables and never defines one. A variable is an index into the list of
variables of its function; what is known of it, its annotations included, stands there and not in
the expression.

Calls are the only expressions with an effect. All that a call carries besides its arguments is its
`CallHead`: what it invokes, its attributes, and the shape and type annotated for its result.

Every constructor has decidable equality, with floats compared by their bits.
-/

namespace TensorIR

/-- A variable, as its position among those of its function. -/
structure Var where
  index : Nat
deriving DecidableEq, Repr

/-- Where a variable can be read. -/
inductive VarKind where
  /-- After its definition, to the end of the function. -/
  | plain
  /-- After its definition, to the end of the dataflow block that defines it. -/
  | dataflow
deriving DecidableEq, Repr

/-- What a function records of a variable. The name is for printing only and need not be unique. -/
structure VarInfo where
  name : String
  kind : VarKind
  shape : Option Shape
  ty : Option Ty
deriving DecidableEq, Repr

/-- Whether the variable is visible in its dataflow block only. -/
def VarInfo.isDataflow (info : VarInfo) : Bool := info.kind == .dataflow

/-- A scalar literal; a float is kept as its 64 bits. -/
inductive Const where
  | int (n : Int64)
  | float (bits : UInt64)
  | bool (b : Bool)
deriving DecidableEq, Repr

/-- The element type of a literal. Float literals stand for single precision. -/
def Const.elem : Const → ElemType
  | int _ => .int64
  | float _ => .float32
  | bool _ => .bool

/-- The built-in operators, each with the arguments that it is called with. -/
inductive Op where
  /-- Elementwise sum: `add(a, b)`. -/
  | add
  /-- Elementwise product: `multiply(a, b)`. -/
  | multiply
  /-- Elementwise `a * b + c`: `fma(a, b, c)`. -/
  | fma
  /-- A kernel fills a new output of the shape: `call_dps(shape, kernel, (inputs...))`. -/
  | callDps
  /-- A kernel fills the given tensor: `call_packed(kernel, (inputs...), out)`. -/
  | callPacked
  /-- A new tensor: `alloc_tensor(shape)`. -/
  | allocTensor
  /-- A new untyped block of storage: `vm.alloc_storage((bytes,))`. -/
  | vmAllocStorage
  /-- A typed view of a block of storage: `vm.alloc_tensor(storage, (offset,), shape)`. -/
  | vmAllocTensor
  /-- Copies dimensions of a shape value into cells of the heap: `vm.store_shape(shape, heap)`. -/
  | vmStoreShape
  /-- Reads cells of the heap back as a shape value: `vm.load_shape(heap)`. -/
  | vmLoadShape
deriving DecidableEq, Repr

namespace Op

/-- Every operator once, in the order in which they are declared. -/
def all : List Op :=
  [add, multiply, fma, callDps, callPacked, allocTensor, vmAllocStorage, vmAllocTensor,
    vmStoreShape, vmLoadShape]

/-- The name under which an operator is registered. -/
def name : Op → String
  | add => "tessel.add"
  | multiply => "tessel.multiply"
  | fma => "tessel.ewise_fma"
  | callDps => "tessel.call_dps"
  | callPacked => "tessel.call_packed"
  | allocTensor => "tessel.builtin.alloc_tensor"
  | vmAllocStorage => "tessel.vm.builtin.alloc_storage"
  | vmAllocTensor => "tessel.vm.builtin.alloc_tensor"
  | vmStoreShape => "tessel.vm.builtin.store_shape"
  | vmLoadShape => "tessel.vm.builtin.load_shape"

/-- The operator that is registered under a name. -/
def ofName? (name : String) : Option Op := all.find? fun op => op.name == name

end Op

/-! The virtual machine provides two functions under fixed symbols. -/

namespace Builtin

/-- Gives the run-time shape of a tensor. -/
def shapeOf : String := "vm.builtin.shape_of"

/-- Allocates the heap that holds shape values at run time. -/
def allocShapeHeap : String := "vm.builtin.alloc_shape_heap"

end Builtin

/-- What a call can call: an operator, a function of the host, or a function of the module. -/
inductive Callee where
  | op (op : Op)
  /-- A function that the host resolves by its symbol. -/
  | external (symbol : String)
  | global (name : String)
deriving DecidableEq, Repr

/-- The kinds of devices that storage is placed on. -/
inductive DeviceKind where
  | cpu
  | gpu
deriving DecidableEq, Repr

/-- The name of a kind of device in text. -/
def DeviceKind.name : DeviceKind → String
  | cpu => "cpu"
  | gpu => "gpu"

/-- A device of the host, numbered among those of its kind. -/
structure Device where
  kind : DeviceKind
  id : Nat
deriving DecidableEq, Repr

/-- The first processor. -/
def Device.cpu : Device := ⟨.cpu, 0⟩

/-- A dimension of a stored shape and the heap slot that it is copied to. -/
structure ShapeSlot where
  dim : Nat
  slot : Nat
deriving DecidableEq, Repr

/-- What a call says besides its arguments; each constructor belongs to the operators that read
it. -/
inductive Attrs where
  | none
  | allocTensor (elem : ElemType)
  | allocStorage (alignment : Nat) (device : Device) (elem : ElemType)
  | storeShape (entries : List ShapeSlot)
  | loadShape (slots : List Nat)
deriving DecidableEq, Repr

/-- The element type that the attributes of an allocation name. -/
def Attrs.elem? : Attrs → Option ElemType
  | allocTensor e | allocStorage _ _ e => some e
  | none | storeShape _ | loadShape _ => .none

/-- A call without its arguments: what it invokes, its attributes, and what is annotated of its
result. -/
structure CallHead where
  callee : Callee
  attrs : Attrs := .none
  shape : Option Shape := none
  ty : Option Ty := none
deriving DecidableEq, Repr

/-- An expression. Only calls carry annotations, and only they can have an effect. -/
inductive Expr where
  | var (v : Var)
  | shape (dims : Shape)
  | tuple (fields : List Expr)
  | item (tuple : Expr) (index : Nat)
  | const (c : Const)
  | external (symbol : String)
  | global (name : String)
  | call (head : CallHead) (args : List Expr)
deriving Repr

namespace Expr

/-- Induction on an expression, with the claim for each part of a tuple or call at hand. -/
@[elab_as_elim]
theorem induction {motive : Expr → Prop}
    (var : ∀ v, motive (.var v))
    (shape : ∀ dims, motive (.shape dims))
    (tuple : ∀ fields, (∀ e ∈ fields, motive e) → motive (.tuple fields))
    (item : ∀ tuple index, motive tuple → motive (.item tuple index))
    (const : ∀ c, motive (.const c))
    (external : ∀ symbol, motive (.external symbol))
    (global : ∀ name, motive (.global name))
    (call : ∀ head args, (∀ e ∈ args, motive e) → motive (.call head args))
    (e : Expr) : motive e :=
  Expr.rec (motive_2 := fun es => ∀ e ∈ es, motive e) var shape tuple item const external global
    call nofun (fun _ _ head tail => List.forall_mem_cons.2 ⟨head, tail⟩) e

mutual

/-- Equality of expressions, as a test. -/
def same : Expr → Expr → Bool
  | var v, var w => v == w
  | shape s, shape t => s == t
  | tuple fs, tuple gs => sameAll fs gs
  | item e i, item f j => i == j && e.same f
  | const c, const d => c == d
  | external s, external t => s == t
  | global m, global n => m == n
  | call h as, call k bs => h == k && sameAll as bs
  | _, _ => false

/-- Whether two lists of expressions are the same, place by place. -/
def sameAll : List Expr → List Expr → Bool
  | [], [] => true
  | e :: es, f :: fs => e.same f && sameAll es fs
  | _, _ => false

end

mutual

theorem same_iff : ∀ e f : Expr, e.same f = true ↔ e = f
  | var v, f => by cases f <;> simp [same]
  | shape s, f => by cases f <;> simp [same]
  | tuple fs, f => by cases f <;> simp [same, sameAll_iff fs]
  | item e i, f => by cases f <;> simp [same, same_iff e, and_comm]
  | const c, f => by cases f <;> simp [same]
  | external s, f => by cases f <;> simp [same]
  | global m, f => by cases f <;> simp [same]
  | call h as, f => by cases f <;> simp [same, sameAll_iff as]

theorem sameAll_iff : ∀ es fs : List Expr, sameAll es fs = true ↔ es = fs
  | [], fs => by cases fs <;> simp [sameAll]
  | e :: es, fs => by cases fs <;> simp [sameAll, same_iff e, sameAll_iff es]

end

instance : DecidableEq Expr := fun e f => decidable_of_iff _ (same_iff e f)

/-- The variable, if the expression only reads one. -/
def asVar? : Expr → Option Var
  | var v => some v
  | shape _ | tuple _ | item .. | const _ | external _ | global _ | call .. => none

/-- The dimensions, if the expression is a shape that is written out. -/
def shapeLiteral? : Expr → Option Shape
  | shape s => some s
  | var _ | tuple _ | item .. | const _ | external _ | global _ | call .. => none

/-- The head, if the expression is a call. -/
def head? : Expr → Option CallHead
  | call head _ => some head
  | var _ | shape _ | tuple _ | item .. | const _ | external _ | global _ => none

/-- A call without attributes and without annotations. -/
def ofCallee (callee : Callee) (args : List Expr) : Expr := call ⟨callee, .none, none, none⟩ args

/-- A call of an operator without annotations. -/
def ofOp (op : Op) (args : List Expr) (attrs : Attrs := .none) : Expr :=
  call ⟨.op op, attrs, none, none⟩ args

end Expr

end TensorIR
