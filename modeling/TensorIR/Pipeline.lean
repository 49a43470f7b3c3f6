import TensorIR.Lowering.Demotion
import TensorIR.Lowering.Destination
import TensorIR.Lowering.Fusion
import TensorIR.Lowering.ShapeHeap
import TensorIR.Lowering.Storage
import TensorIR.Text.Blank

/-!
# The pipeline

A pipeline runs a list of passes, each on what the one before has made. The standard pipeline takes
a module down to what the virtual machine can run: fusion, demotion, destinations, storage, shapes.
On request every function is checked again after each pass.
-/

namespace TensorIR

/-- The passes that a pipeline can run, with their settings. -/
inductive Pass where
  | fusion
  | demotion
  | destinations
  | storage (target : StorageTarget)
  /-- The base of the names of the generated heap functions. -/
  | shapeHeap (base : String)
deriving DecidableEq, Repr

namespace Pass

/-- The name under which a pass is reported. -/
def name : Pass → String
  | fusion => "fma-rewrite"
  | demotion => "to-non-dataflow"
  | destinations => "call-dps-rewrite"
  | storage _ => "vm-memory-lower"
  | shapeHeap _ => "vm-shape-lower"

/-- What a pass makes of a module. -/
def run (m : Module) : Pass → Lowered Module
  | fusion => m.mapFunctions Function.fuse
  | demotion => m.mapFunctions Function.demote
  | destinations => m.mapFunctions Function.allocateOutputs
  | storage target => m.mapFunctions (Function.placeTensors target)
  | shapeHeap base => m.heapShapes base

end Pass

/-- The settings of a pipeline. -/
structure Config where
  /-- Whether every function is checked after each pass. -/
  verifyEach : Bool := false
  target : StorageTarget := {}
  /-- The base of the names of the generated heap functions. -/
  shapeFunction : String := "shape_func"
deriving DecidableEq, Repr

namespace Config

/-- Whether the text of a flag turns it on: all texts do but blank ones and `0`. -/
def isOn (flag : String) : Bool :=
  let word := Text.trim flag
  !word.isEmpty && word != "0"

/-- The default settings, with checks if the flag that asks for them is present and turned on. -/
def ofFlag (flag : Option String) : Config := { verifyEach := flag.any isOn }

end Config

/-- The passes to run, in order, and the settings to run them with. -/
structure Pipeline where
  config : Config
  passes : List Pass
deriving DecidableEq, Repr

namespace Pipeline

/-- All passes in the order that takes a module down to the virtual machine. -/
def standard (config : Config) : Pipeline :=
  { config,
    passes := [.fusion, .demotion, .destinations, .storage config.target,
      .shapeHeap config.shapeFunction] }

/-- The names of the passes in the order in which they run. -/
def passNames (p : Pipeline) : List String := p.passes.map Pass.name

/-- Every function that a pass has made has to be well formed. -/
def verify (pass : Pass) (m : Module) : Lowered Unit :=
  m.functions.forM fun f => f.check.mapError (.verify pass.name)

/-- Runs one pass and, if asked to, checks what it has made. -/
def runPass (config : Config) (m : Module) (pass : Pass) : Lowered Module := do
  let m ← pass.run m
  if config.verifyEach then verify pass m
  return m

/-- Runs all passes, each on what the one before has made. -/
def run (p : Pipeline) (m : Module) : Lowered Module := p.passes.foldlM (runPass p.config) m

end Pipeline

end TensorIR
