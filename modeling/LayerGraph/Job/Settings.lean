import LayerGraph.Error
import LayerGraph.Job.FileStore

/-!
# Settings

What a job is told: which model to read, for which engine, where to write and how. The
format of the model follows from its file name, and so do the names of the files that are
written. `Settings.check` refuses a job before anything is read: first the model file is
looked at, then the engine, then the file of custom layers.
-/

namespace LayerGraph

/-- The engines that documents can be made for. -/
inductive Framework where
  | snn
  deriving DecidableEq

def Framework.ofName (name : String) : Except ConvertError Framework :=
  if name = "SNN" then .ok .snn else .error (.invalidFramework name)

/-- The format of a model file, whatever the case of its ending. -/
def ModelFormat.ofPath? (path : String) : Option ModelFormat :=
  match Path.fileName? path with
  | none => none
  | some name =>
    let ending := (name.map Char.toLower).reverse
    if ".h5".toList.reverse.isPrefixOf ending then some .keras
    else if ".onnx".toList.reverse.isPrefixOf ending then some .onnx
    else none

structure Settings where
  modelPath : String
  framework : String := "SNN"
  /-- Whether the weights go into a file of their own. -/
  decoupleWeights : Bool := false
  outputDir? : Option String := none
  customLayersFile : Option String := none

namespace Settings

/-! ### File names -/

/-- The part of the file names that all outputs share. -/
def stem (s : Settings) : String := ((Path.stem? s.modelPath).map String.ofList).getD "model"

/-- Where the outputs go: beside the model unless told otherwise. -/
def outputDir (s : Settings) : String := s.outputDir?.getD ((Path.parent? s.modelPath).getD "")

def documentName (s : Settings) : String :=
  s.stem ++ (if s.decoupleWeights then "_layers.json" else ".json")

def weightsName? (s : Settings) : Option String :=
  if s.decoupleWeights then some (s.stem ++ "_weights.bin") else none

/-! ### Checking -/

/-- The size of a file has to be positive. -/
def checkNotEmpty (store : FileStore) (path : String) : Except ConvertError Unit :=
  match store.read? path with
  | none => .error .file
  | some content => if content.isEmpty then .error (.emptyFile path) else .ok ()

/-- Whether a file of custom layers has the right ending. -/
def isCustomLayersName (path : String) : Bool :=
  match Path.extension? path with
  | some ext => ext.map Char.toLower = "json".toList
  | none => false

/-- The format and the engine of a job that can go ahead. -/
def check (s : Settings) (store : FileStore) : Except ConvertError (ModelFormat × Framework) := do
  if !store.isFile s.modelPath then throw (.fileNotFound s.modelPath)
  let some format := ModelFormat.ofPath? s.modelPath | throw (.invalidModelFormat s.modelPath)
  checkNotEmpty store s.modelPath
  let framework ← Framework.ofName s.framework
  match s.customLayersFile with
  | none => return (format, framework)
  | some path =>
    if !store.isFile path then throw (.fileNotFound path)
    if !isCustomLayersName path then throw (.invalidCustomLayerFile path)
    checkNotEmpty store path
    return (format, framework)

end Settings

end LayerGraph
