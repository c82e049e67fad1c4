import LayerGraph.Convert
import LayerGraph.Job.Output
import LayerGraph.Model.Computation
import LayerGraph.Model.Configuration

/-!
# Jobs

A converter holds the settings of a job and what was handed to it: a policy, custom
objects, a loader. A run uses these up as it gets to them, so a second run of the same
converter falls back on what there is without them: the standard policy, no custom
objects, and the model file itself, which only one of the formats can be read from.
-/

namespace LayerGraph

/-- A model that is ready to be read. -/
inductive Loader where
  | keras (c : Configuration)
  | onnx (m : ModelMessage)

namespace Loader

def format : Loader → ModelFormat
  | .keras _ => .keras
  | .onnx _ => .onnx

def load : Loader → Except ConvertError Network
  | .keras c => c.load
  | .onnx m => m.load.mapError .load

/-- The loader for the bytes of a model file. -/
def ofBytes (bs : Bytes) : Except ConvertError Loader :=
  match ModelMessage.decode bs with
  | .ok m => .ok (.onnx m)
  | .error e => .error (.load e)

end Loader

/-- The custom objects of a file. -/
def CustomObjects.ofFile (store : FileStore) (path : String) : Except ConvertError CustomObjects :=
  match store.readText? path with
  | none => .error .file
  | some text =>
    match CustomObjects.ofText text with
    | .ok c => .ok c
    | .error _ => .error (.invalidCustomLayerFile path)

/-- Adds the rules of a file. -/
def FusionPolicy.extendFromFile (p : FusionPolicy) (store : FileStore) (format : ModelFormat)
    (path : String) : Except ConvertError (FusionPolicy × Nat) :=
  match store.readText? path with
  | none => .error .file
  | some text => (p.extend format text).mapError .table

structure Converter where
  settings : Settings
  policy : Option FusionPolicy := none
  custom : Option CustomObjects := none
  loader : Option Loader := none

namespace Converter

/-- The custom objects of a run: those of the file that the settings name, or else those
handed over, which are used up. -/
def takeCustom (c : Converter) (store : FileStore) : Converter × Except ConvertError CustomObjects :=
  match c.settings.customLayersFile with
  | some path => (c, CustomObjects.ofFile store path)
  | none => ({ c with custom := none }, .ok (c.custom.getD {}))

/-- The loader of a run: the one handed over, which is used up, or the model file. -/
def takeLoader (c : Converter) (store : FileStore) (format : ModelFormat) :
    Converter × Except ConvertError Loader :=
  let path := c.settings.modelPath
  match c.loader with
  | some loader =>
    ({ c with loader := none },
      if loader.format = format then .ok loader else .error (.invalidModelFormat path))
  | none =>
    (c, match format with
      | .keras => .error (.noLoader format)
      | .onnx =>
        match store.read? path with
        | some bs => Loader.ofBytes bs
        | none => .error .file)

/-- The policy of a run, which is used up. -/
def takePolicy (c : Converter) : Converter × FusionPolicy :=
  ({ c with policy := none }, c.policy.getD .standard)

/-- **A run**: the converter and the store afterwards, and the paths written unless
something failed. -/
def run (c : Converter) (store : FileStore) :
    Converter × FileStore × Except ConvertError (List String) :=
  match c.settings.check store with
  | .error e => (c, store, .error e)
  | .ok (format, _) =>
    let (c, custom) := c.takeCustom store
    match custom with
    | .error e => (c, store, .error e)
    | .ok custom =>
      let (c, loader) := c.takeLoader store format
      match loader.bind Loader.load with
      | .error e => (c, store, .error e)
      | .ok network =>
        let (c, policy) := c.takePolicy
        match convert ⟨format, policy, custom⟩ network.nodes network.shapes with
        | .error e => (c, store, .error e)
        | .ok document => (c, store.writeDocument c.settings document)

end Converter

end LayerGraph
