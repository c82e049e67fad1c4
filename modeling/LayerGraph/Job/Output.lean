import LayerGraph.Document
import LayerGraph.Job.Settings

/-!
# Writing a document

The document goes into one file, and its weights into another if they are decoupled. The
weights are written first; if the document cannot be written after them, they are removed
again. The paths come back document first.

How the files are kept does not matter for this: all that is needed of them is a
`FileSystem`, and a `FileStore` is one.
-/

namespace LayerGraph

/-- A document as it is to be written under some settings. -/
def Document.under (d : Document) (s : Settings) : Document := { d with weightFile := s.weightsName? }

namespace Settings

/-- Where the document goes. -/
def documentPath (s : Settings) : String := Path.join s.outputDir s.documentName

/-- Where the weights go, if they go into a file of their own. -/
def weightsPath? (s : Settings) : Option String := s.weightsName?.map (Path.join s.outputDir)

end Settings

/-- **What is done to files.** A file that cannot be written or removed is left alone. -/
structure FileSystem (σ : Type) where
  /-- Makes a directory with all that lead to it, and says whether all of them are there.
  Directories made before a failure stay. -/
  makeDirs : σ → String → σ × Bool
  write? : σ → String → Bytes → Option σ
  remove? : σ → String → Option σ

namespace FileSystem

variable {σ : Type} (fs : FileSystem σ)

/-- Makes the directory that is written to, unless it is the current one. -/
def makeOutputDir (files : σ) (s : Settings) : σ × Bool :=
  if s.outputDir.isEmpty then (files, true) else fs.makeDirs files s.outputDir

/-- Writes the weights of a document, where they go into a file of their own. -/
def writeWeights? (files : σ) (s : Settings) (d : Document) : Option (σ × List String) :=
  match s.weightsPath? with
  | none => some (files, [])
  | some path => (fs.write? files path (weightStream d.records)).map fun files => (files, [path])

/-- Removes the files that can be removed. -/
def removeAll (files : σ) (paths : List String) : σ :=
  paths.foldl (fun files path => (fs.remove? files path).getD files) files

/-- **Writing a document**: the files afterwards, and the paths written unless something
failed. -/
def writeDocument (files : σ) (s : Settings) (d : Document) :
    σ × Except ConvertError (List String) :=
  let (files, made) := fs.makeOutputDir files s
  if !made then (files, .error .file)
  else match fs.writeWeights? files s d with
    | none => (files, .error .file)
    | some (files, written) =>
      match fs.write? files s.documentPath (Utf8.encode (d.under s).text) with
      | some files => (files, .ok (s.documentPath :: written))
      | none => (fs.removeAll files written, .error .file)

end FileSystem

namespace FileStore

/-- A store as a file system. -/
def fileSystem : FileSystem FileStore := ⟨makeDirs, write?, remove?⟩

def writeDocument (store : FileStore) (s : Settings) (d : Document) :
    FileStore × Except ConvertError (List String) :=
  fileSystem.writeDocument store s d

end FileStore

end LayerGraph
