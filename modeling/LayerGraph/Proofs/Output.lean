import LayerGraph.Proofs.FileSystem

/-!
# What a written document leaves behind

Writing a document takes up to three steps: a directory is made, the weights are written, and the
document is written. Each of them can fail, and only if the last one does is there something to be
undone (`LayerGraph.FileSystem.Undone`).

If writing succeeds, the files hold what they should and no others have changed. If it fails, no
file has changed either, except that the weights file may be gone
(`LayerGraph.FileSystem.writeDocument_files`). It is removed because it was written, whether or not
there was one before: what an earlier job had left there is lost
(`LayerGraph.FileStore.writeDocument_loses`).
-/

namespace LayerGraph

variable {σ φ : Type}

/-! ### Where the files go -/

/-- A name with a proper ending is a file name. -/
theorem isFileName_append {stem ending : String} (hstem : '/' ∉ stem.toList)
    (hending : '/' ∉ ending.toList) (hlength : 3 ≤ ending.length) :
    IsFileName (stem ++ ending) where
  single hmem := by
    rw [String.toList_append, List.mem_append] at hmem
    exact hmem.elim hstem hending
  proper hmem := by
    have hle : ∀ name ∈ ["", ".", ".."], name.length ≤ 2 := by decide
    have := hle _ hmem
    rw [String.length_append] at this
    omega

namespace Settings

theorem stem_single (s : Settings) : '/' ∉ s.stem.toList := by
  rw [stem, Path.stem?]
  cases hname : Path.fileName? s.modelPath with
  | none => decide
  | some name =>
    have hsingle : '/' ∉ name := Path.fileName?_single hname
    rw [Option.map_some, Option.map_some, Option.getD_some, String.toList_ofList]
    cases hcut : Path.cutAtDot? name with
    | none => exact hsingle
    | some p => exact fun hmem => hsingle (Path.subset_of_cutAtDot? hcut hmem)

theorem isFileName_documentName (s : Settings) : IsFileName s.documentName := by
  rw [documentName]
  split
  · exact isFileName_append s.stem_single (by decide) (by decide)
  · exact isFileName_append s.stem_single (by decide) (by decide)

/-- **Weights go into a file of their own**, beside the document. -/
theorem of_weightsPath? {s : Settings} {path : String} (h : s.weightsPath? = some path) :
    ∃ name, path = Path.join s.outputDir name ∧ IsFileName name ∧ name ≠ s.documentName := by
  rw [weightsPath?, weightsName?] at h
  split at h
  · next hdecouple =>
    refine ⟨_, (Option.some.inj h).symm, isFileName_append s.stem_single (by decide) (by decide),
      fun heq => ?_⟩
    rw [documentName, if_pos hdecouple] at heq
    have hending := congrArg String.toList heq
    rw [String.toList_append, String.toList_append] at hending
    exact absurd (List.append_cancel_left hending) (by decide)
  · cases h

end Settings

/-! ### The steps -/

namespace FileSystem

variable {fs : FileSystem σ} {V : FileView σ φ} {files files' : σ} {s : Settings} {d : Document}
  {path : String} {paths : List String} {e : ConvertError}

/-- **A step that fails**: there is no directory to write to, or one of the files cannot be
written. -/
inductive Stops (fs : FileSystem σ) (files : σ) (s : Settings) (d : Document) : Prop
  | directory (made : (fs.makeOutputDir files s).2 = false)
  | weights {path : String} (own : s.weightsPath? = some path)
      (refused : fs.write? (fs.makeOutputDir files s).1 path (weightStream d.records) = none)
  | document {between : σ} {paths : List String}
      (before : fs.writeWeights? (fs.makeOutputDir files s).1 s d = some (between, paths))
      (refused : fs.write? between s.documentPath (Utf8.encode (d.under s).text) = none)

/-- **A weights file that has to be undone**: it was written, and the document after it was not. -/
structure Undone (fs : FileSystem σ) (files : σ) (s : Settings) (d : Document) (path : String)
    (between : σ) : Prop where
  made : (fs.makeOutputDir files s).2 = true
  own : s.weightsPath? = some path
  weights : fs.write? (fs.makeOutputDir files s).1 path (weightStream d.records) = some between
  document : fs.write? between s.documentPath (Utf8.encode (d.under s).text) = none

theorem writeWeights?_eq_some {files' : σ} (h : fs.writeWeights? files s d = some (files', paths)) :
    (s.weightsPath? = none ∧ files' = files ∧ paths = []) ∨
      ∃ path, s.weightsPath? = some path ∧ paths = [path] ∧
        fs.write? files path (weightStream d.records) = some files' := by
  rw [writeWeights?] at h
  split at h
  · next hnone =>
    obtain ⟨rfl, rfl⟩ := Prod.mk.inj (Option.some.inj h)
    exact .inl ⟨hnone, rfl, rfl⟩
  · next path hpath =>
    obtain ⟨between, hbetween, heq⟩ := Option.map_eq_some_iff.mp h
    obtain ⟨rfl, rfl⟩ := Prod.mk.inj heq
    exact .inr ⟨path, hpath, rfl, hbetween⟩

/-- **Writing fails** exactly if one of its steps does. -/
theorem exists_error_iff :
    (∃ files' e, fs.writeDocument files s d = (files', .error e)) ↔ fs.Stops files s d := by
  constructor
  · rintro ⟨files', e, h⟩
    rw [writeDocument] at h
    dsimp only at h
    split at h
    · next hmade => exact .directory (by simpa using hmade)
    · split at h
      · next hnone =>
        rw [writeWeights?] at hnone
        split at hnone
        · cases hnone
        · next path hpath => exact .weights hpath (Option.map_eq_none_iff.mp hnone)
      · next between paths hweights =>
        split at h
        · cases h
        · next hdocument => exact .document hweights hdocument
  · intro h
    cases hmade : (fs.makeOutputDir files s).2 with
    | false => simp [writeDocument, hmade]
    | true =>
      cases h with
      | directory made => cases hmade.symm.trans made
      | weights own refused => simp [writeDocument, hmade, writeWeights?, own, refused]
      | document before refused => simp [writeDocument, hmade, before, refused]

/-- **Everything that writing can do**: it stops before any file is written, it undoes the weights,
or it writes all there is to write. -/
theorem cases_of_writeDocument {r : Except ConvertError (List String)}
    (h : fs.writeDocument files s d = (files', r)) :
    (r = .error .file ∧ files' = (fs.makeOutputDir files s).1) ∨
    (r = .error .file ∧ ∃ path between, fs.Undone files s d path between ∧
      files' = (fs.remove? between path).getD between) ∨
    ∃ between paths, fs.writeWeights? (fs.makeOutputDir files s).1 s d = some (between, paths) ∧
      fs.write? between s.documentPath (Utf8.encode (d.under s).text) = some files' ∧
      r = .ok (s.documentPath :: paths) := by
  rw [writeDocument] at h
  dsimp only at h
  split at h
  · obtain ⟨rfl, rfl⟩ := Prod.mk.inj h
    exact .inl ⟨rfl, rfl⟩
  · next hmade =>
    rw [Bool.not_eq_true', Bool.not_eq_false] at hmade
    split at h
    · obtain ⟨rfl, rfl⟩ := Prod.mk.inj h
      exact .inl ⟨rfl, rfl⟩
    · next between paths hweights =>
      split at h
      · next hdocument =>
        obtain ⟨rfl, rfl⟩ := Prod.mk.inj h
        exact .inr (.inr ⟨between, paths, hweights, hdocument, rfl⟩)
      · next hdocument =>
        obtain ⟨rfl, rfl⟩ := Prod.mk.inj h
        rcases writeWeights?_eq_some hweights with ⟨-, rfl, rfl⟩ | ⟨path, hpath, rfl, hwrite⟩
        · exact .inl ⟨rfl, rfl⟩
        · exact .inr (.inl ⟨rfl, path, between, ⟨hmade, hpath, hwrite, hdocument⟩, rfl⟩)

/-- Weights that have to be undone are undone. -/
theorem Undone.writeDocument_eq {between : σ} (h : fs.Undone files s d path between) :
    fs.writeDocument files s d = ((fs.remove? between path).getD between, .error .file) := by
  obtain ⟨hmade, hown, hweights, hdocument⟩ := h
  rw [writeDocument]
  simp [hmade, writeWeights?, hown, hweights, hdocument, removeAll]

section Lawful

variable (hfs : fs.Lawful V)

include hfs

theorem Lawful.makeOutputDir (files : σ) (s : Settings) (x : φ) :
    V.content? (fs.makeOutputDir files s).1 x = V.content? files x := by
  rw [FileSystem.makeOutputDir]
  split
  · rfl
  · exact hfs.makeDirs files s.outputDir x

/-- **What an undoing leaves**: the weights file is gone, if it can be removed, and all else is as
it was. -/
theorem Undone.content?_eq {after between : σ} (h : fs.Undone files s d path between)
    (hafter : after = (fs.remove? between path).getD between) (x : φ) :
    (V.file? after path = some x → fs.remove? between path = none ∨ V.content? after x = none) ∧
      (V.file? after path ≠ some x → V.content? after x = V.content? files x) := by
  obtain ⟨hleads, y, hy, -, hsame⟩ := hfs.write h.weights
  have hdir := hfs.makeOutputDir files s
  have hy' : V.file? between path = some y := (congrFun hleads path).trans hy
  cases hremove : fs.remove? between path with
  | none =>
    obtain rfl : after = between := by rw [hafter, hremove, Option.getD_none]
    refine ⟨fun _ => .inl rfl, fun hx => ?_⟩
    have hxy : x ≠ y := fun hxy => hx (hxy ▸ hy')
    exact (hsame x hxy).trans (hdir x)
  | some files' =>
    obtain rfl : after = files' := by rw [hafter, hremove, Option.getD_some]
    obtain ⟨hleads', z, hz, hnone, hsame'⟩ := hfs.remove hremove
    obtain rfl := Option.some.inj (hz.symm.trans hy')
    have hz' : V.file? after path = some z := (congrFun hleads' path).trans hz
    refine ⟨fun hx => .inr ?_, fun hx => ?_⟩
    · rw [Option.some.inj (hx.symm.trans hz'), hnone]
    · have hxz : x ≠ z := fun hxz => hx (hxz ▸ hz')
      exact (hsame' x hxz).trans ((hsame x hxz).trans (hdir x))

/-- **What writing leaves**: the document, and the weights where they have a file of their own. -/
theorem Lawful.of_written {between : σ}
    (hweights : fs.writeWeights? (fs.makeOutputDir files s).1 s d = some (between, paths))
    (hdocument : fs.write? between s.documentPath (Utf8.encode (d.under s).text) = some files') :
    paths = s.weightsPath?.toList ∧
      V.Holds files' s.documentPath (Utf8.encode (d.under s).text) ∧
      (∀ path ∈ paths, V.Holds files' path (weightStream d.records)) ∧
      ∀ x, (∀ path ∈ s.documentPath :: paths, V.file? files' path ≠ some x) →
        V.content? files' x = V.content? files x := by
  obtain ⟨hleads, y, hy, hcontent, hsame⟩ := hfs.write hdocument
  have hdir := hfs.makeOutputDir files s
  have hy' : V.file? files' s.documentPath = some y := (congrFun hleads _).trans hy
  rcases writeWeights?_eq_some hweights with ⟨hnone, rfl, rfl⟩ | ⟨path, hpath, rfl, hwrite⟩
  · refine ⟨by rw [hnone]; rfl, ⟨y, hy', hcontent⟩, by simp, fun x hx => ?_⟩
    have hne : x ≠ y := fun h => hx _ List.mem_cons_self (h ▸ hy')
    exact (hsame x hne).trans (hdir x)
  · obtain ⟨hleads', z, hz, hcontent', hsame'⟩ := hfs.write hwrite
    have hz' : V.file? files' path = some z :=
      (congrFun hleads _).trans ((congrFun hleads' _).trans hz)
    -- the two files stand in one directory under different names
    have hzy : z ≠ y := by
      obtain ⟨name, rfl, hname, hne⟩ := Settings.of_weightsPath? hpath
      rintro rfl
      exact hne (hfs.names hname s.isFileName_documentName hz' hy')
    refine ⟨by rw [hpath]; rfl, ⟨y, hy', hcontent⟩, ?_, fun x hx => ?_⟩
    · rintro _ hmem
      obtain rfl := List.mem_singleton.mp hmem
      exact ⟨z, hz', (hsame z hzy).trans hcontent'⟩
    · have hxy : x ≠ y := fun h => hx _ List.mem_cons_self (h ▸ hy')
      have hxz : x ≠ z := fun h => hx path (by simp) (h ▸ hz')
      exact (hsame x hxy).trans ((hsame' x hxz).trans (hdir x))

/-- **What failing leaves**: all files but weights that were undone are as they were. -/
theorem Lawful.of_error (h : fs.writeDocument files s d = (files', .error e)) : e = .file ∧
    (∀ x, (∀ path between, fs.Undone files s d path between → V.file? files' path ≠ some x) →
      V.content? files' x = V.content? files x) ∧
    ∀ path between, fs.Undone files s d path between → ∀ x, V.file? files' path = some x →
      fs.remove? between path = none ∨ V.content? files' x = none := by
  have hgone : ∀ path between, fs.Undone files s d path between →
      ∀ x, V.file? files' path = some x →
        fs.remove? between path = none ∨ V.content? files' x = none := by
    intro path between hundone x hx
    have hafter := congrArg Prod.fst (h.symm.trans hundone.writeDocument_eq)
    exact (hundone.content?_eq hfs hafter x).1 hx
  rcases cases_of_writeDocument h with
    ⟨he, rfl⟩ | ⟨he, path, between, hundone, hafter⟩ | ⟨_, _, -, -, he⟩
  · exact ⟨Except.error.inj he, fun x _ => hfs.makeOutputDir files s x, hgone⟩
  · refine ⟨Except.error.inj he, fun x hx => ?_, hgone⟩
    exact (hundone.content?_eq hfs hafter x).2 (hx path between hundone)
  · cases he

/-- **What a written document leaves behind.** Writing fails only where a step does. If it succeeds,
the paths are those of the document and of the weights; they hold what they should, and no other
file has changed. If it fails, it fails for a file, and no file has changed but weights that were
undone: their file is gone, if it could be removed. So nothing has changed as long as the weights
that are undone can be removed and had no file before. -/
theorem writeDocument_files (files : σ) (s : Settings) (d : Document) :
    ((∃ files' e, fs.writeDocument files s d = (files', .error e)) ↔ fs.Stops files s d) ∧
    (∀ files' paths, fs.writeDocument files s d = (files', .ok paths) →
      paths = s.documentPath :: s.weightsPath?.toList ∧
      V.Holds files' s.documentPath (Utf8.encode (d.under s).text) ∧
      (∀ path, s.weightsPath? = some path → V.Holds files' path (weightStream d.records)) ∧
      ∀ x, (∀ path ∈ paths, V.file? files' path ≠ some x) →
        V.content? files' x = V.content? files x) ∧
    ∀ files' e, fs.writeDocument files s d = (files', .error e) → e = .file ∧
      (∀ x, (∀ path between, fs.Undone files s d path between → V.file? files' path ≠ some x) →
        V.content? files' x = V.content? files x) ∧
      (∀ path between, fs.Undone files s d path between → ∀ x, V.file? files' path = some x →
        fs.remove? between path = none ∨ V.content? files' x = none) ∧
      ((∀ path between, fs.Undone files s d path between → fs.remove? between path ≠ none ∧
          ∀ x, V.file? files' path = some x → V.content? files x = none) →
        ∀ x, V.content? files' x = V.content? files x) := by
  refine ⟨exists_error_iff, ?_, ?_⟩
  · intro files' paths h
    rcases cases_of_writeDocument h with
      ⟨h, -⟩ | ⟨h, -⟩ | ⟨between, written, hweights, hdocument, h⟩
    · cases h
    · cases h
    · obtain rfl := Except.ok.inj h
      obtain ⟨rfl, hholds, hown, hsame⟩ := hfs.of_written hweights hdocument
      refine ⟨rfl, hholds, fun path hpath => hown path ?_, hsame⟩
      rw [hpath]
      exact List.mem_cons_self
  · intro files' e h
    obtain ⟨he, hothers, hgone⟩ := hfs.of_error h
    refine ⟨he, hothers, hgone, fun hclean x => ?_⟩
    by_cases hx : ∃ path between, fs.Undone files s d path between ∧ V.file? files' path = some x
    · obtain ⟨path, between, hundone, hx⟩ := hx
      obtain ⟨hremove, hnew⟩ := hclean path between hundone
      rw [(hgone path between hundone x hx).resolve_left hremove, hnew x hx]
    · exact hothers x fun path between hundone hpath => hx ⟨path, between, hundone, hpath⟩

end Lawful

end FileSystem

/-- A job whose outputs are called after `net`. -/
def netJob (decouple : Bool) : Settings := { modelPath := "net.onnx", decoupleWeights := decouple }

def emptyDocument : Document := { records := [] }

/-- What an earlier job has left. -/
def earlierStore : FileStore := ⟨[(["net.json".toList], .file [])]⟩

/-- Where the document of a job with weights cannot be written, while anything else can be done. -/
def withoutDocument : FileSystem (String → Option Bytes) :=
  .gated (fun _ _ => true) (fun _ path => path ≠ "net_layers.json") fun _ _ => true

/-- One document replaces another, and one is given up without a trace. -/
theorem writeDocument_files_netJob :
    (∃ files', FileStore.fileSystem.writeDocument earlierStore (netJob false) emptyDocument =
        (files', .ok ["net.json"]) ∧
      FileStore.view.Holds files' "net.json"
        (Utf8.encode (emptyDocument.under (netJob false)).text)) ∧
    ∃ files', withoutDocument.writeDocument (fun _ => none) (netJob true) emptyDocument =
        (files', .error .file) ∧
      ∀ path, files' path = none := by
  constructor
  · have h : FileStore.fileSystem.writeDocument earlierStore (netJob false) emptyDocument =
        (⟨[(["net.json".toList], .file (Utf8.encode (emptyDocument.under (netJob false)).text))]⟩,
          .ok ["net.json"]) := rfl
    have hspec := FileSystem.writeDocument_files FileStore.lawful_fileSystem earlierStore
      (netJob false) emptyDocument
    exact ⟨_, h, (hspec.2.1 _ _ h).2.1⟩
  · have h : withoutDocument.writeDocument (fun _ => none) (netJob true) emptyDocument =
        (fun p => if p = "net_weights.bin" then none
          else if p = "net_weights.bin" then some [] else none, .error .file) := rfl
    have hfs : withoutDocument.Lawful FileSystem.pathView := FileSystem.lawful_gated _ _ _
    have hspec := FileSystem.writeDocument_files hfs (fun _ => none) (netJob true) emptyDocument
    refine ⟨_, h, (hspec.2.2 _ _ h).2.2.2 fun path between _ => ⟨?_, fun x _ => rfl⟩⟩
    simp [withoutDocument, FileSystem.gated]

/-- The weights of an earlier job, where the document cannot be written. -/
def earlierWeights : FileStore :=
  ⟨[(["net_weights.bin".toList], .file [1]), (["net_layers.json".toList], .dir)]⟩

/-- **The weights of an earlier job are lost**, although the job fails and can remove files. -/
theorem FileStore.writeDocument_loses :
    earlierWeights.read? "net_weights.bin" = some [1] ∧
      ∃ store, earlierWeights.writeDocument (netJob true) emptyDocument = (store, .error .file) ∧
        store.read? "net_weights.bin" = none :=
  ⟨rfl, ⟨[(["net_layers.json".toList], .dir)]⟩, rfl, rfl⟩

end LayerGraph
