import LayerGraph.Job.Output
import LayerGraph.Proofs.NameList

/-!
# File systems that can be relied on

Whoever writes files relies on little: a step that succeeds touches one file, a step that fails
touches none, and in one directory different names are different files. This is said of the files
and not of the paths (`LayerGraph.FileView`), since one file can have many paths, and a path that
leads nowhere may lead to a file as soon as a directory is made on the way.

A store is such a file system (`LayerGraph.FileStore.lawful_fileSystem`): it can be changed where it
has no directory, and where paths lead depends on its directories alone. So is a table of contents
by path, in which any step may fail for no reason (`LayerGraph.FileSystem.lawful_gated`).
-/

namespace LayerGraph

/-! ### Files -/

/-- A name that stands for a file in a directory. -/
structure IsFileName (name : String) : Prop where
  single : '/' ∉ name.toList
  proper : name ∉ ["", ".", ".."]

/-- **How files are seen**: which file a path leads to, whether or not it is there, and what the
files hold. -/
structure FileView (σ φ : Type) where
  file? : σ → String → Option φ
  content? : σ → φ → Option Bytes

variable {σ φ : Type}

namespace FileView

/-- A path leads to a file with some content. -/
def Holds (V : FileView σ φ) (files : σ) (path : String) (content : Bytes) : Prop :=
  ∃ x, V.file? files path = some x ∧ V.content? files x = some content

/-- **One file has changed**, and all paths lead where they led. -/
structure Updates (V : FileView σ φ) (files files' : σ) (path : String) (content : Option Bytes) :
    Prop where
  leads : V.file? files' = V.file? files
  changed : ∃ x, V.file? files path = some x ∧ V.content? files' x = content ∧
    ∀ y, y ≠ x → V.content? files' y = V.content? files y

end FileView

/-- **What is expected of a file system.** Making directories changes no file. Whatever is written
or removed is the file that the path leads to, and no other. In one directory, different names are
different files. -/
structure FileSystem.Lawful (fs : FileSystem σ) (V : FileView σ φ) : Prop where
  makeDirs : ∀ files path x, V.content? (fs.makeDirs files path).1 x = V.content? files x
  write : ∀ {files files' path content}, fs.write? files path content = some files' →
    V.Updates files files' path (some content)
  remove : ∀ {files files' path}, fs.remove? files path = some files' →
    V.Updates files files' path none
  names : ∀ {files dir a b x}, IsFileName a → IsFileName b →
    V.file? files (Path.join dir a) = some x → V.file? files (Path.join dir b) = some x → a = b

/-! ### Names -/

section Names

variable {sep : Char} {cs p : List Char}

theorem not_mem_of_mem_pieces (h : p ∈ pieces sep cs) : sep ∉ p := by
  induction cs generalizing p with
  | nil =>
    rw [List.mem_singleton.mp h]
    exact List.not_mem_nil
  | cons c cs ih =>
    rw [pieces] at h
    split at h
    · rcases List.mem_cons.mp h with rfl | h
      · exact List.not_mem_nil
      · exact ih h
    · next hc =>
      split at h
      · rw [List.mem_singleton.mp h]
        simpa using Ne.symm hc
      · next q qs hq =>
        rcases List.mem_cons.mp h with rfl | h
        · refine fun hmem => (List.mem_cons.mp hmem).elim (fun h => hc h.symm) (ih ?_)
          rw [hq]
          exact List.mem_cons_self
        · refine ih ?_
          rw [hq]
          exact List.mem_cons_of_mem _ h

theorem Path.fileName?_single {path : String} (h : fileName? path = some p) : '/' ∉ p := by
  have hlast := (Option.filter_eq_some_iff.mp h).1
  have hbody : p ∈ body path.toList := List.mem_of_getLast? hlast
  rw [body, trimIdle, List.mem_reverse] at hbody
  exact not_mem_of_mem_pieces (List.mem_reverse.mp (List.dropWhile_subset _ hbody))

theorem Path.subset_of_cutAtDot? {name before after : List Char}
    (h : cutAtDot? name = some (before, after)) : before ⊆ name := by
  rw [cutAtDot?] at h
  split at h
  · cases h
  · cases h
  · next cs hd =>
    obtain ⟨rfl, -⟩ := Prod.mk.inj (Option.some.inj h)
    intro x hx
    have hmem : x ∈ name.reverse.dropWhile (· ≠ '.') := by
      rw [hd]
      exact List.mem_cons_of_mem _ (List.mem_reverse.mp hx)
    exact List.mem_reverse.mp (List.dropWhile_subset _ hmem)

/-- The name of a file is the last piece of its path, whatever the directory. -/
theorem Path.exists_pieces_join (dir : String) : ∃ ps, ∀ name : String, '/' ∉ name.toList →
    pieces '/' (join dir name).toList = ps ++ [name.toList] := by
  have hcut : ∀ (front : List Char) (name : String), '/' ∉ name.toList →
      pieces '/' (front ++ '/' :: name.toList) = pieces '/' front ++ [name.toList] := by
    intro front name hname
    rw [pieces_eq_splitOn, pieces_eq_splitOn, ← List.splitOn_eq_singleton hname]
    exact List.splitOnP_append_cons front name.toList (beq_self_eq_true '/')
  by_cases hempty : dir = ""
  · refine ⟨[], fun name hname => ?_⟩
    rw [join, if_pos (by simp [hempty]), hempty, String.empty_append, pieces_eq_splitOn,
      List.splitOn_eq_singleton hname, List.nil_append]
  · by_cases hlast : dir.toList.getLast? = some '/'
    · obtain ⟨front, hfront⟩ := List.getLast?_eq_some_iff.mp hlast
      refine ⟨pieces '/' front, fun name hname => ?_⟩
      rw [join, if_pos (by simp [hlast]), String.toList_append, hfront, List.append_assoc]
      exact hcut front name hname
    · refine ⟨pieces '/' dir.toList, fun name hname => ?_⟩
      rw [join, if_neg (by simp [hempty, hlast]), String.toList_append, String.toList_append,
        List.append_assoc]
      exact hcut dir.toList name hname

end Names

/-! ### Stores are file systems -/

def FileItem.content? : FileItem → Option Bytes
  | .file content => some content
  | .dir => none

namespace FileStore

variable {store store' : FileStore} {place q : Place} {item : FileItem} {path : String}
  {content : Bytes}

/-- The content of the file at a place. -/
def contentAt? (store : FileStore) (place : Place) : Option Bytes :=
  (store.item? place).bind FileItem.content?

/-- The files of a store are known by their places. -/
def view : FileView FileStore Place := ⟨place?, contentAt?⟩

theorem ne_nil_of_isDir (h : store.isDir place = false) : place ≠ [] := by
  rintro rfl
  cases h

/-- What is not at a place is not lost with it. -/
theorem find?_filter_place (items : List (Place × FileItem)) (place q : Place) :
    (items.filter fun p => p.1 ≠ place).find? (fun p => p.1 = q) =
      if q = place then none else items.find? fun p => p.1 = q := by
  rw [List.find?_filter]
  split
  · next heq => exact List.find?_eq_none.mpr fun p _ => by simp [heq]
  · next hne =>
    congr 1
    funext p
    by_cases hp : p.1 = q <;> simp [hp, hne]

theorem item?_put (hplace : place ≠ []) (store : FileStore) (item : FileItem) (q : Place) :
    (store.put place item).item? q = if q = place then some item else store.item? q := by
  by_cases hq : q = []
  · subst hq
    rw [if_neg (Ne.symm hplace)]
    rfl
  · rw [item?, item?, if_neg hq, if_neg hq, put, List.find?_append, find?_filter_place]
    by_cases heq : q = place
    · simp [heq]
    · simp [heq, Ne.symm heq]

theorem item?_delete (hplace : place ≠ []) (store : FileStore) (q : Place) :
    (store.delete place).item? q = if q = place then none else store.item? q := by
  by_cases hq : q = []
  · subst hq
    rw [if_neg (Ne.symm hplace)]
    rfl
  · rw [item?, item?, if_neg hq, if_neg hq, delete, find?_filter_place]
    split <;> rfl

/-- Where paths lead depends on the directories alone. -/
theorem walk?_congr (h : store.isDir = store'.isDir) (place : Place) (cs : List (List Char)) :
    store.walk? place cs = store'.walk? place cs := by
  induction cs generalizing place with
  | nil => rfl
  | cons c cs ih => simp only [walk?, h, ih]

theorem place?_congr (h : store.isDir = store'.isDir) : store.place? = store'.place? := by
  funext path
  simp only [place?, walk?_congr h]

/-- **A change at one place that is no directory** leaves all paths leading where they led. -/
theorem updates_of_item? (item : Option FileItem) (hpath : store.place? path = some place)
    (hbefore : store.isDir place = false) (hitem : item ≠ some .dir)
    (hafter : ∀ q, store'.item? q = if q = place then item else store.item? q) :
    view.Updates store store' path (item.bind FileItem.content?) where
  leads := by
    refine place?_congr (funext fun q => ?_)
    rw [isDir, hafter]
    split
    · next hq => rw [hq, hbefore, decide_eq_false hitem]
    · rfl
  changed := by
    refine ⟨place, hpath, ?_, fun q hq => ?_⟩
    · change contentAt? store' place = _
      rw [contentAt?, hafter, if_pos rfl]
    · change contentAt? store' q = contentAt? store q
      rw [contentAt?, contentAt?, hafter, if_neg hq]

/-- Directories are made where nothing was. -/
theorem contentAt?_makeAlong (store : FileStore) (place : Place) (cs : List (List Char))
    (q : Place) : (store.makeAlong place cs).1.contentAt? q = store.contentAt? q := by
  induction cs generalizing store place with
  | nil => rfl
  | cons c cs ih =>
    rw [makeAlong]
    split
    · rfl
    · next place' _ =>
      split
      · exact ih store place'
      · rfl
      · next hnone =>
        have hplace : place' ≠ [] := by
          rintro rfl
          cases hnone
        rw [ih, contentAt?, contentAt?, item?_put hplace]
        by_cases hq : q = place'
        · rw [if_pos hq, hq, hnone]
          rfl
        · rw [if_neg hq]

theorem contentAt?_makeDirs (store : FileStore) (path : String) (q : Place) :
    (store.makeDirs path).1.contentAt? q = store.contentAt? q := by
  rw [makeDirs]
  split
  · rfl
  · split
    · rfl
    · dsimp only
      split
      · exact contentAt?_makeAlong store [] _ q
      · exact contentAt?_makeAlong store [] _ q

theorem walk?_concat (store : FileStore) (place : Place) (cs : List (List Char)) (c : List Char) :
    store.walk? place (cs ++ [c]) =
      (store.walk? place cs).bind fun q => if store.isDir q then stepTo? q c else none := by
  induction cs generalizing place with
  | nil =>
    rw [List.nil_append, walk?, walk?, Option.bind_some]
    split
    · cases stepTo? place c <;> rfl
    · rfl
  | cons d cs ih =>
    rw [List.cons_append, walk?, walk?]
    split
    · cases stepTo? place d with
      | none => rfl
      | some q => exact ih q
    · rfl

/-- A file name leads to a place of that name. -/
theorem stepTo?_eq_some {name : String} (hname : IsFileName name)
    (h : stepTo? place name.toList = some q) : q = place ++ [name.toList] := by
  have hproper : name.toList ∉ [[], ['.'], ['.', '.']] := by
    intro hmem
    refine hname.proper ?_
    rw [← String.ofList_toList (s := name)]
    exact List.mem_map_of_mem (f := String.ofList) hmem
  simp only [List.mem_cons, List.not_mem_nil, or_false, not_or] at hproper
  obtain ⟨hempty, hdot, hdots⟩ := hproper
  rw [stepTo?, Path.isIdle] at h
  simp only [hempty, hdot, hdots, decide_false, Bool.or_self, Bool.false_eq_true, if_false] at h
  split at h
  · exact (Option.some.inj h).symm
  · cases h

/-- **Files of one directory** are places that differ in their last name. -/
theorem exists_place?_join (store : FileStore) (dir : String) : ∃ place : Option Place,
    ∀ name, IsFileName name → ∀ q, store.place? (Path.join dir name) = some q →
      ∃ p, place = some p ∧ q = p ++ [name.toList] := by
  obtain ⟨cs, hcs⟩ := Path.exists_pieces_join dir
  refine ⟨store.walk? [] cs, fun name hname q hq => ?_⟩
  rw [place?] at hq
  split at hq
  · rw [hcs name hname.single, walk?_concat, Option.bind_eq_some_iff] at hq
    obtain ⟨p, hp, hstep⟩ := hq
    split at hstep
    · exact ⟨p, hp, stepTo?_eq_some hname hstep⟩
    · cases hstep
  · cases hq

/-- **A store is a file system**, with its places as files. -/
theorem lawful_fileSystem : fileSystem.Lawful view where
  makeDirs := contentAt?_makeDirs
  write {store store' path content} h := by
    change store.write? path content = some store' at h
    rw [write?] at h
    split at h
    · cases h
    · next place hplace =>
      split at h
      · cases h
      · next hdir =>
        obtain rfl := Option.some.inj h
        rw [Bool.not_eq_true] at hdir
        exact updates_of_item? (some (.file content)) hplace hdir (by simp)
          (item?_put (ne_nil_of_isDir hdir) store _)
  remove {store store' path} h := by
    change store.remove? path = some store' at h
    rw [remove?] at h
    split at h
    · cases h
    · next place hplace =>
      split at h
      · next content hitem =>
        obtain rfl := Option.some.inj h
        have hdir : store.isDir place = false := by simp [isDir, hitem]
        exact updates_of_item? none hplace hdir (by simp)
          (item?_delete (ne_nil_of_isDir hdir) store)
      · cases h
  names {store dir a b x} ha hb hxa hxb := by
    obtain ⟨place, hplace⟩ := exists_place?_join store dir
    obtain ⟨p, hp, rfl⟩ := hplace a ha x hxa
    obtain ⟨q, hq, heq⟩ := hplace b hb _ hxb
    obtain rfl := Option.some.inj (hp.symm.trans hq)
    exact String.toList_inj.mp (List.singleton_inj.mp (List.append_cancel_left heq))

end FileStore

/-! ### A file system in which anything can fail -/

namespace FileSystem

/-- **Contents by path**, where every step is made or not as it pleases. -/
def gated (mayMake mayWrite mayRemove : (String → Option Bytes) → String → Bool) :
    FileSystem (String → Option Bytes) where
  makeDirs files path := (files, mayMake files path)
  write? files path content :=
    if mayWrite files path then some fun p => if p = path then some content else files p else none
  remove? files path :=
    if mayRemove files path then some fun p => if p = path then none else files p else none

/-- The paths are the files. -/
def pathView : FileView (String → Option Bytes) String where
  file? _ path := some path
  content? files := files

theorem updates_path (files : String → Option Bytes) (path : String) (content : Option Bytes) :
    pathView.Updates files (fun p => if p = path then content else files p) path content where
  leads := rfl
  changed := ⟨path, rfl, if_pos rfl, fun _ hne => if_neg hne⟩

theorem lawful_gated (mayMake mayWrite mayRemove : (String → Option Bytes) → String → Bool) :
    (gated mayMake mayWrite mayRemove).Lawful pathView where
  makeDirs _ _ _ := rfl
  write {files files' path content} h := by
    simp only [gated, Option.ite_none_right_eq_some, Option.some.injEq] at h
    obtain ⟨-, rfl⟩ := h
    exact updates_path files path (some content)
  remove {files files' path} h := by
    simp only [gated, Option.ite_none_right_eq_some, Option.some.injEq] at h
    obtain ⟨-, rfl⟩ := h
    exact updates_path files path none
  names {_ dir a b x} ha hb hxa hxb := by
    obtain ⟨ps, hps⟩ := Path.exists_pieces_join dir
    have hjoin : Path.join dir a = Path.join dir b := Option.some.inj (hxa.trans hxb.symm)
    have heq := hps a ha.single
    rw [hjoin, hps b hb.single] at heq
    exact String.toList_inj.mp (List.singleton_inj.mp (List.append_cancel_left heq.symm))

end FileSystem

end LayerGraph
