import Quarks.Basis.Directories
import Quarks.Http.Files

/-!
# Where the routes for files read and write

A path is walked from the working directory of the server, name by name. The routes open
paths that begin with `uploads/`, and the rest of a path comes from the client. It stays
inside the directory unless its `..` lead out of it.
-/

namespace Quarks

open Basis

/-- The texts between the slashes. -/
def components : Bytes → List Bytes
  | [] => [[]]
  | c :: s => if c = 47 then [] :: components s else (components s).modifyHead (c :: ·)

/-- What one component of a path does. -/
def hopOf (name : Bytes) : Hop Bytes :=
  if name = [] ∨ name = ascii "." then .stay else if name = ascii ".." then .up else .down name

/-- A relative path as a walk. -/
def hopsOf (path : Bytes) : List (Hop Bytes) := (components path).map hopOf

/-- The path lies inside the directory `uploads` of the working directory. -/
def InsideUploads (cwd : List Bytes) (path : Bytes) : Prop :=
  cwd ++ [uploadDir] <+: walk cwd (hopsOf path)

/-- A name, read up to its first zero, stays in the directory in which it is looked up. -/
def NameStays (cwd : List Bytes) (name : Bytes) : Prop :=
  Stays (cwd ++ [uploadDir]) (hopsOf (cstr name))

instance (cwd : List Bytes) (path : Bytes) : Decidable (InsideUploads cwd path) :=
  inferInstanceAs (Decidable (_ <+: _))

instance (cwd : List Bytes) (name : Bytes) : Decidable (NameStays cwd name) :=
  inferInstanceAs (Decidable (Stays _ _))

theorem components_append {s : Bytes} (h : 47 ∉ s) (rest : Bytes) :
    components (s ++ 47 :: rest) = s :: components rest := by
  induction s with
  | nil => simp [components]
  | cons c s ih =>
    have hc : c ≠ 47 := fun hc => h (hc ▸ List.mem_cons_self)
    have hs : 47 ∉ s := fun hs => h (List.mem_cons_of_mem c hs)
    rw [List.cons_append, components, if_neg hc, ih hs, List.modifyHead_cons]

theorem hopsOf_uploadPath (name : Bytes) :
    hopsOf (uploadPath name) = .down uploadDir :: hopsOf name := by
  have hslash : uploadPath name = uploadDir ++ 47 :: name := List.append_assoc ..
  rw [hopsOf, hslash, components_append (by decide)]
  rfl

/-- The zero that ends a path stands in the part that comes from the client. -/
theorem cstr_uploadPath (name : Bytes) : cstr (uploadPath name) = uploadPath (cstr name) := by
  rfl

/-- What is behind `uploads/` is walked from this directory. -/
theorem insideUploads_iff (cwd : List Bytes) (name : Bytes) :
    InsideUploads cwd (cstr (uploadPath name)) ↔ NameStays cwd name := by
  rw [cstr_uploadPath, InsideUploads, hopsOf_uploadPath]
  exact prefix_walk_iff _ _

/-- A name without slashes stays, unless it is `..` itself. -/
theorem nameStays_of_no_slash {cwd : List Bytes} {name : Bytes} (h : 47 ∉ cstr name)
    (hup : cstr name ≠ ascii "..") : NameStays cwd name := by
  have hsingle : ∀ s : Bytes, 47 ∉ s → components s = [s] := by
    intro s hs
    induction s with
    | nil => rfl
    | cons c s ih =>
      have hc : c ≠ 47 := fun hc => hs (hc ▸ List.mem_cons_self)
      rw [components, if_neg hc, ih fun hmem => hs (List.mem_cons_of_mem c hmem)]
      rfl
  refine stays_of_ups_eq_zero ?_
  rw [hopsOf, hsingle _ h, List.map_singleton, hopOf, if_neg hup]
  split <;> rfl

/-! ## The names that a request stands for -/

/-- The file names in the parts of an upload, as they are stored, from a number on. -/
def filenames (host : Host) (unique : Bool) (i : ℕ) (parts : List Bytes) : List Bytes :=
  (parts.filterMap partFile).mapIdx fun j file => storedFilename host unique (i + j) file.1

/-- The names up to the first one that cannot be written. -/
def tried (host : Host) : List Bytes → List Bytes
  | [] => []
  | name :: names =>
    name :: if host.canWrite (cstr (uploadPath name)) then tried host names else []

/-- The names that a request stands for. -/
def requestNames (host : Host) : FileRequest → List Bytes
  | .uploads path => [uriDecode (cstr path)]
  | .upload contentType body =>
    (uploadParts host contentType body).toOption.elim [] fun parts =>
      tried host (filenames host false 0 parts)
  | .uploadGuid contentType body =>
    (uploadParts host contentType body).toOption.elim [] fun parts =>
      tried host (filenames host true 0 parts)

/-- The loop over the parts opens the file of each name that it tries. -/
theorem saveParts_opened (host : Host) (unique : Bool) (i : ℕ) (parts : List Bytes)
    (fileNames : Bytes) : (saveParts host unique i parts fileNames).opened =
      (tried host (filenames host unique i parts)).map fun name => cstr (uploadPath name) := by
  induction parts generalizing i fileNames with
  | nil => rfl
  | cons part parts ih =>
    unfold saveParts
    cases hfile : partFile part with
    | none =>
      have hnames : filenames host unique i (part :: parts) = filenames host unique i parts := by
        rw [filenames, List.filterMap_cons_none hfile]
        rfl
      rw [hnames]
      exact ih i fileNames
    | some file =>
      have hnames : filenames host unique i (part :: parts) =
          storedFilename host unique i file.1 :: filenames host unique (i + 1) parts := by
        rw [filenames, List.filterMap_cons_some hfile, List.mapIdx_cons, filenames]
        simp only [Nat.add_right_comm i 1, Nat.add_assoc]
        rfl
      rw [hnames, tried]
      dsimp only
      split
      · simp only [List.map_cons, ih]
      · rfl

theorem fileupload_opened (host : Host) (unique : Bool) (contentType body : Bytes) :
    (fileupload host unique contentType body).opened =
      ((uploadParts host contentType body).toOption.elim [] fun parts =>
        tried host (filenames host unique 0 parts)).map fun name => cstr (uploadPath name) := by
  unfold fileupload
  cases hparts : uploadParts host contentType body with
  | ok parts => exact saveParts_opened host unique 0 parts _
  | error refused =>
    have hnothing : refused.opened = [] := by
      unfold uploadParts at hparts
      split at hparts
      · split at hparts <;> cases hparts <;> rfl
      · cases hparts
        rfl
    exact hnothing

theorem getFile_opened (host : Host) (filePath : Bytes) :
    (getFile host filePath).opened = [cstr filePath] := by
  unfold getFile
  split <;> rfl

/-- A request opens the files of the names that it stands for. -/
theorem serveFile_opened (host : Host) (r : FileRequest) :
    (serveFile host r).opened =
      (requestNames host r).map fun name => cstr (uploadPath name) := by
  cases r with
  | uploads path => exact getFile_opened host _
  | upload contentType body => exact fileupload_opened host false contentType body
  | uploadGuid contentType body => exact fileupload_opened host true contentType body

/-- A request opens files inside `uploads` only. -/
def Confined (host : Host) (cwd : List Bytes) (r : FileRequest) : Prop :=
  ∀ path ∈ (serveFile host r).opened, InsideUploads cwd path

instance (host : Host) (cwd : List Bytes) (r : FileRequest) : Decidable (Confined host cwd r) :=
  inferInstanceAs (Decidable (∀ path ∈ _, _))

/-- The files that a request opens lie inside `uploads` exactly if its names stay there. -/
theorem confined_iff (host : Host) (cwd : List Bytes) (r : FileRequest) :
    Confined host cwd r ↔ ∀ name ∈ requestNames host r, NameStays cwd name := by
  rw [Confined, serveFile_opened, List.forall_mem_map]
  exact forall₂_congr fun name _ => insideUploads_iff cwd name

/-- A machine on which every file can be written and none is there to be read. -/
def emptyHost : Host := ⟨true, fun _ => true, fun _ => none, fun _ => [], fun _ => 0⟩

/-- Encoded dots and slashes lead out of the directory. -/
theorem not_confined_encoded :
    ¬Confined emptyHost [ascii "srv"] (.uploads (ascii "%2e%2e%2fquarks.conf")) := by
  decide +kernel

end Quarks
