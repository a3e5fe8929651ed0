import Gcode.CommandLine.Directory

/-!
# Closed directories

A directory is closed if it has all the folders that lead to its files. Then a program file that
can be read can be written as well, and rewriting it leaves the directory closed.

## Main definitions

* `Directory.Closed` — all folders that lead to a file exist.

## Main statements

* `Directory.Closed.canWrite` — a program file that is found in a closed directory can be written.
-/

namespace Gcode

namespace Path

theorem mem_folders_of_folder? {path folder : Path} (h : path.folder? = some folder) :
    folder ∈ path.folders := by
  rw [folder?] at h
  split at h
  case isTrue => cases h
  case isFalse hne =>
    have hpos : 0 < path.parts.length := by
      cases hparts : path.parts with
      | nil => simp [hparts] at hne
      | cons part parts => simp
    obtain rfl := Option.some.inj h
    refine List.mem_map.mpr ⟨path.parts.length - 1, List.mem_range.mpr (by omega), ?_⟩
    rw [List.dropLast_eq_take]

/-- The name of a program file is no step up. -/
theorem exists_last_of_isProgram {path : Path} (h : path.isProgram = true) :
    ∃ last, path.parts.getLast? = some last ∧ last ≠ ".." := by
  rw [isProgram, ending] at h
  cases hlast : path.parts.getLast? with
  | none =>
    rw [hlast] at h
    revert h
    decide
  | some last =>
    refine ⟨last, rfl, ?_⟩
    rintro rfl
    rw [hlast] at h
    revert h
    decide

end Path

namespace Directory

variable {d : Directory} {path : Path}

/-- All folders that lead to a file exist. -/
def Closed (d : Directory) : Prop := ∀ file ∈ d.files, ∀ folder ∈ file.1.folders, folder ∈ d.folders

theorem mem_files_of_read? {bytes : ByteArray} (h : d.read? path = some bytes) :
    (path, bytes) ∈ d.files := by
  obtain ⟨before, after, hfiles, -⟩ := List.lookup_eq_some_iff.mp h
  rw [hfiles]
  simp

theorem mem_replaced {bytes : ByteArray} {files : List (Path × ByteArray)}
    {file : Path × ByteArray} (h : file ∈ replaced path bytes files) :
    file ∈ files ∨ file = (path, bytes) := by
  induction files with
  | nil => exact .inr (List.mem_singleton.mp h)
  | cons first files ih =>
    rw [replaced] at h
    split at h
    · rcases List.mem_cons.mp h with rfl | h
      · exact .inr rfl
      · exact .inl (List.mem_cons_of_mem first h)
    · rcases List.mem_cons.mp h with rfl | h
      · exact .inl List.mem_cons_self
      · exact (ih h).imp_left (List.mem_cons_of_mem first)

/-- Rewriting a file leaves the directory closed. -/
theorem Closed.write (hd : d.Closed) {old : ByteArray} (h : d.read? path = some old)
    (bytes : ByteArray) : (d.write path bytes).Closed := by
  intro file hfile folder hfolder
  rcases mem_replaced hfile with hfile | rfl
  · exact hd file hfile folder hfolder
  · exact hd _ (mem_files_of_read? h) folder hfolder

/-- The last part of a path that is no step up is kept on the way. -/
theorem parts_ne_nil_of_resolve? {found : Path} (h : d.resolve? path = some found) {last : Text}
    (hlast : path.parts.getLast? = some last) (hup : last ≠ "..") : found.parts ≠ [] := by
  obtain ⟨parts, hparts⟩ := List.getLast?_eq_some_iff.mp hlast
  rw [resolve?, hparts, List.foldlM_append] at h
  obtain ⟨way, -, h⟩ := Option.bind_eq_some_iff.mp h
  have hfurther : d.further? way last = some { way with parts := way.parts ++ [last] } := by
    rw [further?, decide_eq_false hup, Bool.false_and, if_neg Bool.false_ne_true]
  rw [List.foldlM_cons, hfurther] at h
  obtain rfl := Option.some.inj h
  simp

/-- A program file that is found in a closed directory can be written. -/
theorem Closed.canWrite (hd : d.Closed) {found : Path} (hprogram : path.isProgram = true)
    (hfound : d.resolve? path = some found) {bytes : ByteArray}
    (hread : d.read? found = some bytes) : d.canWrite found = true := by
  obtain ⟨last, hlast, hup⟩ := Path.exists_last_of_isProgram hprogram
  have hne := parts_ne_nil_of_resolve? hfound hlast hup
  have hfolder : found.folder? = some { found with parts := found.parts.dropLast } := by
    simp [Path.folder?, hne]
  have hmem := hd _ (mem_files_of_read? hread) _ (Path.mem_folders_of_folder? hfolder)
  simp [Directory.canWrite, hfolder, hmem]

end Directory

end Gcode
