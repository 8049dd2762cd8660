/-
# Library.PosixPath -- path texts and their components

A path is a text with `/` between its components.  `components` leaves out the empty ones and the
single dots, as `PurePosixPath` does; `normpath` removes a component for each `..` behind it, without
looking what the component is.
-/
import Mathlib.Data.List.Basic

namespace OneLink.Library.PosixPath

set_option autoImplicit false

abbrev Text := List Char

def dot : Text := ['.']

def dotDot : Text := ['.', '.']

/-- `path.split("/")`. -/
def split (path : Text) : List Text := path.splitOn '/'

/-- `"/".join(parts)`. -/
def join (parts : List Text) : Text := ['/'].intercalate parts

/-- `PurePosixPath(path).parts`, for a relative path. -/
def components (path : Text) : List Text := (split path).filter fun comp => comp ≠ [] ∧ comp ≠ dot

/-- `str(PurePosixPath(..))` of relative parts. -/
def asPosix (parts : List Text) : Text := if parts = [] then dot else join parts

/-- `startswith`. -/
def startsWith (path front : Text) : Bool := front.isPrefixOf path

/-- One turn of the loop of `posixpath.normpath`, for a path with or without slashes in front. -/
def normStep (rooted : Bool) (newComps : List Text) (comp : Text) : List Text :=
  if comp = [] ∨ comp = dot then newComps
  else if comp ≠ dotDot ∨ (¬ rooted ∧ newComps = []) ∨ newComps.getLast? = some dotDot then
    newComps ++ [comp]
  else newComps.dropLast

/-- `posixpath.normpath`. -/
def normpath (path : Text) : Text :=
  if path = [] then dot
  else
    let slashes :=
      if startsWith path ['/', '/'] ∧ ¬ startsWith path ['/', '/', '/'] then 2
      else if startsWith path ['/'] then 1 else 0
    let comps := (split path).foldl (normStep (0 < slashes)) []
    let normal := List.replicate slashes '/' ++ join comps
    if normal = [] then dot else normal

/-- `posixpath.join(a, b)`. -/
def joinTwo (a b : Text) : Text :=
  if startsWith b ['/'] then b
  else if a = [] ∨ a.getLast? = some '/' then a ++ b
  else a ++ '/' :: b

/-- `posixpath.dirname`. -/
def dirname (path : Text) : Text :=
  let head := (path.reverse.dropWhile (· ≠ '/')).reverse
  if head.all (· = '/') then head else (head.reverse.dropWhile (· = '/')).reverse

/-! ## Components of joined parts -/

/-- Not empty, not a dot, and one component. -/
structure Plain (comp : Text) : Prop where
  notEmpty : comp ≠ []
  notDot : comp ≠ dot
  single : '/' ∉ comp

theorem components_join {parts : List Text} (nonempty : parts ≠ [])
    (plain : ∀ comp ∈ parts, Plain comp) : components (join parts) = parts := by
  rw [components, split, join, List.splitOn_intercalate '/' (fun comp isPart => (plain comp isPart).single)
    nonempty, List.filter_eq_self]
  intro comp isPart
  exact decide_eq_true ⟨(plain comp isPart).notEmpty, (plain comp isPart).notDot⟩

theorem not_mem_of_mem_split {path : Text} : ∀ comp ∈ split path, '/' ∉ comp := by
  induction path with
  | nil => simp [split]
  | cons c path ih =>
    rw [split, List.splitOn_cons_eq_if_modifyHead]
    split
    · rw [List.forall_mem_cons]
      exact ⟨List.not_mem_nil, ih⟩
    · rename_i other
      rw [← split]
      cases parts : split path with
      | nil => simp
      | cons first rest =>
        rw [parts, List.forall_mem_cons] at ih
        rw [List.modifyHead_cons, List.forall_mem_cons]
        refine ⟨fun inside => ?_, ih.2⟩
        rcases List.mem_cons.1 inside with same | later
        · exact other (beq_iff_eq.2 same.symm)
        · exact ih.1 later

theorem plain_of_mem_split {path comp : Text} (isComp : comp ∈ split path) (notEmpty : comp ≠ [])
    (notDot : comp ≠ dot) : Plain comp := ⟨notEmpty, notDot, not_mem_of_mem_split comp isComp⟩

theorem plain_of_mem_components {path comp : Text} (isComp : comp ∈ components path) : Plain comp := by
  obtain ⟨inSplit, kept⟩ := List.mem_filter.1 isComp
  have kept' := of_decide_eq_true kept
  exact plain_of_mem_split inSplit kept'.1 kept'.2

end OneLink.Library.PosixPath
