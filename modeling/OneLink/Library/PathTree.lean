/-
# Library.PathTree -- directories read off the names of flat files

Files are named by paths, lists of symbols with a separator between the components; no
directory is stored.  The entries of a directory are the first components of what is
left of the paths behind the directory's own (`names`).

If no path descends from another (`Independent`), walking such listings from the root
comes past every file once (`walk_perm`): behind a directory, the files are grouped by
their first component, and a component is a file or a directory but not both.
-/
import Mathlib.Data.List.Perm.Basic
import Mathlib.Data.List.Nodup

namespace OneLink.Library

set_option autoImplicit false
set_option linter.unusedSectionVars false

variable {α : Type} [DecidableEq α] (sep : α)

/-- The first component. -/
def firstPart (path : List α) : List α := path.takeWhile (· ≠ sep)

/-- What the paths in `dir` begin with; the root is `[]`. -/
def within (dir : List α) : List α := if dir = [] then [] else dir ++ [sep]

/-- The path of the entry `name` of `dir`. -/
def joinPath (dir name : List α) : List α := within sep dir ++ name

/-- `path` is an entry of `dir`, or lies below one. -/
def Inside (path dir : List α) : Prop := within sep dir <+: path

/-- The first components behind `pre`, each at its first occurrence. -/
def namesLoop (pre : List α) : List (List α) → (seen : List (List α)) → List (List α)
  | [], _ => []
  | path :: paths, seen =>
    if pre.isPrefixOf path then
      let name := firstPart sep (path.drop pre.length)
      if name = [] ∨ name ∈ seen then namesLoop pre paths seen
      else name :: namesLoop pre paths (name :: seen)
    else namesLoop pre paths seen

def names (paths : List (List α)) (dir : List α) : List (List α) :=
  namesLoop sep (within sep dir) paths []

/-- No path descends from another. -/
def Independent (paths : List (List α)) : Prop :=
  ∀ path ∈ paths, ∀ other ∈ paths, ¬ path ++ [sep] <+: other

/-- Neither empty nor with an empty component in front. -/
def Proper (path : List α) : Prop := ∀ front back, path = front ++ back →
  (front = [] ∨ ∃ dir, front = dir ++ [sep]) → firstPart sep back ≠ []

theorem firstPart_append {name back : List α} (plain : sep ∉ name)
    (ends : back = [] ∨ ∃ rest, back = sep :: rest) : firstPart sep (name ++ back) = name := by
  unfold firstPart
  induction name with
  | nil =>
    rcases ends with rfl | ⟨rest, rfl⟩
    · rfl
    · simp
  | cons a name ih =>
    have distinct : a ≠ sep := fun same => plain (same ▸ List.mem_cons_self)
    rw [List.cons_append, List.takeWhile_cons_of_pos (by simpa using distinct),
      ih fun member => plain (List.mem_cons_of_mem a member)]

/-- A path behind `dir` is its first component, or goes on behind a separator. -/
theorem firstPart_cases (path : List α) :
    sep ∉ firstPart sep path ∧ (path = firstPart sep path ∨
      ∃ rest, path = firstPart sep path ++ sep :: rest) := by
  unfold firstPart
  induction path with
  | nil => simp
  | cons a path ih =>
    by_cases same : a = sep
    · subst same
      rw [List.takeWhile_cons_of_neg (by simp)]
      exact ⟨List.not_mem_nil, .inr ⟨path, rfl⟩⟩
    · rw [List.takeWhile_cons_of_pos (by simpa using same)]
      refine ⟨?_, ?_⟩
      · intro member
        rcases List.mem_cons.mp member with here | there
        · exact same here.symm
        · exact ih.1 there
      · rcases ih.2 with whole | ⟨rest, goesOn⟩
        · exact .inl (congrArg (a :: ·) whole)
        · exact .inr ⟨rest, congrArg (a :: ·) goesOn⟩

theorem mem_namesLoop {pre name : List α} {paths seen : List (List α)} :
    name ∈ namesLoop sep pre paths seen ↔
      name ≠ [] ∧ name ∉ seen ∧ ∃ back, pre ++ back ∈ paths ∧ firstPart sep back = name := by
  induction paths generalizing seen with
  | nil => simp [namesLoop]
  | cons path paths ih =>
    rw [namesLoop]
    split
    · rename_i begins
      obtain ⟨back, rfl⟩ := List.isPrefixOf_iff_prefix.mp begins
      rw [List.drop_left]
      simp only [List.mem_cons]
      split
      · -- an empty name, or one that has been listed
        rename_i listed
        rw [ih]
        constructor
        · rintro ⟨some_name, new, other, member, first⟩
          exact ⟨some_name, new, other, .inr member, first⟩
        · rintro ⟨some_name, new, other, same | member, first⟩
          · obtain rfl := List.append_cancel_left same
            rcases listed with empty | old
            · exact absurd (first.symm.trans empty) some_name
            · exact absurd (first ▸ old) new
          · exact ⟨some_name, new, other, member, first⟩
      · rename_i fresh
        rw [not_or] at fresh
        rw [List.mem_cons, ih]
        constructor
        · rintro (rfl | ⟨some_name, new, other, member, first⟩)
          · exact ⟨fresh.1, fresh.2, back, .inl rfl, rfl⟩
          · exact ⟨some_name, fun old => new (List.mem_cons_of_mem _ old), other, .inr member,
              first⟩
        · rintro ⟨some_name, new, other, same | member, first⟩
          · obtain rfl := List.append_cancel_left same
            exact .inl first.symm
          · by_cases here : name = firstPart sep back
            · exact .inl here
            · exact .inr ⟨some_name, fun old => (List.mem_cons.mp old).elim here new, other,
                member, first⟩
    · rename_i outside
      rw [ih]
      simp only [List.mem_cons]
      constructor
      · rintro ⟨some_name, new, other, member, first⟩
        exact ⟨some_name, new, other, .inr member, first⟩
      · rintro ⟨some_name, new, other, same | member, first⟩
        · exact absurd (List.isPrefixOf_iff_prefix.mpr ⟨other, same⟩) outside
        · exact ⟨some_name, new, other, member, first⟩

theorem nodup_namesLoop (pre : List α) (paths seen : List (List α)) :
    (namesLoop sep pre paths seen).Nodup := by
  induction paths generalizing seen with
  | nil => exact List.nodup_nil
  | cons path paths ih =>
    rw [namesLoop]
    split
    · simp only
      split
      · exact ih seen
      · refine List.nodup_cons.mpr ⟨?_, ih _⟩
        intro again
        exact ((mem_namesLoop sep).mp again).2.1 List.mem_cons_self
    · exact ih seen

theorem mem_names {paths : List (List α)} {dir name : List α} :
    name ∈ names sep paths dir ↔
      name ≠ [] ∧ ∃ back, within sep dir ++ back ∈ paths ∧ firstPart sep back = name := by
  rw [names, mem_namesLoop]
  simp

/-! ## Walking -/

/-- The files met when walking from `dir`; an entry is listed with whether it is a file.
There is none when a listing fails, or when the walk goes deeper than `depth`. -/
def walk (list : List α → Option (List (List α × Bool))) :
    (depth : Nat) → (dir : List α) → Option (List (List α))
  | 0, _ => none
  | depth + 1, dir => do
    let entries ← list dir
    let parts ← entries.mapM fun entry =>
      if entry.2 then some [joinPath sep dir entry.1]
      else walk list depth (joinPath sep dir entry.1)
    return parts.flatten

theorem mapM_eq_some {β γ : Type} {f : β → Option γ} {g : β → γ} {l : List β}
    (each : ∀ b ∈ l, f b = some (g b)) : l.mapM f = some (l.map g) := by
  induction l with
  | nil => rfl
  | cons b l ih =>
    rw [List.mapM_cons, each b List.mem_cons_self,
      ih fun c member => each c (List.mem_cons_of_mem b member)]
    rfl

/-- The listings that the names and the files determine. -/
structure Lists (paths : List (List α)) (list : List α → Option (List (List α × Bool))) :
    Prop where
  /-- What lies above a file can be listed, unless it is a file itself. -/
  entries {dir : List α} : (dir = [] ∨ dir ∉ paths ∧ ∃ path ∈ paths, Inside sep path dir) →
    list dir = some ((names sep paths dir).map fun name =>
      (name, decide (joinPath sep dir name ∈ paths)))

variable {sep} {paths : List (List α)} {list : List α → Option (List (List α × Bool))}

theorem within_of_ne {dir : List α} (ne : dir ≠ []) : within sep dir = dir ++ [sep] := if_neg ne

theorem within_cases (dir : List α) : within sep dir = [] ∨ ∃ d, within sep dir = d ++ [sep] := by
  unfold within
  split
  · exact .inl rfl
  · exact .inr ⟨dir, rfl⟩

/-- What lies behind `dir` under the first component `name`. -/
def Under (sep : α) (path dir name : List α) : Prop :=
  ∃ back, path = within sep dir ++ back ∧ firstPart sep back = name

/-- What lies under a name is the entry itself, or below it. -/
theorem under_iff {path dir name : List α} (plain : sep ∉ name) (some_name : name ≠ []) :
    Under sep path dir name ↔
      path = joinPath sep dir name ∨ Inside sep path (joinPath sep dir name) := by
  have some_path : joinPath sep dir name ≠ [] := by simp [joinPath, some_name]
  rw [Inside, within_of_ne some_path, joinPath]
  constructor
  · rintro ⟨back, rfl, first⟩
    rcases (firstPart_cases sep back).2 with whole | ⟨rest, goesOn⟩
    · exact .inl (by rw [whole, first])
    · refine .inr ⟨rest, ?_⟩
      rw [goesOn, first, List.append_assoc, List.append_assoc, List.singleton_append]
  · rintro (rfl | ⟨rest, rfl⟩)
    · exact ⟨name, rfl, by simpa using firstPart_append sep plain (.inl rfl)⟩
    · exact ⟨name ++ sep :: rest, by simp, firstPart_append sep plain (.inr ⟨rest, rfl⟩)⟩

/-- **A walk meets the files below its directory.** -/
theorem walk_below (lists : Lists sep paths list) (independent : Independent sep paths)
    (proper : ∀ path ∈ paths, Proper sep path) (depth : Nat) (dir : List α)
    (listable : dir = [] ∨ dir ∉ paths ∧ ∃ path ∈ paths, Inside sep path dir)
    (deep : ∀ path ∈ paths, Inside sep path dir → path.length < (within sep dir).length + depth)
    (positive : 0 < depth) :
    ∃ met, walk sep list depth dir = some met ∧ met.Nodup ∧
      ∀ path, path ∈ met ↔ path ∈ paths ∧ Inside sep path dir := by
  induction depth generalizing dir with
  | zero => omega
  | succ depth ih =>
    -- what the walk meets under each name
    have under (name : List α) (listed : name ∈ names sep paths dir) :
        ∃ met, (if joinPath sep dir name ∈ paths then some [joinPath sep dir name]
            else walk sep list depth (joinPath sep dir name)) = some met ∧ met.Nodup ∧
          ∀ path, path ∈ met ↔ path ∈ paths ∧ Under sep path dir name := by
      obtain ⟨some_name, back, stored, rfl⟩ := (mem_names sep).mp listed
      have plain := (firstPart_cases sep back).1
      by_cases isFile : joinPath sep dir (firstPart sep back) ∈ paths
      · refine ⟨_, if_pos isFile, List.nodup_singleton _, fun path => ?_⟩
        rw [List.mem_singleton, under_iff plain some_name]
        constructor
        · rintro rfl
          exact ⟨isFile, .inl rfl⟩
        · rintro ⟨member, rfl | below⟩
          · rfl
          · rw [Inside, within_of_ne (by simp [joinPath, some_name])] at below
            exact absurd below (independent _ isFile _ member)
      · have first : Under sep (within sep dir ++ back) dir (firstPart sep back) :=
          ⟨back, rfl, rfl⟩
        rcases (under_iff plain some_name).mp first with same | below
        · exact absurd (same ▸ stored) isFile
        · have longer : (within sep (joinPath sep dir (firstPart sep back))).length =
              (within sep dir).length + (firstPart sep back).length + 1 := by
            rw [within_of_ne (by simp [joinPath, some_name]), joinPath, List.length_append,
              List.length_append, List.length_singleton]
          have some_length := List.length_pos_of_ne_nil some_name
          have shallow := deep _ stored ⟨back, rfl⟩
          have reaches := below.length_le
          obtain ⟨met, walked, once, members⟩ := ih (joinPath sep dir (firstPart sep back))
            (.inr ⟨isFile, _, stored, below⟩)
            (fun path member lower => by
              have := deep path member ⟨_, ((under_iff plain some_name).mpr (.inr lower)).choose_spec.1.symm⟩
              omega) (by omega)
          refine ⟨met, (if_neg isFile).trans walked, once, fun path => ?_⟩
          rw [members, under_iff plain some_name]
          refine and_congr_right fun member => ⟨.inr, ?_⟩
          rintro (rfl | lower)
          · exact absurd member isFile
          · exact lower
    choose! met walked once members using under
    refine ⟨(names sep paths dir).flatMap met, ?_, ?_, ?_⟩
    · have each : ∀ entry ∈ (names sep paths dir).map fun name =>
          (name, decide (joinPath sep dir name ∈ paths)),
          (if entry.2 then some [joinPath sep dir entry.1]
            else walk sep list depth (joinPath sep dir entry.1)) = some (met entry.1) := by
        intro entry member
        obtain ⟨name, listed, rfl⟩ := List.mem_map.mp member
        simpa using walked name listed
      rw [walk, lists.entries listable]
      simp only [Option.bind_eq_bind, Option.bind_some]
      rw [mapM_eq_some each, Option.bind_some, List.map_map, List.flatMap_def]
      rfl
    · refine List.nodup_flatMap.mpr ⟨once, ?_⟩
      refine (nodup_namesLoop sep _ paths []).imp_of_mem fun {name other} listed listed' ne => ?_
      intro path here there
      obtain ⟨-, back, same, first⟩ := (members name listed path).mp here
      obtain ⟨-, back', same', first'⟩ := (members other listed' path).mp there
      rw [same] at same'
      rw [List.append_cancel_left same', first'] at first
      exact ne first.symm
    · intro path
      rw [List.mem_flatMap]
      constructor
      · rintro ⟨name, listed, met_here⟩
        obtain ⟨member, back, same, -⟩ := (members name listed path).mp met_here
        exact ⟨member, back, same.symm⟩
      · rintro ⟨member, back, rfl⟩
        have some_name := proper _ member _ _ rfl (within_cases dir)
        have listed := (mem_names sep).mpr ⟨some_name, back, member, rfl⟩
        exact ⟨_, listed, (members _ listed _).mpr ⟨member, back, rfl, rfl⟩⟩

theorem exists_longer (paths : List (List α)) : ∃ bound, ∀ path ∈ paths, path.length < bound := by
  induction paths with
  | nil => exact ⟨0, fun path member => nomatch member⟩
  | cons path paths ih =>
    obtain ⟨bound, longer⟩ := ih
    refine ⟨path.length + 1 + bound, fun other member => ?_⟩
    rcases List.mem_cons.mp member with rfl | later
    · omega
    · have := longer other later
      omega

/-- **A walk from the root meets every file once.** -/
theorem walk_perm (lists : Lists sep paths list) (independent : Independent sep paths)
    (proper : ∀ path ∈ paths, Proper sep path) (distinct : paths.Nodup) :
    ∃ enough, ∀ depth ≥ enough, ∃ met, walk sep list depth [] = some met ∧ met.Perm paths := by
  obtain ⟨bound, longer⟩ := exists_longer paths
  refine ⟨bound + 1, fun depth enough => ?_⟩
  have deep : ∀ path ∈ paths, Inside sep path [] →
      path.length < (within sep ([] : List α)).length + depth := by
    intro path member _
    have := longer path member
    omega
  obtain ⟨met, walked, once, members⟩ :=
    walk_below lists independent proper depth [] (.inl rfl) deep (by omega)
  refine ⟨met, walked, (List.perm_ext_iff_of_nodup once distinct).mpr fun path => ?_⟩
  rw [members]
  exact ⟨And.left, fun member => ⟨member, List.nil_prefix⟩⟩

end OneLink.Library
