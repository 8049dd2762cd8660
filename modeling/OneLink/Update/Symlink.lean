/-
# Update.Symlink -- where the links of an accepted bundle lead

The system resolves a path component by component: at a link it goes on with the link's target from
the directory it is in, and `..` goes to the parent of that directory, wherever a link has led.  A
resolution stays inside the bundle if no target climbs above the root and none has a `..` behind a
component that is a link (`staysInside`); the first of these is necessary too
(`BelowRoot.of_neverLeaves`).

A chain of links that comes back to where it was is refused after the last hop (`cyclic_refused`).
-/
import OneLink.Update.Bundle

namespace OneLink.Update

open Library Library.PosixPath

set_option autoImplicit false

/-! ## The extracted tree and the system's resolution -/

inductive Entry where
  | file
  | directory
  | link (target : Text)
deriving DecidableEq

/-- A place inside the bundle: the components below its root. -/
abbrev Place := List Text

/-- A resolution under way: where it is, if inside the bundle, and the components ahead. -/
structure Walk where
  place : Option Place
  ahead : List Text
deriving DecidableEq

section Walking

variable (rows : List ManifestRow) (root : Text)

def nameOf (dir : Place) (comp : Text) : Text := join (root :: (dir ++ [comp]))

/-- What the extracted tree has under a name. -/
def entryAt (name : Text) : Option Entry :=
  match rowAt rows name with
  | some row => some (if row.kind = .symlink then .link row.target else .file)
  | none =>
    if name = manifestNameFor root then some .file
    else if (allArchiveNames rows root).any fun n => startsWith n (name ++ ['/']) then
      some .directory
    else none

/-- Going on with a link's target from the directory the link is in. -/
def follow (dir : Place) (target : Text) (rest : List Text) : Walk :=
  ⟨if startsWith target ['/'] then none else some dir, split target ++ rest⟩

/-- One component of a resolution; nothing at its end, in success or failure. -/
def osStep (w : Walk) : Option Walk :=
  match w.ahead with
  | [] => none
  | comp :: rest =>
    if comp = [] ∨ comp = dot then some ⟨w.place, rest⟩
    else
      match w.place with
      | none => none
      | some dir =>
        if comp = dotDot then some ⟨if dir = [] then none else some dir.dropLast, rest⟩
        else
          match entryAt rows root (nameOf root dir comp) with
          | some (.link target) => some (follow dir target rest)
          | some .directory => some ⟨some (dir ++ [comp]), rest⟩
          | some .file => if rest = [] then some ⟨some (dir ++ [comp]), []⟩ else none
          | none => none

/-- The resolution after a number of components. -/
def walkFrom : (steps : Nat) → Walk → Option Walk
  | 0, w => some w
  | steps + 1, w => (osStep rows root w).bind (walkFrom steps)

end Walking

/-- The directory of a member. -/
def dirOf (row : ManifestRow) : Place := (components row.path).tail.dropLast

/-- No resolution of a link comes past a place outside. -/
def NeverLeaves (rows : List ManifestRow) (root : Text) : Prop :=
  ∀ row ∈ rows, row.kind = .symlink → ∀ steps w,
    walkFrom rows root steps (follow (dirOf row) row.target []) = some w → w.place ≠ none

/-! ## What a target may say -/

section Scans

variable (rows : List ManifestRow) (root : Text)

/-- Up to its first link, a target does not climb above the root. -/
def BelowRoot : Place → List Text → Prop
  | _, [] => True
  | dir, comp :: rest =>
    if comp = [] ∨ comp = dot then BelowRoot dir rest
    else if comp = dotDot then dir ≠ [] ∧ BelowRoot dir.dropLast rest
    else
      match entryAt rows root (nameOf root dir comp) with
      | some .directory => BelowRoot (dir ++ [comp]) rest
      | _ => True

/-- Behind its first link, a target has no `..`. -/
def NoParentBehindLink : Place → List Text → Prop
  | _, [] => True
  | dir, comp :: rest =>
    if comp = [] ∨ comp = dot then NoParentBehindLink dir rest
    else if comp = dotDot then NoParentBehindLink dir.dropLast rest
    else
      match entryAt rows root (nameOf root dir comp) with
      | some .directory => NoParentBehindLink (dir ++ [comp]) rest
      | some (.link _) => dotDot ∉ rest
      | _ => True

instance instDecidableBelowRoot :
    (comps : List Text) → (dir : Place) → Decidable (BelowRoot rows root dir comps)
  | [], _ => inferInstanceAs (Decidable True)
  | comp :: rest, dir => by
    haveI := instDecidableBelowRoot rest
    unfold BelowRoot
    split
    · infer_instance
    · split
      · infer_instance
      · split <;> infer_instance

instance instDecidableNoParentBehindLink :
    (comps : List Text) → (dir : Place) → Decidable (NoParentBehindLink rows root dir comps)
  | [], _ => inferInstanceAs (Decidable True)
  | comp :: rest, dir => by
    haveI := instDecidableNoParentBehindLink rest
    unfold NoParentBehindLink
    split
    · infer_instance
    · split
      · infer_instance
      · split <;> infer_instance

end Scans

section Resolution

variable {rows : List ManifestRow} {root : Text}

theorem BelowRoot.of_names {comps : List Text} (names : dotDot ∉ comps) :
    ∀ dir, BelowRoot rows root dir comps := by
  induction comps with
  | nil => exact fun _ => trivial
  | cons comp rest ih =>
    intro dir
    rw [List.mem_cons, not_or] at names
    rw [BelowRoot]
    split
    · exact ih names.2 dir
    · split
      · rename_i isParent
        exact absurd isParent.symm names.1
      · split
        · exact ih names.2 _
        · trivial

theorem NoParentBehindLink.of_names {comps : List Text} (names : dotDot ∉ comps) :
    ∀ dir, NoParentBehindLink rows root dir comps := by
  induction comps with
  | nil => exact fun _ => trivial
  | cons comp rest ih =>
    intro dir
    rw [List.mem_cons, not_or] at names
    rw [NoParentBehindLink]
    split
    · exact ih names.2 dir
    · split
      · exact ih names.2 _
      · split
        · exact ih names.2 _
        · exact names.2
        · trivial

/-- Names behind a target do not climb. -/
theorem BelowRoot.append {rest : List Text} (names : dotDot ∉ rest) :
    ∀ {comps : List Text} {dir : Place}, BelowRoot rows root dir comps →
      BelowRoot rows root dir (comps ++ rest) := by
  intro comps
  induction comps with
  | nil => exact fun {dir} _ => BelowRoot.of_names names dir
  | cons comp comps ih =>
    intro dir below
    rw [List.cons_append]
    rw [BelowRoot] at below ⊢
    split
    · rename_i skipped
      rw [if_pos skipped] at below
      exact ih below
    · rename_i taken
      rw [if_neg taken] at below
      split
      · rename_i isParent
        rw [if_pos isParent] at below
        exact ⟨below.1, ih below.2⟩
      · rename_i isName
        rw [if_neg isName] at below
        split
        · rename_i isDirectory
          rw [isDirectory] at below
          exact ih below
        · trivial

theorem NoParentBehindLink.append {rest : List Text} (names : dotDot ∉ rest) :
    ∀ {comps : List Text} {dir : Place}, NoParentBehindLink rows root dir comps →
      NoParentBehindLink rows root dir (comps ++ rest) := by
  intro comps
  induction comps with
  | nil => exact fun {dir} _ => NoParentBehindLink.of_names names dir
  | cons comp comps ih =>
    intro dir straight
    rw [List.cons_append]
    rw [NoParentBehindLink] at straight ⊢
    split
    · rename_i skipped
      rw [if_pos skipped] at straight
      exact ih straight
    · rename_i taken
      rw [if_neg taken] at straight
      split
      · rename_i isParent
        rw [if_pos isParent] at straight
        exact ih straight
      · rename_i isName
        rw [if_neg isName] at straight
        split
        · rename_i isDirectory
          rw [isDirectory] at straight
          exact ih straight
        · rename_i isLink
          rw [isLink] at straight
          rw [List.mem_append, not_or]
          exact ⟨straight, names⟩
        · trivial

/-! ## Accepted bundles -/

/-- The manifest is accepted, and every link of it. -/
structure Accepted (int : Text → Option Int) (raw : Bytes) (root : Text) (rows : List ManifestRow) :
    Prop where
  parsed : parseBundleManifest int root raw = .ok rows
  safe : ∀ row ∈ rows, row.kind = .symlink →
    safeSymlinkTarget row (allArchiveNames rows root) root rows = .ok ()

/-- A member's name is the root's and proper components. -/
def Named (root : Text) (row : ManifestRow) : Prop := ∃ rest, components row.path = root :: rest

theorem named_of_parseRow {int : Text → Option Int} {row : ManifestRow} {line : Text}
    (ran : parseRow int root rows line = .ok row) : Named root row := by
  unfold parseRow at ran
  split at ran
  · rename_i digest kind sizeText name target _
    simp only [bind_eq_ok, validateArchiveName, require_eq_ok, exists_const] at ran
    obtain ⟨_, ⟨_, shape, _⟩, ran⟩ := ran
    split at ran
    · cases ran.2
    · simp only [bind_eq_ok, require_eq_ok, exists_const] at ran
      replace ran := ran.2
      split at ran
      · cases ran.2
      · simp only [bind_eq_ok, require_eq_ok, exists_const, pure_eq_ok_iff] at ran
        obtain ⟨_, _, _, rfl⟩ := ran
        simp only [not_or, not_not] at shape
        cases parts : components name with
        | nil =>
          rw [parts] at shape
          cases shape.2.1
        | cons first rest =>
          rw [parts, List.take_succ_cons, List.take_zero] at shape
          obtain rfl : first = root := List.head_eq_of_cons_eq shape.2.1
          exact ⟨rest, parts⟩
  · cases ran

theorem named_of_parseRows {int : Text → Option Int} {lines : List Text} :
    ∀ {rows result : List ManifestRow}, (∀ row ∈ rows, Named root row) →
      parseRows int root rows lines = .ok result → ∀ row ∈ result, Named root row := by
  induction lines with
  | nil =>
    intro rows result named ran
    obtain rfl : rows = result := Except.ok.inj ran
    exact named
  | cons line lines ih =>
    intro rows result named ran
    simp only [parseRows, bind_eq_ok] at ran
    obtain ⟨row, first, ran⟩ := ran
    refine ih (fun r isRow => ?_) ran
    rcases List.mem_append.1 isRow with early | new
    · exact named r early
    · rw [List.mem_singleton.1 new]
      exact named_of_parseRow first

theorem Accepted.named {int : Text → Option Int} {raw : Bytes} (accepted : Accepted int raw root rows) :
    ∀ row ∈ rows, Named root row := by
  have ran := accepted.parsed
  simp only [parseBundleManifest, bind_eq_ok, require_eq_ok, exists_const] at ran
  obtain ⟨_, ran⟩ := ran
  split at ran
  · cases ran
  · split at ran
    · simp only [bind_eq_ok, require_eq_ok, exists_const, pure_eq_ok_iff] at ran
      obtain ⟨_, result, ran, _, rfl⟩ := ran
      exact named_of_parseRows (fun row none => absurd none List.not_mem_nil) ran
    · cases ran

theorem Accepted.relative {int : Text → Option Int} {raw : Bytes}
    (accepted : Accepted int raw root rows) {row : ManifestRow} (isRow : row ∈ rows)
    (isLink : row.kind = .symlink) : startsWith row.target ['/'] = false := by
  have safe := accepted.safe row isRow isLink
  simp only [safeSymlinkTarget, bind_eq_ok, require_eq_ok, exists_const, not_or] at safe
  obtain ⟨⟨_, _, _, anchored⟩, _⟩ := safe
  rw [Bool.not_eq_true, windowsAnchored, decide_eq_false_iff_not, not_or] at anchored
  cases shape : row.target with
  | nil => rfl
  | cons ch rest =>
    rw [shape, List.head?_cons, Option.some.injEq] at anchored
    simp only [startsWith, List.isPrefixOf, Bool.and_true, beq_eq_false_iff_ne]
    exact Ne.symm anchored.1

/-! ## Staying inside -/

/-- Inside the bundle, with nothing ahead that leads outside. -/
structure Inside (rows : List ManifestRow) (root : Text) (w : Walk) (dir : Place) : Prop where
  here : w.place = some dir
  plainDir : ∀ comp ∈ dir, Plain comp
  single : ∀ comp ∈ w.ahead, '/' ∉ comp
  below : BelowRoot rows root dir w.ahead
  straight : NoParentBehindLink rows root dir w.ahead

theorem rowAt_eq_some {name : Text} {row : ManifestRow} (found : rowAt rows name = some row) :
    row ∈ rows ∧ row.path = name :=
  ⟨List.mem_of_find?_eq_some found, by simpa using List.find?_some found⟩

/-- The directory of a link the walk comes to is where the walk is. -/
theorem dirOf_eq {row : ManifestRow} {dir : Place} {comp : Text} (plainRoot : Plain root)
    (plainDir : ∀ c ∈ dir, Plain c) (plain : Plain comp) (path : row.path = nameOf root dir comp) :
    dirOf row = dir := by
  rw [dirOf, path, nameOf, components_join (List.cons_ne_nil _ _), List.tail_cons,
    List.dropLast_concat]
  intro c isPart
  rcases List.mem_cons.1 isPart with rfl | later
  · exact plainRoot
  · rcases List.mem_append.1 later with inDir | last
    · exact plainDir c inDir
    · rwa [List.mem_singleton.1 last]

/-- Where a link leads on. -/
theorem Inside.follow {row : ManifestRow} {dir : Place} {rest : List Text}
    (relative : startsWith row.target ['/'] = false) (plainDir : ∀ c ∈ dir, Plain c)
    (single : ∀ comp ∈ rest, '/' ∉ comp) (names : dotDot ∉ rest)
    (below : BelowRoot rows root dir (split row.target))
    (straight : NoParentBehindLink rows root dir (split row.target)) :
    Inside rows root (follow dir row.target rest) dir where
  here := if_neg (by rw [relative]; exact Bool.false_ne_true)
  plainDir := plainDir
  single comp isAhead := by
    rcases List.mem_append.1 isAhead with inTarget | inRest
    · exact not_mem_of_mem_split comp inTarget
    · exact single comp inRest
  below := below.append names
  straight := straight.append names

/-- One component keeps a resolution inside. -/
theorem Inside.osStep {w w' : Walk} {dir : Place} (inside : Inside rows root w dir)
    (plainRoot : Plain root)
    (links : ∀ row ∈ rows, row.kind = .symlink → startsWith row.target ['/'] = false ∧
      BelowRoot rows root (dirOf row) (split row.target) ∧
      NoParentBehindLink rows root (dirOf row) (split row.target))
    (stepped : osStep rows root w = some w') : ∃ dir', Inside rows root w' dir' := by
  obtain ⟨here, plainDir, single, below, straight⟩ := inside
  obtain ⟨place, ahead⟩ := w
  obtain rfl : place = some dir := here
  cases ahead with
  | nil => cases stepped
  | cons comp rest =>
    simp only [Update.osStep] at stepped
    simp only [BelowRoot] at below
    simp only [NoParentBehindLink] at straight
    simp only [List.forall_mem_cons] at single
    split at stepped
    · rename_i skipped
      rw [if_pos skipped] at below straight
      cases stepped
      exact ⟨dir, rfl, plainDir, single.2, below, straight⟩
    · rename_i taken
      rw [if_neg taken] at below straight
      rw [not_or] at taken
      have plain : Plain comp := ⟨taken.1, taken.2, single.1⟩
      split at stepped
      · rename_i isParent
        rw [if_pos isParent] at below straight
        cases stepped
        refine ⟨dir.dropLast, if_neg below.1, fun c isComp => ?_, single.2, below.2, straight⟩
        exact plainDir c (List.dropLast_subset dir isComp)
      · rename_i isName
        rw [if_neg isName] at below straight
        have plainChild : ∀ c ∈ dir ++ [comp], Plain c := by
          intro c isComp
          rcases List.mem_append.1 isComp with early | last
          · exact plainDir c early
          · rwa [List.mem_singleton.1 last]
        split at stepped
        · rename_i target found
          rw [found] at straight
          cases stepped
          rw [entryAt] at found
          split at found
          · rename_i row isRow
            obtain ⟨member, path⟩ := rowAt_eq_some isRow
            by_cases isLink : row.kind = .symlink
            · rw [if_pos isLink] at found
              cases found
              obtain ⟨relative, below', straight'⟩ := links row member isLink
              rw [dirOf_eq plainRoot plainDir plain path] at below' straight'
              exact ⟨dir, Inside.follow relative plainDir single.2 straight below' straight'⟩
            · rw [if_neg isLink] at found
              cases found
          · split at found
            · cases found
            · split at found <;> cases found
        · rename_i found
          rw [found] at below straight
          cases stepped
          exact ⟨dir ++ [comp], rfl, plainChild, single.2, below, straight⟩
        · split at stepped
          · cases stepped
            exact ⟨dir ++ [comp], rfl, plainChild, fun c none => absurd none List.not_mem_nil, trivial,
              trivial⟩
          · cases stepped
        · cases stepped

theorem Inside.walkFrom (plainRoot : Plain root)
    (links : ∀ row ∈ rows, row.kind = .symlink → startsWith row.target ['/'] = false ∧
      BelowRoot rows root (dirOf row) (split row.target) ∧
      NoParentBehindLink rows root (dirOf row) (split row.target)) {steps : Nat} :
    ∀ {w w' : Walk} {dir : Place}, Inside rows root w dir →
      walkFrom rows root steps w = some w' → ∃ dir', Inside rows root w' dir' := by
  induction steps with
  | zero =>
    intro w w' dir inside ran
    obtain rfl : w = w' := Option.some.inj ran
    exact ⟨dir, inside⟩
  | succ steps ih =>
    intro w w' dir inside ran
    simp only [Update.walkFrom, Option.bind_eq_some_iff] at ran
    obtain ⟨next, stepped, ran⟩ := ran
    obtain ⟨dir', inside'⟩ := inside.osStep plainRoot links stepped
    exact ih inside' ran

/-- A target that climbs above the root leaves the bundle. -/
theorem leaves_of_not_belowRoot {comps : List Text} :
    ∀ {dir : Place}, ¬ BelowRoot rows root dir comps →
      ∃ steps w, walkFrom rows root steps ⟨some dir, comps⟩ = some w ∧ w.place = none := by
  induction comps with
  | nil => exact fun climbs => absurd trivial climbs
  | cons comp rest ih =>
    intro dir climbs
    have further (next : Walk) (stepped : osStep rows root ⟨some dir, comp :: rest⟩ = some next)
        (leaves : ∃ steps w, walkFrom rows root steps next = some w ∧ w.place = none) :
        ∃ steps w, walkFrom rows root steps ⟨some dir, comp :: rest⟩ = some w ∧ w.place = none := by
      obtain ⟨steps, w, ran, outside⟩ := leaves
      refine ⟨steps + 1, w, ?_, outside⟩
      rw [walkFrom, stepped, Option.bind_some, ran]
    simp only [BelowRoot] at climbs
    split at climbs
    · rename_i skipped
      exact further ⟨some dir, rest⟩ (by simp only [osStep, if_pos skipped]) (ih climbs)
    · rename_i taken
      split at climbs
      · rename_i isParent
        by_cases atRoot : dir = []
        · refine further ⟨none, rest⟩ ?_ ⟨0, _, rfl, rfl⟩
          simp only [osStep, if_neg taken, if_pos isParent, if_pos atRoot]
        · refine further ⟨some dir.dropLast, rest⟩ ?_
            (ih fun below => climbs ⟨atRoot, below⟩)
          simp only [osStep, if_neg taken, if_pos isParent, if_neg atRoot]
      · rename_i isName
        split at climbs
        · rename_i isDirectory
          refine further ⟨some (dir ++ [comp]), rest⟩ ?_ (ih climbs)
          simp only [osStep, if_neg taken, if_neg isName, isDirectory]
        · exact absurd trivial climbs

theorem BelowRoot.of_neverLeaves (never : NeverLeaves rows root) {row : ManifestRow}
    (isRow : row ∈ rows) (isLink : row.kind = .symlink)
    (relative : startsWith row.target ['/'] = false) :
    BelowRoot rows root (dirOf row) (split row.target) := by
  by_contra climbs
  obtain ⟨steps, w, ran, outside⟩ := leaves_of_not_belowRoot climbs
  refine never row isRow isLink steps w ?_ outside
  rw [follow, if_neg (by rw [relative]; exact Bool.false_ne_true), List.append_nil]
  exact ran

theorem staysInside {int : Text → Option Int} {raw : Bytes} (accepted : Accepted int raw root rows)
    (straight : ∀ row ∈ rows, row.kind = .symlink →
      NoParentBehindLink rows root (dirOf row) (split row.target))
    (below : ∀ row ∈ rows, row.kind = .symlink →
      BelowRoot rows root (dirOf row) (split row.target)) : NeverLeaves rows root := by
  intro row isRow isLink steps w ran
  obtain ⟨rest, parts⟩ := accepted.named row isRow
  have plain : ∀ comp ∈ components row.path, Plain comp := fun comp => plain_of_mem_components
  rw [parts, List.forall_mem_cons] at plain
  have plainDir : ∀ comp ∈ dirOf row, Plain comp := by
    intro comp isComp
    rw [dirOf, parts, List.tail_cons] at isComp
    exact plain.2 comp (List.dropLast_subset rest isComp)
  have start : Inside rows root (follow (dirOf row) row.target []) (dirOf row) :=
    Inside.follow (accepted.relative isRow isLink) plainDir
      (fun comp none => absurd none List.not_mem_nil) List.not_mem_nil (below row isRow isLink)
      (straight row isRow isLink)
  obtain ⟨dir, inside⟩ := start.walkFrom plain.1
    (fun r isR link => ⟨accepted.relative isR link, below r isR link, straight r isR link⟩) ran
  rw [inside.here]
  exact Option.some_ne_none dir

/-! ## Chains that come back -/

/-- Where a number of hops leads. -/
def chain (rows : List ManifestRow) (root label : Text) : (hops : Nat) → Text → Option Text
  | 0, current => some current
  | hops + 1, current =>
    match hop rows root label current with
    | .ok (some next) => chain rows root label hops next
    | _ => none

/-- The chain comes back to a path it has been at. -/
def Cyclic (rows : List ManifestRow) (root label start : Text) : Prop :=
  ∃ i j x, i < j ∧ chain rows root label i start = some x ∧ chain rows root label j start = some x

variable {label : Text}

theorem chain_add {i : Nat} :
    ∀ {j : Nat} {start : Text}, chain rows root label (i + j) start =
      (chain rows root label i start).bind (chain rows root label j) := by
  induction i with
  | zero =>
    intro j start
    rw [Nat.zero_add]
    rfl
  | succ i ih =>
    intro j start
    rw [Nat.succ_add, chain, chain]
    split
    · exact ih
    · rfl

/-- A chain that comes back goes on. -/
theorem Cyclic.goes_on {start : Text} (cyclic : Cyclic rows root label start) (n : Nat) :
    chain rows root label n start ≠ none := by
  obtain ⟨i, j, x, before, first, again⟩ := cyclic
  have period : chain rows root label (j - i) x = some x := by
    rw [show j = i + (j - i) by omega, chain_add, first, Option.bind_some] at again
    exact again
  have round : ∀ q, chain rows root label ((j - i) * q) x = some x := by
    intro q
    induction q with
    | zero => rfl
    | succ q ih => rw [Nat.mul_succ, chain_add, ih, Option.bind_some, period]
  intro ended
  have later := round n
  have far : n ≤ i + (j - i) * n := by
    have grows : 1 * n ≤ (j - i) * n := Nat.mul_le_mul_right n (by omega)
    omega
  have whole : chain rows root label (i + (j - i) * n) start = some x := by
    rw [chain_add, first, Option.bind_some, later]
  rw [show i + (j - i) * n = n + (i + (j - i) * n - n) by omega, chain_add, ended] at whole
  cases whole

/-- What is resolved is where the chain ends. -/
theorem resolveFrom_ends {hops : Nat} :
    ∀ {start result : Text}, resolveFrom rows root label hops start = .ok result →
      ∃ n, chain rows root label n start = none := by
  induction hops with
  | zero =>
    intro start result ran
    cases ran
  | succ hops ih =>
    intro start result ran
    simp only [resolveFrom, bind_eq_ok] at ran
    obtain ⟨next, hopped, ran⟩ := ran
    cases next with
    | none => exact ⟨1, by rw [chain, hopped]⟩
    | some next =>
      obtain ⟨n, ended⟩ := ih ran
      exact ⟨n + 1, by rw [chain, hopped]; exact ended⟩

theorem cyclic_refused {row : ManifestRow} {allNames : List Text}
    (missing : present allNames (asPosix (relocated row)) = false)
    (cyclic : Cyclic rows root row.path (asPosix (relocated row))) :
    safeSymlinkTarget row allNames root rows ≠ .ok () := by
  intro accepted
  simp only [safeSymlinkTarget, bind_eq_ok, missing] at accepted
  obtain ⟨_, _, _, _, accepted⟩ := accepted
  rw [if_neg Bool.false_ne_true] at accepted
  simp only [bind_eq_ok] at accepted
  obtain ⟨resolved, ran, _⟩ := accepted
  obtain ⟨n, ended⟩ := resolveFrom_ends ran
  exact cyclic.goes_on n ended

end Resolution

/-- **Links of an accepted bundle.**  Where no target has a `..` behind a component that is a link,
the resolutions stay inside exactly if no target climbs above the root; a chain that has to be
followed and comes back is refused. -/
theorem links_stay_inside_iff (int : Text → Option Int) (root : Text) (rows : List ManifestRow)
    (straight : ∀ row ∈ rows, row.kind = .symlink →
      NoParentBehindLink rows root (dirOf row) (split row.target)) :
    (∀ raw, Accepted int raw root rows →
      (NeverLeaves rows root ↔ ∀ row ∈ rows, row.kind = .symlink →
        BelowRoot rows root (dirOf row) (split row.target))) ∧
    ∀ (row : ManifestRow) (allNames : List Text),
      present allNames (asPosix (relocated row)) = false →
      Cyclic rows root row.path (asPosix (relocated row)) →
        safeSymlinkTarget row allNames root rows ≠ .ok () := by
  refine ⟨fun raw accepted => ⟨fun never row isRow isLink => ?_, staysInside accepted straight⟩,
    fun row allNames missing cyclic => cyclic_refused missing cyclic⟩
  exact BelowRoot.of_neverLeaves never isRow isLink (accepted.relative isRow isLink)

/-! A bundle of one file and a link to the root; then with a second link, by way of the first. -/

/-- `int` of ASCII digits. -/
def decimal (text : Text) : Option Int :=
  if text ≠ [] ∧ text.all Char.isDigit then
    some (text.foldl (fun n ch => n * 10 + (ch.toNat - 48)) 0)
  else none

def sampleRoot : Text := "OneLink".toList

def sampleDigest : Text := List.replicate 64 '0'

def sampleFile : ManifestRow := ⟨sampleDigest, .file, 1, "OneLink/a/b/x".toList, []⟩

def sampleUp : ManifestRow := ⟨sampleDigest, .symlink, 5, "OneLink/a/b/up".toList, "../..".toList⟩

def sampleEscape : ManifestRow :=
  ⟨sampleDigest, .symlink, 7, "OneLink/a/b/esc".toList, "up/../x".toList⟩

def lineOf (row : ManifestRow) (kind size : String) : Text :=
  ['\t'].intercalate [row.digest, kind.toList, size.toList, row.path, row.target]

def rawOf (lines : List Text) : Bytes :=
  utf8 (String.ofList (['\n'].intercalate (archiveManifestHeader :: lines)))

/-- A manifest is read line by line. -/
theorem parse_rawOf {int : Text → Option Int} {root : Text} {lines : List Text}
    {rows : List ManifestRow}
    (small : rawOf lines ≠ [] ∧ (rawOf lines).length ≤ maxArchiveManifestBytes)
    (apart : splitlines [] (['\n'].intercalate (archiveManifestHeader :: lines)) =
      archiveManifestHeader :: lines)
    (ran : parseRows int root [] lines = .ok rows) (nonempty : rows ≠ []) :
    parseBundleManifest int root (rawOf lines) = .ok rows := by
  have text : decodeUtf8 (rawOf lines) =
      some (String.ofList (['\n'].intercalate (archiveManifestHeader :: lines))) :=
    decodeUtf8_eq_some.2 rfl
  have fits : ¬ (rawOf lines = [] ∨ (rawOf lines).length > maxArchiveManifestBytes) := by
    rw [not_or]
    exact ⟨small.1, Nat.not_lt.2 small.2⟩
  rw [parseBundleManifest, require_of fits, ok_bind, text]
  simp only [String.toList_ofList, apart, require_of, ok_bind, ran]
  rw [require_of nonempty]
  rfl

theorem accepted_up : Accepted decimal (rawOf [lineOf sampleFile "FILE" "1", lineOf sampleUp "SYMLINK" "5"])
    sampleRoot [sampleFile, sampleUp] where
  parsed := parse_rawOf (by decide +kernel) (by decide +kernel) (by decide +kernel) (by decide)
  safe := by decide +kernel

/-- The link to the root stays inside. -/
theorem links_stay_inside_up : NeverLeaves [sampleFile, sampleUp] sampleRoot :=
  ((links_stay_inside_iff decimal sampleRoot [sampleFile, sampleUp] (by decide +kernel)).1 _
    accepted_up).2 (by decide +kernel)

theorem accepted_escape :
    Accepted decimal
      (rawOf [lineOf sampleFile "FILE" "1", lineOf sampleUp "SYMLINK" "5",
        lineOf sampleEscape "SYMLINK" "7"])
      sampleRoot [sampleFile, sampleUp, sampleEscape] where
  parsed := parse_rawOf (by decide +kernel) (by decide +kernel) (by decide +kernel) (by decide)
  safe := by decide +kernel

/-- The second link goes by the first to the root, and from there to its parent. -/
theorem link_leaves_bundle :
    Accepted decimal
        (rawOf [lineOf sampleFile "FILE" "1", lineOf sampleUp "SYMLINK" "5",
          lineOf sampleEscape "SYMLINK" "7"])
        sampleRoot [sampleFile, sampleUp, sampleEscape] ∧
      ¬ NeverLeaves [sampleFile, sampleUp, sampleEscape] sampleRoot := by
  refine ⟨accepted_escape, fun never => ?_⟩
  have outside := never sampleEscape (by decide) rfl 4 ⟨none, ["x".toList]⟩ (by decide +kernel)
  exact outside rfl

end OneLink.Update
