/-
# Fuse.Tree -- what the callbacks infer is one tree

`ShowsTree` says what a mount is for: walking `readdir` from the root comes past every
file once, an entry tells what `getattr` tells of it, no path is a file and a directory,
and `read` returns the part of the file that was asked for.  For the callbacks that both
back ends share it follows from two properties of the keys: `canonical_path` leaves each
as it is (`Canonical`), and none descends from another.

The second is not implied by the first; the mount checks it when it takes a manifest.
-/
import OneLink.Fuse.Backend

namespace OneLink.Fuse

set_option autoImplicit false

open Library

/-! ## Canonical paths -/

/-- `canonical_path` leaves the path as it is. -/
def Canonical (path : Bytes) : Prop := canonicalPath path = .ok (some path)

instance : DecidablePred Canonical := fun path =>
  inferInstanceAs (Decidable (canonicalPath path = .ok (some path)))

theorem trimSlashes_eq_self {path : Bytes} (some_path : path ≠ [])
    (segments : ∀ part ∈ path.splitOn slash, ¬ BadSegment part) : trimSlashes path = path := by
  have front : path.dropWhile (· = slash) = path := by
    cases path with
    | nil => rfl
    | cons first rest =>
      refine List.dropWhile_cons_of_neg ?_
      intro leads
      obtain rfl : first = slash := of_decide_eq_true leads
      refine segments [] ?_ (.inl rfl)
      rw [show slash :: rest = [] ++ slash :: rest from rfl, List.splitOn_append_cons_self]
      exact List.mem_append_left _ List.mem_cons_self
  have back : path.reverse.dropWhile (· = slash) = path.reverse := by
    rcases List.eq_nil_or_concat path with rfl | ⟨start, last, rfl⟩
    · rfl
    · rw [List.concat_eq_append, List.reverse_append, List.reverse_singleton,
        List.singleton_append]
      refine List.dropWhile_cons_of_neg ?_
      intro ends
      obtain rfl : last = slash := of_decide_eq_true ends
      refine segments [] ?_ (.inl rfl)
      rw [List.concat_eq_append, List.splitOn_append_cons_self]
      exact List.mem_append_right _ List.mem_cons_self
  rw [trimSlashes, front, back, List.reverse_reverse]

theorem mem_trimSlashes {path : Bytes} {b : UInt8} (member : b ∈ trimSlashes path) : b ∈ path := by
  rw [trimSlashes, List.mem_reverse] at member
  have inner := (List.dropWhile_sublist _).mem member
  rw [List.mem_reverse] at inner
  exact (List.dropWhile_sublist _).mem inner

theorem length_trimSlashes (path : Bytes) : (trimSlashes path).length ≤ path.length := by
  rw [trimSlashes, List.length_reverse]
  calc _ ≤ (path.dropWhile (· = slash)).reverse.length := (List.dropWhile_sublist _).length_le
    _ = (path.dropWhile (· = slash)).length := List.length_reverse
    _ ≤ path.length := (List.dropWhile_sublist _).length_le

theorem canonicalPath_eq_some {path p : Bytes} : canonicalPath path = .ok (some p) ↔
    path.length ≤ MAX_FS_PATH_BYTES ∧ 0 ∉ path ∧ trimSlashes path = p ∧ p ≠ [] ∧
      ∀ part ∈ p.splitOn slash, ¬ BadSegment part := by
  unfold canonicalPath
  simp only [bind_eq_ok, require_eq_ok, exists_const]
  constructor
  · rintro ⟨short, plain, trimmed⟩
    split at trimmed
    · cases trimmed
    · rename_i some_path
      simp only [bind_eq_ok, require_eq_ok, exists_const] at trimmed
      obtain ⟨segments, same⟩ := trimmed
      cases same
      exact ⟨short, plain, rfl, some_path, segments⟩
  · rintro ⟨short, plain, rfl, some_path, segments⟩
    refine ⟨short, plain, ?_⟩
    rw [if_neg some_path, require_of segments]
    rfl

theorem canonical_iff {path : Bytes} : Canonical path ↔
    path.length ≤ MAX_FS_PATH_BYTES ∧ 0 ∉ path ∧ path ≠ [] ∧
      ∀ part ∈ path.splitOn slash, ¬ BadSegment part := by
  rw [Canonical, canonicalPath_eq_some]
  constructor
  · rintro ⟨short, plain, -, some_path, segments⟩
    exact ⟨short, plain, some_path, segments⟩
  · rintro ⟨short, plain, some_path, segments⟩
    exact ⟨short, plain, trimSlashes_eq_self some_path segments, some_path, segments⟩

/-- What `canonical_path` returns it returns again. -/
theorem canonical_of_canonicalPath {path p : Bytes} (same : canonicalPath path = .ok (some p)) :
    Canonical p := by
  obtain ⟨short, plain, rfl, some_path, segments⟩ := canonicalPath_eq_some.mp same
  exact canonical_iff.mpr ⟨(length_trimSlashes path).trans short,
    fun member => plain (mem_trimSlashes member), some_path, segments⟩

theorem canonicalPath_nil : canonicalPath [] = .ok none := by decide

theorem Canonical.ne_nil {path : Bytes} (canonical : Canonical path) : path ≠ [] :=
  (canonical_iff.mp canonical).2.2.1

/-- What lies above a canonical path is canonical. -/
theorem Canonical.front {path rest : Bytes} (canonical : Canonical (path ++ slash :: rest)) :
    Canonical path := by
  obtain ⟨short, plain, -, segments⟩ := canonical_iff.mp canonical
  rw [List.splitOn_append_cons_self] at segments
  have each : ∀ part ∈ path.splitOn slash, ¬ BadSegment part := fun part member =>
    segments part (List.mem_append_left _ member)
  refine canonical_iff.mpr ⟨?_, ?_, ?_, each⟩
  · rw [List.length_append] at short
    omega
  · exact fun member => plain (List.mem_append_left _ member)
  · rintro rfl
    exact each [] List.mem_cons_self (.inl rfl)

theorem firstPart_mem_splitOn (path : Bytes) : firstPart slash path ∈ path.splitOn slash := by
  obtain ⟨plain, whole | ⟨rest, goesOn⟩⟩ := firstPart_cases slash path
  · have single := List.splitOn_eq_singleton plain
    rw [← whole] at single
    rw [single]
    exact List.mem_singleton.mpr whole.symm
  · have parts : path.splitOn slash = _ :=
      (congrArg (List.splitOn slash) goesOn).trans (List.splitOn_append_cons_self _ _)
    rw [parts, List.splitOn_eq_singleton plain]
    exact List.mem_append_left _ List.mem_cons_self

theorem Canonical.proper {path : Bytes} (canonical : Canonical path) : Proper slash path := by
  obtain ⟨-, -, -, segments⟩ := canonical_iff.mp canonical
  rintro front back rfl begins empty
  have listed : firstPart slash back ∈ (front ++ back).splitOn slash := by
    rcases begins with rfl | ⟨dir, rfl⟩
    · exact firstPart_mem_splitOn back
    · rw [List.append_assoc, List.singleton_append, List.splitOn_append_cons_self]
      exact List.mem_append_right _ (firstPart_mem_splitOn back)
  exact segments _ listed (.inl empty)

/-! ## A tree -/

/-- The names in a directory, and which are files. -/
def listing (fs : Callbacks) (dir : Bytes) : Option (List (Bytes × Bool)) :=
  match fs.readdir dir with
  | .ok entries => some (entries.map fun entry => (entry.name, entry.stat.kind = .File))
  | .error _ => none

/-- A mount of the files at `keys`, each with its content. -/
structure ShowsTree (fs : Callbacks) (keys : List Bytes) (content : Bytes → Bytes) : Prop where
  /-- Walking `readdir` from the root comes past every file once. -/
  walked : ∃ enough, ∀ depth ≥ enough, ∃ met, walk slash (listing fs) depth [] = some met ∧
    met.Nodup ∧ ∀ path, path ∈ met ↔ path ∈ keys
  /-- An entry tells what `getattr` tells of the joined path. -/
  entry_stat : ∀ path dir entries, canonicalPath path = .ok dir → fs.readdir path = .ok entries →
    ∀ entry ∈ entries, fs.getattr (joinPath slash (dir.getD []) entry.name) = .ok entry.stat
  /-- Nothing lies below a file. -/
  file : ∀ path stat, fs.getattr path = .ok stat → stat.kind = .File →
    fs.readdir path = .error .NotADirectory ∧
      ∃ p ∈ keys, canonicalPath path = .ok (some p) ∧ ∀ key ∈ keys, ¬ p ++ [slash] <+: key
  /-- A directory is listed, and is not among the files. -/
  directory : ∀ path stat, fs.getattr path = .ok stat → stat.kind = .Directory →
    (∃ entries, fs.readdir path = .ok entries) ∧ ∀ p ∈ keys, canonicalPath path ≠ .ok (some p)
  /-- `read` returns the part that was asked for. -/
  slice : ∀ path p offset size, canonicalPath path = .ok (some p) → p ∈ keys →
    size.toNat ≤ MAX_FS_IO_BYTES →
    fs.read path offset size = .ok (((content p).drop offset.toNat).take size.toNat)

section Shared

variable {V : Type} {files : SortedMap Bytes V} {fileStat : Bytes → V → Stat} {dirStat : Stat}

theorem isSyntheticDirectory_iff {path : Bytes} :
    isSyntheticDirectory files path = true ↔ ∃ key ∈ files.keys, path ++ [slash] <+: key := by
  rw [isSyntheticDirectory, List.any_eq_true]
  simp only [List.isPrefixOf_iff_prefix]

theorem readdirLoop_eq (pre : Bytes) (keys seen : List Bytes) :
    readdirLoop files fileStat dirStat pre keys seen =
      (namesLoop slash pre keys seen).map fun name =>
        ⟨name, entryStat files fileStat dirStat (pre ++ name)⟩ := by
  induction keys generalizing seen with
  | nil => rfl
  | cons key keys ih =>
    rw [readdirLoop, namesLoop]
    split
    · simp only
      split
      · exact ih seen
      · rw [List.map_cons, ih]
    · exact ih seen

/-- The entries of a directory, by the names below it. -/
def entriesOf (files : SortedMap Bytes V) (fileStat : Bytes → V → Stat) (dirStat : Stat)
    (dir : Bytes) : List DirEntry :=
  (names slash files.keys dir).map fun name =>
    ⟨name, entryStat files fileStat dirStat (joinPath slash dir name)⟩

theorem readdirOf_eq_ok {path : Bytes} {entries : List DirEntry} :
    readdirOf files fileStat dirStat path = .ok entries ↔
      ∃ dir, canonicalPath path = .ok dir ∧
        (∀ p, dir = some p → files.get? p = none ∧ isSyntheticDirectory files p) ∧
        entries = entriesOf files fileStat dirStat (dir.getD []) := by
  unfold readdirOf
  rw [bind_eq_ok]
  refine exists_congr fun dir => and_congr_right fun same => ?_
  cases dir with
  | none =>
    have whole : readdirLoop files fileStat dirStat [] files.keys [] =
        entriesOf files fileStat dirStat [] := readdirLoop_eq [] files.keys []
    show Except.ok (readdirLoop _ _ _ _ _ _) = _ ↔ _
    rw [whole, Except.ok.injEq, Option.getD_none]
    exact ⟨fun same => ⟨fun _ unnamed => (Option.some_ne_none _ unnamed.symm).elim, same.symm⟩,
      fun listed => listed.2.symm⟩
  | some p =>
    have some_path := (canonical_of_canonicalPath same).ne_nil
    have part : readdirLoop files fileStat dirStat (p ++ [slash]) files.keys [] =
        entriesOf files fileStat dirStat p := by
      rw [readdirLoop_eq, entriesOf, names]
      unfold joinPath
      rw [within_of_ne some_path]
    simp only [bind_eq_ok, require_eq_ok, exists_const, Option.some.injEq, forall_eq',
      Option.getD_some, and_assoc]
    refine and_congr_right fun _ => and_congr_right fun _ => ?_
    show Except.ok (readdirLoop _ _ _ _ _ _) = _ ↔ _
    rw [part, Except.ok.injEq]
    exact eq_comm

/-- What is listed is a file, or has a file below it. -/
theorem listed_cases {dir name : Bytes} (listed : name ∈ names slash files.keys dir) :
    joinPath slash dir name ∈ files.keys ∨
      ∃ rest, joinPath slash dir name ++ slash :: rest ∈ files.keys := by
  obtain ⟨-, back, member, first⟩ := (mem_names slash).mp listed
  obtain ⟨-, whole | ⟨rest, goesOn⟩⟩ := firstPart_cases slash back
  · rw [first] at whole
    subst whole
    exact .inl member
  · rw [first] at goesOn
    subst goesOn
    exact .inr ⟨rest, by rwa [joinPath, List.append_assoc]⟩

theorem getattrOf_of_canonical {path p : Bytes} (same : canonicalPath path = .ok (some p))
    (there : p ∈ files.keys ∨ ∃ key ∈ files.keys, p ++ [slash] <+: key) :
    getattrOf files fileStat dirStat path = .ok (entryStat files fileStat dirStat p) := by
  unfold getattrOf entryStat
  rw [same, ok_bind]
  simp only
  cases found : files.get? p with
  | some file => rfl
  | none =>
    have below : isSyntheticDirectory files p = true :=
      isSyntheticDirectory_iff.mpr (there.resolve_left (SortedMap.not_mem_keys.mpr found))
    simp only
    rw [if_pos below]
    rfl

theorem getattrOf_eq_ok {path : Bytes} {stat : Stat} :
    getattrOf files fileStat dirStat path = .ok stat ↔
      canonicalPath path = .ok none ∧ stat = dirStat ∨
      ∃ p, canonicalPath path = .ok (some p) ∧
        ((∃ file, files.get? p = some file ∧ stat = fileStat p file) ∨
          files.get? p = none ∧ isSyntheticDirectory files p ∧ stat = dirStat) := by
  unfold getattrOf
  cases same : canonicalPath path with
  | error e => simp
  | ok dir =>
    cases dir with
    | none =>
      show Except.ok dirStat = .ok stat ↔ _
      simp [eq_comm (a := stat)]
    | some p =>
      rw [ok_bind]
      simp only [Except.ok.injEq, reduceCtorEq, false_and, false_or, Option.some.injEq,
        exists_eq_left']
      cases found : files.get? p with
      | some file =>
        show Except.ok (fileStat p file) = .ok stat ↔ _
        simp [eq_comm (a := stat)]
      | none =>
        by_cases below : isSyntheticDirectory files p = true
        · simp only [below, if_true]
          show Except.ok dirStat = .ok stat ↔ _
          simp [eq_comm (a := stat)]
        · simp [below]

variable (canonical : ∀ key ∈ files.keys, Canonical key)
include canonical

theorem getattrOf_listed {dir name : Bytes} (listed : name ∈ names slash files.keys dir) :
    getattrOf files fileStat dirStat (joinPath slash dir name) =
      .ok (entryStat files fileStat dirStat (joinPath slash dir name)) := by
  rcases listed_cases listed with member | ⟨rest, member⟩
  · exact getattrOf_of_canonical (canonical _ member) (.inl member)
  · refine getattrOf_of_canonical (canonical _ member).front (.inr ⟨_, member, rest, ?_⟩)
    rw [List.append_assoc, List.singleton_append]

variable (fileKind : ∀ path file, (fileStat path file).kind = .File)
  (dirKind : dirStat.kind = .Directory)
include fileKind dirKind

omit canonical in
theorem kind_entryStat (p : Bytes) :
    (entryStat files fileStat dirStat p).kind = .File ↔ p ∈ files.keys := by
  rw [SortedMap.mem_keys]
  unfold entryStat
  cases found : files.get? p with
  | some file => simpa using fileKind p file
  | none => simp [dirKind]

theorem lists_listing (fs : Callbacks) (readdir : fs.readdir = readdirOf files fileStat dirStat) :
    Lists slash files.keys (listing fs) := by
  refine ⟨fun {dir} listable => ?_⟩
  have listed : fs.readdir dir = .ok (entriesOf files fileStat dirStat dir) := by
    rw [readdir, readdirOf_eq_ok]
    by_cases root : dir = []
    · subst root
      exact ⟨none, canonicalPath_nil, fun _ unnamed => (Option.some_ne_none _ unnamed.symm).elim, rfl⟩
    · obtain ⟨notFile, key, member, below⟩ := listable.resolve_left root
      rw [Inside, within_of_ne root] at below
      have above : Canonical dir := by
        obtain ⟨rest, rfl⟩ := below
        have whole := canonical _ member
        rw [List.append_assoc, List.singleton_append] at whole
        exact whole.front
      refine ⟨some dir, above, ?_, rfl⟩
      rintro p same
      cases same
      exact ⟨SortedMap.not_mem_keys.mp notFile, isSyntheticDirectory_iff.mpr ⟨key, member, below⟩⟩
  unfold listing
  rw [listed, entriesOf]
  simp only [List.map_map, Option.some.injEq]
  refine List.map_congr_left fun name _ => ?_
  simp only [Function.comp_apply, Prod.mk.injEq, true_and]
  exact decide_eq_decide.mpr (kind_entryStat fileKind dirKind _)

/-- **The callbacks that infer directories from canonical keys show one tree.** -/
theorem showsTree {fs : Callbacks} {content : Bytes → Bytes}
    (independent : Independent slash files.keys)
    (getattr : fs.getattr = getattrOf files fileStat dirStat)
    (readdir : fs.readdir = readdirOf files fileStat dirStat)
    (slice : ∀ path p offset size, canonicalPath path = .ok (some p) → p ∈ files.keys →
      size.toNat ≤ MAX_FS_IO_BYTES →
      fs.read path offset size = .ok (((content p).drop offset.toNat).take size.toNat)) :
    ShowsTree fs files.keys content := by
  refine ⟨?_, ?_, ?_, ?_, slice⟩
  · obtain ⟨enough, walks⟩ := walk_perm (lists_listing canonical fileKind dirKind fs readdir)
      independent (fun path member => (canonical path member).proper) files.nodup_keys
    refine ⟨enough, fun depth deep => ?_⟩
    obtain ⟨met, walked, perm⟩ := walks depth deep
    exact ⟨met, walked, perm.nodup_iff.mpr files.nodup_keys, fun path => perm.mem_iff⟩
  · intro path dir entries same listed entry member
    rw [readdir, readdirOf_eq_ok] at listed
    obtain ⟨dir', same', -, rfl⟩ := listed
    cases same.symm.trans same'
    obtain ⟨name, listed, rfl⟩ := List.mem_map.mp member
    rw [getattr]
    exact getattrOf_listed canonical listed
  · intro path stat told isFile
    rw [getattr, getattrOf_eq_ok] at told
    obtain ⟨-, rfl⟩ | ⟨p, same, ⟨file, found, rfl⟩ | ⟨-, -, rfl⟩⟩ := told
    · rw [dirKind] at isFile
      cases isFile
    · have member := SortedMap.mem_keys.mpr ⟨file, found⟩
      refine ⟨?_, p, member, same, independent p member⟩
      rw [readdir]
      unfold readdirOf
      rw [same, ok_bind]
      show (require (files.get? p = none) FsError.NotADirectory >>= _) = _
      rw [require_of_not (by rw [found]; simp), error_bind]
    · rw [dirKind] at isFile
      cases isFile
  · intro path stat told isDirectory
    rw [getattr, getattrOf_eq_ok] at told
    obtain ⟨root, -⟩ | ⟨p, same, ⟨file, -, rfl⟩ | ⟨absent, below, -⟩⟩ := told
    · have listed : readdirOf files fileStat dirStat path = .ok _ :=
        readdirOf_eq_ok.mpr ⟨none, root, fun _ unnamed => (Option.some_ne_none _ unnamed.symm).elim, rfl⟩
      rw [← readdir] at listed
      refine ⟨⟨_, listed⟩, fun p _ isFile => ?_⟩
      rw [root] at isFile
      cases isFile
    · rw [fileKind] at isDirectory
      cases isDirectory
    · have listed : readdirOf files fileStat dirStat path = .ok _ :=
        readdirOf_eq_ok.mpr ⟨some p, same, (fun _ named => Option.some.inj named ▸ ⟨absent, below⟩), rfl⟩
      rw [← readdir] at listed
      refine ⟨⟨_, listed⟩, fun q member isFile => ?_⟩
      cases same.symm.trans isFile
      exact SortedMap.not_mem_keys.mpr absent member

end Shared

end OneLink.Fuse
