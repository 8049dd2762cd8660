/-
# Fuse.Memory -- the in-memory back end over its calls

A call of `write` or `unlink` succeeds or changes nothing (`write_attempts`,
`unlink_attempts`); `write` takes a path in only if it is canonical and neither below a
file nor above one, so the keys stay those of a tree.

The changes that were made are kept beside the state (`World`).  The content of a file is
a function of them: the writes since it was created, the newest on top, zeros where none
reached (`contentOf`).
-/
import OneLink.Fuse.Tree
import OneLink.Library.Run

namespace OneLink.Fuse

set_option autoImplicit false

open Library

/-! ## The content that writes leave -/

/-- The end of the write that reaches farthest. -/
def extent : List (Nat × Bytes) → Nat
  | [] => 0
  | (off, data) :: older => max (off + data.length) (extent older)

/-- The byte at `i`, from the newest write that covers it. -/
def byteAt : List (Nat × Bytes) → (i : Nat) → UInt8
  | [], _ => 0
  | (off, data) :: older, i =>
    if off ≤ i ∧ i < off + data.length then data.getD (i - off) 0 else byteAt older i

/-- The file that writes leave, the newest first. -/
def contentOf (writes : List (Nat × Bytes)) : Bytes :=
  (List.range (extent writes)).map (byteAt writes)

theorem length_contentOf (writes : List (Nat × Bytes)) :
    (contentOf writes).length = extent writes := by
  rw [contentOf, List.length_map, List.length_range]

theorem getElem?_contentOf (writes : List (Nat × Bytes)) (i : Nat) :
    (contentOf writes)[i]? = if i < extent writes then some (byteAt writes i) else none := by
  rw [contentOf, List.getElem?_map]
  by_cases inside : i < extent writes
  · rw [if_pos inside, List.getElem?_range inside, Option.map_some]
  · rw [if_neg inside, List.getElem?_eq_none (by rw [List.length_range]; omega), Option.map_none]

theorem byteAt_of_extent_le {writes : List (Nat × Bytes)} {i : Nat}
    (beyond : extent writes ≤ i) : byteAt writes i = 0 := by
  induction writes with
  | nil => rfl
  | cons newest older ih =>
    obtain ⟨off, data⟩ := newest
    simp only [extent] at beyond
    rw [byteAt, if_neg (by omega), ih (by omega)]

theorem getD_contentOf (writes : List (Nat × Bytes)) (i : Nat) :
    (contentOf writes)[i]?.getD 0 = byteAt writes i := by
  rw [getElem?_contentOf]
  split
  · rfl
  · rename_i outside
    rw [byteAt_of_extent_le (Nat.le_of_not_lt outside)]
    rfl

namespace MemoryInner

theorem length_resize (bytes : Bytes) (len : Nat) : (resize bytes len).length = len := by
  rw [resize, List.length_append, List.length_take, List.length_replicate]
  omega

theorem getD_resize {bytes : Bytes} {len : Nat} (grows : bytes.length ≤ len) (i : Nat) :
    (resize bytes len)[i]?.getD 0 = bytes[i]?.getD 0 := by
  rw [resize, List.take_of_length_le grows, List.getElem?_append]
  split
  · rfl
  · rename_i outside
    rw [List.getElem?_eq_none (l := bytes) (by omega), List.getElem?_replicate]
    split
    · rfl
    · rfl

theorem length_grow (bytes : Bytes) (len : Nat) : (grow bytes len).length = max len bytes.length := by
  unfold grow
  split
  · rw [length_resize]
    omega
  · omega

/-- Growing a file adds zeros. -/
theorem getD_grow (bytes : Bytes) (len i : Nat) :
    (grow bytes len)[i]?.getD 0 = bytes[i]?.getD 0 := by
  unfold grow
  split
  · rename_i short
    exact getD_resize (Nat.le_of_lt short) i
  · rfl

theorem length_writeAt (entry : Bytes) (off : Nat) (data : Bytes) :
    (writeAt entry off data).length = max (off + data.length) entry.length := by
  have first := length_grow entry off
  have second := length_grow (grow entry off) (off + data.length)
  unfold writeAt
  simp only [List.length_append, List.length_take, List.length_drop]
  omega

theorem getD_writeAt (entry : Bytes) (off : Nat) (data : Bytes) (i : Nat) :
    (writeAt entry off data)[i]?.getD 0 =
      if off ≤ i ∧ i < off + data.length then data.getD (i - off) 0 else entry[i]?.getD 0 := by
  have length := length_grow (grow entry off) (off + data.length)
  rw [← getD_grow entry off i, ← getD_grow (grow entry off) (off + data.length) i]
  unfold writeAt
  simp only
  generalize grow (grow entry off) (off + data.length) = grown at length ⊢
  have front : (grown.take off).length = off := by
    rw [List.length_take]
    omega
  rw [List.append_assoc, List.getElem?_append, front]
  by_cases before : i < off
  · rw [if_pos before, if_neg (by omega), List.getElem?_take_of_lt before]
  · rw [if_neg before, List.getElem?_append]
    by_cases inside : i < off + data.length
    · rw [if_pos (by omega), if_pos ⟨by omega, inside⟩, List.getD_eq_getElem?_getD]
    · rw [if_neg (by omega), if_neg (by omega), List.getElem?_drop]
      congr 2
      omega

/-- A write on top of what older writes left. -/
theorem writeAt_contentOf (older : List (Nat × Bytes)) (off : Nat) (data : Bytes) :
    writeAt (contentOf older) off data = contentOf ((off, data) :: older) := by
  have length : (writeAt (contentOf older) off data).length =
      (contentOf ((off, data) :: older)).length := by
    rw [length_writeAt, length_contentOf, length_contentOf, extent]
  refine List.ext_getElem length fun i here there => ?_
  have bytes : (writeAt (contentOf older) off data)[i]?.getD 0 =
      (contentOf ((off, data) :: older))[i]?.getD 0 := by
    rw [getD_writeAt, getD_contentOf, getD_contentOf, byteAt]
  rwa [List.getElem?_eq_getElem here, List.getElem?_eq_getElem there] at bytes

/-! ## One call -/

theorem canonicalFile_eq_ok {path p : Bytes} :
    canonicalFile path = .ok p ↔ canonicalPath path = .ok (some p) := by
  unfold canonicalFile
  rw [bind_eq_ok]
  constructor
  · rintro ⟨dir, same, returns⟩
    cases dir with
    | none => cases returns
    | some q =>
      cases returns
      exact same
  · intro same
    exact ⟨some p, same, rfl⟩

theorem hasFileAncestor_iff {V : Type} {files : SortedMap Bytes V} {path : Bytes} :
    hasFileAncestor files path = true ↔ ∃ key ∈ files.keys, key ++ [slash] <+: path := by
  rw [hasFileAncestor, List.any_eq_true]
  constructor
  · rintro ⟨index, -, ancestor⟩
    rw [Bool.and_eq_true, decide_eq_true_eq, Option.isSome_iff_exists] at ancestor
    obtain ⟨separated, stored⟩ := ancestor
    refine ⟨_, SortedMap.mem_keys.mpr stored, path.drop (index + 1), ?_⟩
    obtain ⟨inside, here⟩ := List.getElem?_eq_some_iff.mp separated
    rw [List.append_assoc, List.singleton_append, ← here, ← List.drop_eq_getElem_cons inside,
      List.take_append_drop]
  · rintro ⟨key, member, rest, rfl⟩
    refine ⟨key.length, List.mem_range.mpr (by simp), ?_⟩
    rw [Bool.and_eq_true, decide_eq_true_eq, Option.isSome_iff_exists, List.append_assoc,
      List.take_left, ← SortedMap.mem_keys]
    refine ⟨?_, member⟩
    rw [List.getElem?_append_right (Nat.le_refl _), Nat.sub_self]
    rfl

/-- The state after a write to `p` went through. -/
def put (inner : MemoryInner) (now : UInt64) (p : Bytes) (off : Nat) (data : Bytes) : MemoryInner :=
  ⟨inner.files.alter p fun entry => writeAt (entry.getD []) off data,
    inner.mtimes.alter p fun _ => now⟩

/-- A write goes through on a path that is neither below a file nor above one. -/
theorem write_attempts (inner : MemoryInner) (now : UInt64) (path : Bytes) (offset : UInt64)
    (data : Bytes) : Mutating.Attempts inner (write now path offset data) fun written after =>
      written = UInt32.ofNat data.length ∧ ∃ p, canonicalPath path = .ok (some p) ∧
        (∀ key ∈ inner.files.keys, ¬ p ++ [slash] <+: key) ∧
        (∀ key ∈ inner.files.keys, ¬ key ++ [slash] <+: p) ∧
        after = inner.put now p offset.toNat data := by
  refine .of_check fun _ => .of_call fun p same => .of_check fun _ => .of_check fun _ =>
    .of_check fun _ => .of_read (.of_check fun notAbove => .of_check fun notBelow =>
    .of_check fun _ => .of_check fun _ => .of_check fun _ => ?_)
  refine ⟨rfl, p, canonicalFile_eq_ok.mp same, fun key member above => ?_,
    fun key member below => ?_, rfl⟩
  · exact notAbove (isSyntheticDirectory_iff.mpr ⟨key, member, above⟩)
  · exact notBelow (hasFileAncestor_iff.mpr ⟨key, member, below⟩)

theorem erase_of_absent {V : Type} {files : SortedMap Bytes V} {p : Bytes}
    (absent : files.get? p = none) : files.erase p = files := by
  apply SortedMap.ext_get?
  intro key
  rw [SortedMap.get?_erase]
  split
  · rename_i here
    exact here ▸ absent.symm
  · rfl

/-- Taking out what is not there is what an error of `unlink` has done. -/
theorem unlink_attempts (inner : MemoryInner) (path : Bytes) :
    Mutating.Attempts inner (unlink path) fun _ after =>
      ∃ p, canonicalPath path = .ok (some p) ∧
        after = ⟨inner.files.erase p, inner.mtimes.erase p⟩ := by
  refine .of_call fun p same => .of_read ?_
  cases found : inner.files.get? p with
  | none =>
    have undone : { inner with files := inner.files.erase p } = inner := by
      rw [erase_of_absent found]
    unfold Mutating.Attempts
    simp only [Mutating.bind_apply, Mutating.write_apply, if_true, Mutating.read_apply, undone]
    split
    · rename_i returned
      split at returned
      · cases returned
      · cases returned
    · rename_i raised
      split at raised
      · cases raised
        rfl
      · cases raised
        rfl
  | some bytes => exact ⟨p, canonicalFile_eq_ok.mp same, rfl⟩

/-- A call that changes files, with the clock it reads. -/
inductive Call where
  | write (now : UInt64) (path : Bytes) (offset : UInt64) (data : Bytes)
  | unlink (path : Bytes)

def call : Call → Mutating MemoryInner FsError (Option UInt32)
  | .write now path offset data => do
    let written ← write now path offset data
    return some written
  | .unlink path => do
    unlink path
    return none

end MemoryInner

/-! ## Runs -/

/-- A change that was made. -/
inductive Change where
  | wrote (path : Bytes) (off : Nat) (data : Bytes)
  | removed (path : Bytes)

/-- The writes to `path` since it was created, of the changes from the newest on. -/
def writesTo (path : Bytes) : List Change → List (Nat × Bytes)
  | [] => []
  | .wrote p off data :: older =>
    if p = path then (off, data) :: writesTo path older else writesTo path older
  | .removed p :: older => if p = path then [] else writesTo path older

/-- The back end, and the changes that were made, the newest first. -/
structure World where
  inner : MemoryInner
  changes : List Change

namespace World

open MemoryInner

def initial : World := ⟨MemoryInner.new, []⟩

/-- The change that a call makes when it goes through. -/
def changeOf : Call → List Change
  | .write _ path offset data =>
    match canonicalFile path with
    | .ok p => [.wrote p offset.toNat data]
    | .error _ => []
  | .unlink path =>
    match canonicalFile path with
    | .ok p => [.removed p]
    | .error _ => []

def step (w : World) (c : Call) : World :=
  match call c w.inner with
  | (.ok _, inner) => ⟨inner, changeOf c ++ w.changes⟩
  | (.error _, inner) => ⟨inner, w.changes⟩

/-- What a run keeps: the keys of a tree, each file as the changes left it. -/
structure Kept (w : World) : Prop where
  canonical : ∀ key ∈ w.inner.files.keys, Canonical key
  independent : Independent slash w.inner.files.keys
  content : ∀ p, w.inner.files.get? p =
    if writesTo p w.changes = [] then none else some (contentOf (writesTo p w.changes))

theorem kept_initial : Kept initial :=
  ⟨fun _ member => absurd member List.not_mem_nil, fun _ member => absurd member List.not_mem_nil,
    fun _ => rfl⟩

/-- What one call does: nothing, a write, or a removal. -/
theorem step_cases (w : World) (c : Call) :
    step w c = w ∨
    (∃ now p off data, Canonical p ∧ (∀ key ∈ w.inner.files.keys, ¬ p ++ [slash] <+: key) ∧
      (∀ key ∈ w.inner.files.keys, ¬ key ++ [slash] <+: p) ∧
      step w c = ⟨w.inner.put now p off data, .wrote p off data :: w.changes⟩) ∨
    ∃ p, step w c = ⟨⟨w.inner.files.erase p, w.inner.mtimes.erase p⟩, .removed p :: w.changes⟩ := by
  cases c with
  | write now path offset data =>
    have attempts := write_attempts w.inner now path offset data
    unfold Mutating.Attempts at attempts
    unfold step call
    simp only [Mutating.bind_apply, changeOf]
    cases result : write now path offset data w.inner with
    | mk value after =>
      rw [result] at attempts
      cases value with
      | error e =>
        obtain rfl : after = w.inner := attempts
        exact .inl rfl
      | ok written =>
        obtain ⟨-, p, same, notAbove, notBelow, rfl⟩ := attempts
        refine .inr (.inl ⟨now, p, offset.toNat, data, canonical_of_canonicalPath same,
          notAbove, notBelow, ?_⟩)
        rw [canonicalFile_eq_ok.mpr same]
        rfl
  | unlink path =>
    have attempts := unlink_attempts w.inner path
    unfold Mutating.Attempts at attempts
    unfold step call
    simp only [Mutating.bind_apply, changeOf]
    cases result : unlink path w.inner with
    | mk value after =>
      rw [result] at attempts
      cases value with
      | error e =>
        obtain rfl : after = w.inner := attempts
        exact .inl rfl
      | ok _ =>
        obtain ⟨p, same, rfl⟩ := attempts
        refine .inr (.inr ⟨p, ?_⟩)
        rw [canonicalFile_eq_ok.mpr same]
        rfl

theorem mem_keys_alter {V : Type} {files : SortedMap Bytes V} {p key : Bytes} {f : Option V → V} :
    key ∈ (files.alter p f).keys ↔ key = p ∨ key ∈ files.keys := by
  rw [SortedMap.mem_keys, SortedMap.mem_keys, SortedMap.get?_alter]
  by_cases here : p = key
  · simp [here]
  · simp [here, Ne.symm here]

theorem mem_keys_of_erase {V : Type} {files : SortedMap Bytes V} {p key : Bytes}
    (member : key ∈ (files.erase p).keys) : key ∈ files.keys := by
  rw [SortedMap.mem_keys, SortedMap.get?_erase] at member
  obtain ⟨v, found⟩ := member
  split at found
  · cases found
  · exact SortedMap.mem_keys.mpr ⟨v, found⟩

theorem kept_step (w : World) (c : Call) (kept : Kept w) : Kept (step w c) := by
  rcases step_cases w c with same | ⟨now, p, off, data, canonical, notAbove, notBelow, same⟩ |
    ⟨p, same⟩
  · rwa [same]
  · rw [same]
    refine ⟨fun key member => ?_, fun key member other member' below => ?_, fun q => ?_⟩
    · rcases mem_keys_alter.mp member with rfl | old
      · exact canonical
      · exact kept.canonical key old
    · rcases mem_keys_alter.mp member with rfl | old
      · rcases mem_keys_alter.mp member' with rfl | old'
        · have := below.length_le
          simp at this
        · exact notAbove other old' below
      · rcases mem_keys_alter.mp member' with rfl | old'
        · exact notBelow key old below
        · exact kept.independent key old other old' below
    · show SortedMap.get? (w.inner.files.alter p _) q = _
      rw [SortedMap.get?_alter, writesTo]
      by_cases here : p = q
      · subst here
        have entry : (w.inner.files.get? p).getD [] = contentOf (writesTo p w.changes) := by
          rw [kept.content p]
          split
          · rename_i none_written
            rw [none_written]
            rfl
          · rfl
        rw [if_pos rfl, if_pos rfl, entry, writeAt_contentOf, if_neg (List.cons_ne_nil _ _)]
      · rw [if_neg here, if_neg here]
        exact kept.content q
  · rw [same]
    refine ⟨fun key member => kept.canonical key (mem_keys_of_erase member),
      fun key member other member' => kept.independent key (mem_keys_of_erase member) other
        (mem_keys_of_erase member'), fun q => ?_⟩
    show SortedMap.get? (w.inner.files.erase p) q = _
    rw [SortedMap.get?_erase, writesTo]
    by_cases here : p = q
    · rw [if_pos here, if_pos here, if_pos rfl]
    · rw [if_neg here, if_neg here]
      exact kept.content q

theorem kept_run (calls : List Call) : Kept (run step initial calls) :=
  run_preserves kept_step calls kept_initial

theorem read_kept {w : World} (kept : Kept w) {path p : Bytes} {offset : UInt64} {size : UInt32}
    (same : canonicalPath path = .ok (some p)) (member : p ∈ w.inner.files.keys)
    (bounded : size.toNat ≤ MAX_FS_IO_BYTES) :
    w.inner.read path offset size =
      .ok (((contentOf (writesTo p w.changes)).drop offset.toNat).take size.toNat) := by
  obtain ⟨bytes, found⟩ := SortedMap.mem_keys.mp member
  have content : bytes = contentOf (writesTo p w.changes) := by
    have here := kept.content p
    rw [found] at here
    split at here
    · cases here
    · exact Option.some.inj here
  unfold MemoryInner.read
  rw [require_of bounded, ok_bind, canonicalFile_eq_ok.mpr same, ok_bind, found, ← content]
  simp only
  split
  · rename_i beyond
    rw [List.drop_eq_nil_of_le beyond, List.take_nil]
    rfl
  · show Except.ok _ = _
    rw [← List.take_eq_take_min, List.drop_take, Nat.add_sub_cancel_left]

/-- **After any calls the in-memory back end shows one tree**, each file with the content
that the writes since its creation left. -/
theorem showsTree_run (calls : List Call) :
    ShowsTree (run step initial calls).inner.callbacks (run step initial calls).inner.files.keys
      fun p => contentOf (writesTo p (run step initial calls).changes) := by
  have kept := kept_run calls
  exact showsTree kept.canonical (fun _ _ => rfl) rfl kept.independent rfl rfl
    fun path p offset size same member bounded => read_kept kept same member bounded

theorem mem_keys_run (calls : List Call) (p : Bytes) :
    p ∈ (run step initial calls).inner.files.keys ↔
      writesTo p (run step initial calls).changes ≠ [] := by
  rw [SortedMap.mem_keys, (kept_run calls).content p]
  split
  · rename_i none_written
    simp [none_written]
  · rename_i written
    simp [written]

end World

end OneLink.Fuse
