/-
# Library.Tiling -- ranges that follow one another

`Tiles start ranges stop` says that the ranges lie end to end from `start` to `stop`, so that they
cover everything between and nothing twice.
-/
import OneLink.Library.PrefixCut

namespace OneLink.Library

set_option autoImplicit false

def Tiles : (start : Nat) → List (Nat × Nat) → (stop : Nat) → Prop
  | start, [], stop => start = stop
  | start, (lo, hi) :: rest, stop => lo = start ∧ Tiles hi rest stop

theorem Tiles.append {start mid stop : Nat} {early late : List (Nat × Nat)}
    (first : Tiles start early mid) (second : Tiles mid late stop) :
    Tiles start (early ++ late) stop := by
  induction early generalizing start with
  | nil => exact first.symm ▸ second
  | cons range early ih => exact ⟨first.1, ih first.2⟩

theorem Tiles.shift {start stop : Nat} {ranges : List (Nat × Nat)} (tiles : Tiles start ranges stop)
    (by_ : Nat) :
    Tiles (start + by_) (ranges.map fun range => (range.1 + by_, range.2 + by_)) (stop + by_) := by
  induction ranges generalizing start with
  | nil => exact congrArg (· + by_) tiles
  | cons range ranges ih => exact ⟨congrArg (· + by_) tiles.1, ih tiles.2⟩

theorem Tiles.inside {start stop : Nat} {ranges : List (Nat × Nat)} (tiles : Tiles start ranges stop)
    (order : ∀ range ∈ ranges, range.1 ≤ range.2) :
    start ≤ stop ∧ ∀ range ∈ ranges, start ≤ range.1 ∧ range.2 ≤ stop := by
  induction ranges generalizing start with
  | nil => exact ⟨Nat.le_of_eq tiles, fun _ absent => absurd absent List.not_mem_nil⟩
  | cons range ranges ih =>
    rw [List.forall_mem_cons] at order
    obtain ⟨begins, rest⟩ := tiles
    obtain ⟨reaches, inside⟩ := ih rest order.2
    refine ⟨by omega, List.forall_mem_cons.mpr ⟨⟨by omega, reaches⟩, fun later present => ?_⟩⟩
    have bounds := inside later present
    omega

/-- What covers something has a range that begins where it does. -/
theorem Tiles.exists_first {start stop : Nat} {ranges : List (Nat × Nat)}
    (tiles : Tiles start ranges stop) (some : start < stop) : ∃ range ∈ ranges, range.1 = start := by
  cases ranges with
  | nil => exact absurd tiles (Nat.ne_of_lt some)
  | cons range ranges => exact ⟨range, List.mem_cons_self, tiles.1⟩

theorem tiles_ranges (start : Nat) (sizes : List Nat) :
    Tiles start (PrefixCut.ranges start sizes) (start + sizes.sum) := by
  induction sizes generalizing start with
  | nil => rfl
  | cons size sizes ih =>
    have later := ih (start + size)
    rw [Nat.add_assoc] at later
    exact ⟨rfl, later⟩

theorem ranges_widths (start : Nat) (sizes : List Nat) :
    (PrefixCut.ranges start sizes).map (fun range => range.2 - range.1) = sizes := by
  induction sizes generalizing start with
  | nil => rfl
  | cons size sizes ih =>
    rw [PrefixCut.ranges, List.map_cons, ih]
    simp

end OneLink.Library
