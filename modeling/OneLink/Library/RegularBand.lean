/-
# Library.RegularBand -- merges whose ties keep the left side

A merge of last-writer-wins states is associative and idempotent but, where two
states carry one stamp and different contents, not commutative: it keeps its left
side.  What always holds is `merge (merge a b) a = merge a b`, and that is enough
for the order of absorption (`Below`) and for least upper bounds in it
(`Joined`).  Two states that join the same contributions absorb each other, so
they are equal as soon as they commute (`Joined.eq_of_comm`).
-/
import Mathlib.Data.Set.Insert

namespace OneLink.Library

set_option autoImplicit false

variable {S : Type}

structure RegularBand (merge : S → S → S) : Prop where
  assoc : ∀ a b c, merge (merge a b) c = merge a (merge b c)
  idem : ∀ a, merge a a = a
  regular : ∀ a b, merge (merge a b) a = merge a b

/-- `b` absorbs `a`. -/
def Below (merge : S → S → S) (a b : S) : Prop := merge b a = b

/-- `s` absorbs every contribution, and is absorbed by whatever does. -/
structure Joined (merge : S → S → S) (contributions : Set S) (s : S) : Prop where
  absorbs : ∀ c ∈ contributions, Below merge c s
  least : ∀ u, (∀ c ∈ contributions, Below merge c u) → Below merge s u

namespace RegularBand

variable {merge : S → S → S} (band : RegularBand merge)

include band

theorem below_trans {a b c : S} (first : Below merge a b) (second : Below merge b c) :
    Below merge a c :=
  calc merge c a = merge (merge c b) a := by rw [second]
    _ = merge c (merge b a) := band.assoc c b a
    _ = merge c b := by rw [first]
    _ = c := second

theorem below_left (a b : S) : Below merge a (merge a b) := band.regular a b

theorem below_right (a b : S) : Below merge b (merge a b) :=
  calc merge (merge a b) b = merge a (merge b b) := band.assoc a b b
    _ = merge a b := by rw [band.idem]

theorem merge_below {a b u : S} (left : Below merge a u) (right : Below merge b u) :
    Below merge (merge a b) u :=
  calc merge u (merge a b) = merge (merge u a) b := (band.assoc u a b).symm
    _ = merge u b := by rw [left]
    _ = u := right

theorem joined_singleton (s : S) : Joined merge {s} s where
  absorbs c mem := by
    rw [Set.mem_singleton_iff.1 mem]
    exact band.idem s
  least u above := above s (Set.mem_singleton s)

theorem joined_merge {A B : Set S} {a b : S} (left : Joined merge A a) (right : Joined merge B b) :
    Joined merge (A ∪ B) (merge a b) where
  absorbs c mem := by
    obtain mem | mem := mem
    · exact band.below_trans (left.absorbs c mem) (band.below_left a b)
    · exact band.below_trans (right.absorbs c mem) (band.below_right a b)
  least u above := band.merge_below (left.least u fun c mem => above c (.inl mem))
    (right.least u fun c mem => above c (.inr mem))

/-- A contribution above everything so far is the new bound. -/
theorem joined_insert {A : Set S} {a b : S} (joined : Joined merge A a) (above : Below merge a b) :
    Joined merge (insert b A) b where
  absorbs c mem := by
    obtain rfl | mem := Set.mem_insert_iff.1 mem
    · exact band.idem c
    · exact band.below_trans (joined.absorbs c mem) above
  least u bounds := bounds b (Set.mem_insert b A)

end RegularBand

theorem Joined.eq_of_comm {merge : S → S → S} {A : Set S} {a b : S} (left : Joined merge A a)
    (right : Joined merge A b) (comm : merge a b = merge b a) : a = b :=
  calc a = merge a b := (right.least a left.absorbs).symm
    _ = merge b a := comm
    _ = b := left.least b right.absorbs

end OneLink.Library
