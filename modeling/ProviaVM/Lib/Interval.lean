import Mathlib.Data.List.Basic
import Mathlib.Data.List.Pairwise
import Mathlib.Data.List.Count

/-! # Lists of intervals that tile a range

An `Interval` is a start and a length. `cover` counts the intervals that contain a
point. A list tiles `[lo, hi)` when every point of it is covered once and no other
point is covered; such a list is pairwise disjoint. -/
namespace Intervals

structure Interval where
  start : Nat
  len : Nat
  deriving DecidableEq, Repr

namespace Interval

def contains (r : Interval) (x : Nat) : Bool := decide (r.start ≤ x ∧ x < r.start + r.len)

@[simp] theorem contains_iff {r : Interval} {x : Nat} :
    r.contains x = true ↔ r.start ≤ x ∧ x < r.start + r.len := by
  simp [contains]

def Disjoint (r s : Interval) : Prop := ∀ x, r.contains x = true → s.contains x = false

end Interval

def cover (rs : List Interval) (x : Nat) : Nat := rs.countP fun r => r.contains x

@[simp] theorem cover_nil (x : Nat) : cover [] x = 0 := rfl

theorem cover_cons (r : Interval) (rs : List Interval) (x : Nat) :
    cover (r :: rs) x = cover rs x + if r.start ≤ x ∧ x < r.start + r.len then 1 else 0 := by
  simp [cover, List.countP_cons]

/-- Where no point is covered twice, the intervals are pairwise disjoint. -/
theorem pairwise_disjoint_of_cover_le_one {rs : List Interval} (once : ∀ x, cover rs x ≤ 1) :
    rs.Pairwise Interval.Disjoint := by
  induction rs with
  | nil => exact List.Pairwise.nil
  | cons r rs ih =>
    have fewer : ∀ x, cover rs x ≤ 1 := fun x => by
      have whole := once x
      rw [cover_cons] at whole
      omega
    refine List.pairwise_cons.mpr ⟨?_, ih fewer⟩
    intro s member x inR
    rw [Bool.eq_false_iff]
    intro inS
    have counted : 0 < cover rs x := List.countP_pos_iff.mpr ⟨s, member, inS⟩
    have whole := once x
    rw [cover_cons, if_pos (Interval.contains_iff.mp inR)] at whole
    omega

/-- The intervals cover each point of `[lo, hi)` once and nothing else. -/
def Tiles (rs : List Interval) (lo hi : Nat) : Prop :=
  ∀ x, cover rs x = if lo ≤ x ∧ x < hi then 1 else 0

namespace Tiles

variable {rs : List Interval} {lo hi : Nat}

theorem nil (lo : Nat) : Tiles [] lo lo := by
  intro x
  simp

/-- The next interval starts where the tiling ends. -/
theorem cons (tiles : Tiles rs lo hi) (ordered : lo ≤ hi) (n : Nat) :
    Tiles (⟨hi, n⟩ :: rs) lo (hi + n) := by
  intro x
  rw [cover_cons, tiles x]
  dsimp only
  split_ifs <;> omega

/-- An empty interval may start anywhere. -/
theorem cons_empty (tiles : Tiles rs lo hi) (start : Nat) : Tiles (⟨start, 0⟩ :: rs) lo hi := by
  intro x
  simp [cover_cons, tiles x]

theorem pairwise_disjoint (tiles : Tiles rs lo hi) : rs.Pairwise Interval.Disjoint := by
  apply pairwise_disjoint_of_cover_le_one
  intro x
  rw [tiles x]
  split_ifs <;> omega

theorem cover_eq_one (tiles : Tiles rs lo hi) {x : Nat} (lower : lo ≤ x) (upper : x < hi) :
    cover rs x = 1 := by
  rw [tiles x, if_pos ⟨lower, upper⟩]

end Tiles

end Intervals
