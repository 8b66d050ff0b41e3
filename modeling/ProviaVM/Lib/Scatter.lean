import Mathlib.Algebra.BigOperators.Group.Finset.Basic
import Mathlib.Data.List.GetD

/-! # Adding entries at keyed places

`scatter n key val init` runs through `0, …, n - 1` and adds `val i` to the entry of `init`
at `key i`, if there is a key. Afterwards an entry holds what it held plus the values of
its keys. `scatterRows` does the same in a table of rows. `sumM` adds terms that may fail. -/
namespace Scatter
open Finset

variable {G : Type*} [AddCommMonoid G]

def scatter (n : Nat) (key : Nat → Option Nat) (val : Nat → G) (init : List G) : List G :=
  (List.range n).foldl (fun s i => match key i with
    | some c => s.modify c (· + val i)
    | none => s) init

def scatterRows (n : Nat) (key : Nat → Option (Nat × Nat)) (val : Nat → G) (init : List (List G)) :
    List (List G) :=
  (List.range n).foldl (fun s i => match key i with
    | some (row, c) => s.modify row fun r => r.modify c (· + val i)
    | none => s) init

theorem scatter_succ (n : Nat) (key : Nat → Option Nat) (val : Nat → G) (init : List G) :
    scatter (n + 1) key val init = match key n with
      | some c => (scatter n key val init).modify c (· + val n)
      | none => scatter n key val init := by
  rw [scatter, List.range_succ, List.foldl_append]
  rfl

theorem scatterRows_succ (n : Nat) (key : Nat → Option (Nat × Nat)) (val : Nat → G)
    (init : List (List G)) :
    scatterRows (n + 1) key val init = match key n with
      | some (row, c) => (scatterRows n key val init).modify row fun r => r.modify c (· + val n)
      | none => scatterRows n key val init := by
  rw [scatterRows, List.range_succ, List.foldl_append]
  rfl

theorem length_scatter (n : Nat) (key : Nat → Option Nat) (val : Nat → G) (init : List G) :
    (scatter n key val init).length = init.length := by
  induction n with
  | zero => rfl
  | succ n ih =>
    rw [scatter_succ]
    cases key n with
    | none => exact ih
    | some c => simp [ih]

theorem getD_modify_add {l : List G} {c : Nat} (inside : c < l.length) (d : Nat) (v : G) :
    (l.modify d (· + v)).getD c 0 = l.getD c 0 + if d = c then v else 0 := by
  rw [List.getD_eq_getElem _ _ (by rw [List.length_modify]; exact inside),
    List.getD_eq_getElem _ _ inside, List.getElem_modify]
  split <;> simp

/-- An entry holds its first value and the values of its keys. -/
theorem getD_scatter (n : Nat) (key : Nat → Option Nat) (val : Nat → G) {init : List G} {c : Nat}
    (inside : c < init.length) :
    (scatter n key val init).getD c 0 = init.getD c 0 + ∑ i ∈ range n, if key i = some c then val i
      else 0 := by
  induction n with
  | zero => simp [scatter]
  | succ n ih =>
    rw [scatter_succ, sum_range_succ, ← add_assoc, ← ih]
    cases key n with
    | none => simp
    | some d =>
      rw [getD_modify_add (by rw [length_scatter]; exact inside)]
      simp

theorem length_scatterRows (n : Nat) (key : Nat → Option (Nat × Nat)) (val : Nat → G)
    (init : List (List G)) :
    (scatterRows n key val init).length = init.length := by
  induction n with
  | zero => rfl
  | succ n ih =>
    rw [scatterRows_succ]
    cases key n with
    | none => exact ih
    | some place => simp [ih]

/-- A row receives the values of its own keys. -/
theorem getD_scatterRows (n : Nat) (key : Nat → Option (Nat × Nat)) (val : Nat → G)
    {init : List (List G)} {row : Nat} (inside : row < init.length) :
    (scatterRows n key val init).getD row [] =
      scatter n (fun i => (key i).bind fun place => if place.1 = row then some place.2
        else none) val (init.getD row []) := by
  induction n with
  | zero => rfl
  | succ n ih =>
    rw [scatterRows_succ, scatter_succ, ← ih]
    cases key n with
    | none => rfl
    | some place =>
      have bound : row < (scatterRows n key val init).length := by
        rw [length_scatterRows]; exact inside
      simp only [Option.bind_some]
      rw [List.getD_eq_getElem _ _ (by rw [List.length_modify]; exact bound),
        List.getD_eq_getElem _ _ bound, List.getElem_modify]
      split <;> rfl

section Zero

variable (n : Nat) (key : Nat → Option (Nat × Nat)) (val : Nat → G) {rows width row : Nat}
  (inside : row < rows)
include inside

theorem length_scatterRows_zero :
    ((scatterRows n key val (List.replicate rows (List.replicate width 0))).getD row []).length =
      width := by
  rw [getD_scatterRows _ _ _ (by rw [List.length_replicate]; exact inside), length_scatter,
    List.getD_replicate _ inside, List.length_replicate]

/-- From a table of zeros, an entry holds the values of its keys. -/
theorem getD_scatterRows_zero {c : Nat} (small : c < width) :
    ((scatterRows n key val (List.replicate rows (List.replicate width 0))).getD row []).getD c 0 =
      ∑ i ∈ range n, if key i = some (row, c) then val i else 0 := by
  rw [getD_scatterRows _ _ _ (by rw [List.length_replicate]; exact inside),
    List.getD_replicate _ inside, getD_scatter _ _ _ (by rw [List.length_replicate]; exact small),
    List.getD_replicate _ small, zero_add]
  refine sum_congr rfl fun i _ => if_congr ?_ rfl rfl
  cases key i with
  | none => simp
  | some place =>
    obtain ⟨r, d⟩ := place
    by_cases own : r = row <;> simp [own]

end Zero

def sumM (n : Nat) (f : Nat → Option G) : Option G :=
  (List.range n).foldlM (fun acc i => do return acc + (← f i)) 0

theorem foldlM_add {n : Nat} {step : G → Nat → Option G} {v : Nat → G}
    (adds : ∀ i < n, ∀ acc, step acc i = some (acc + v i)) (init : G) :
    (List.range n).foldlM step init = some (init + ∑ i ∈ range n, v i) := by
  induction n with
  | zero => simp
  | succ n ih =>
    rw [List.range_succ, List.foldlM_append, ih fun i below => adds i (by omega), sum_range_succ]
    simp [adds n (by omega), add_assoc]

theorem sumM_some {n : Nat} {f : Nat → Option G} {v : Nat → G} (terms : ∀ i < n, f i = some (v i)) :
    sumM n f = some (∑ i ∈ range n, v i) := by
  rw [sumM, foldlM_add (fun i below acc => by rw [terms i below]; rfl), zero_add]

theorem sumM_none {n : Nat} {f : Nat → Option G} (positive : 0 < n) (first : f 0 = none) :
    sumM n f = none := by
  obtain ⟨m, rfl⟩ : ∃ m, n = m + 1 := ⟨n - 1, by omega⟩
  rw [sumM, List.range_succ_eq_map, List.foldlM_cons, first]
  rfl

/-- A range of `m * n` indices as `m` blocks of `n`. -/
theorem sum_blocks (m n : Nat) (f : Nat → G) :
    ∑ i ∈ range (m * n), f i = ∑ a ∈ range m, ∑ b ∈ range n, f (a * n + b) := by
  induction m with
  | zero => simp
  | succ m ih => rw [Nat.succ_mul, sum_range_add, ih, sum_range_succ]

theorem sum_remainder (m : Nat) {n r : Nat} (small : r < n) (f : Nat → G) :
    (∑ i ∈ range (m * n), if i % n = r then f i else 0) = ∑ a ∈ range m, f (a * n + r) := by
  rw [sum_blocks]
  refine sum_congr rfl fun a _ => ?_
  rw [sum_eq_single r]
  · rw [if_pos (by rw [Nat.mul_add_mod_self_right, Nat.mod_eq_of_lt small])]
  · intro b inside other
    rw [if_neg]
    rwa [Nat.mul_add_mod_self_right, Nat.mod_eq_of_lt (mem_range.mp inside)]
  · intro outside
    exact absurd (mem_range.mpr small) outside

section Vectors

variable {α : Type*} {g : α → α → α} {K n k : Nat}

theorem length_foldl_zipWith {f : Nat → List α} (length : ∀ s < n, (f s).length = K) {init : List α}
    (start : init.length = K) :
    ((List.range n).foldl (fun rows s => List.zipWith g rows (f s)) init).length = K := by
  induction n with
  | zero => exact start
  | succ n ih =>
    rw [List.range_succ, List.foldl_append, List.foldl_cons, List.foldl_nil, List.length_zipWith,
      ih fun s below => length s (by omega), length n (by omega), Nat.min_self]

/-- Vectors combined one after the other, at one place. -/
theorem getD_foldl_rows {f : Nat → List α} (length : ∀ s < n, (f s).length = K) {init : List α}
    (start : init.length = K) (inside : k < K) {d : α} :
    ((List.range n).foldl (fun rows s => List.zipWith g rows (f s)) init).getD k d =
      (List.range n).foldl (fun acc s => g acc ((f s).getD k d)) (init.getD k d) := by
  induction n with
  | zero => rfl
  | succ n ih =>
    have before :=
      length_foldl_zipWith (g := g) (fun s below => length s (Nat.lt_succ_of_lt below)) start
    have added := length n (by omega)
    rw [List.range_succ, List.foldl_append, List.foldl_append, List.foldl_cons, List.foldl_cons,
      List.foldl_nil, List.foldl_nil, ← ih fun s below => length s (by omega),
      List.getD_eq_getElem _ _ (by simp [before, added, inside]), List.getElem_zipWith,
      List.getD_eq_getElem _ _ (by rw [before]; exact inside),
        List.getD_eq_getElem _ _ (by rw [added]; exact inside)]

/-- Adding up vectors position by position adds up their entries. -/
theorem getD_foldl_zipWith {f : Nat → List G} (length : ∀ s < n, (f s).length = K) {init : List G}
    (start : init.length = K) (inside : k < K) :
    ((List.range n).foldl (fun rows s => List.zipWith (· + ·) rows (f s)) init).getD k 0 =
      init.getD k 0 + ∑ s ∈ range n, (f s).getD k 0 := by
  rw [getD_foldl_rows length start inside]
  clear length
  induction n with
  | zero => simp
  | succ n ih => rw [List.range_succ, List.foldl_append, ih, sum_range_succ, ← add_assoc]; rfl

end Vectors

/-- Consecutive chunks, the last of which may be short, cover a range. -/
theorem sum_chunks {t size : Nat} (positive : 0 < size) (f : Nat → G) :
    ∑ i ∈ range ((t + size - 1) / size), ∑ o ∈ range (min size (t - i * size)),
      f (i * size + o) = ∑ j ∈ range t, f j := by
  have chunk : ∀ i, ∑ o ∈ range (min size (t - i * size)), f (i * size + o) =
      ∑ o ∈ range size, if i * size + o < t then f (i * size + o) else 0 := by
    intro i
    rw [← sum_filter]
    refine sum_congr (Finset.ext fun o => ?_) fun _ _ => rfl
    simp only [mem_range, mem_filter]
    omega
  have covers : t ≤ (t + size - 1) / size * size := by
    have := Nat.div_add_mod (t + size - 1) size
    have := Nat.mod_lt (t + size - 1) positive
    have := Nat.mul_comm size ((t + size - 1) / size)
    omega
  rw [sum_congr rfl fun i _ => chunk i, ← sum_blocks _ _ fun j => if j < t then f j
    else 0, ← sum_filter]
  refine sum_congr (Finset.ext fun j => ?_) fun _ _ => rfl
  simp only [mem_range, mem_filter]
  omega

end Scatter
