import Mathlib.Algebra.GroupWithZero.Nat
import Mathlib.Algebra.BigOperators.Group.List.Basic
import Mathlib.Algebra.Field.Basic
import ProviaVM.Lib.Numerals

/-! # Rank-one constraint systems

Linear combinations of numbered variables, constraints `(a·z)(b·z) = c·z`, and the rule to extend an
assignment: a constraint is not affected by variables it does not read, and a straight-line program
that defines consecutive fresh variables as products can be satisfied whatever the variables before
it hold. -/
namespace RankOne

variable {F : Type} [CommRing F]
variable {K : Nat → Prop} {first : Nat}

abbrev LinearCombination (F : Type) := List (Nat × F)

namespace LinearCombination

def constant (value : F) : LinearCombination F := [(0, value)]

def ofVariable (var : Nat) : LinearCombination F := [(var, 1)]

def eval (z : Nat → F) (lc : LinearCombination F) : F := (lc.map fun t => t.2 * z t.1).sum

/-- Every variable of the combination is one of `K`. -/
def Reads (K : Nat → Prop) (lc : LinearCombination F) : Prop := ∀ t ∈ lc, K t.1

@[simp] theorem eval_nil (z : Nat → F) : eval z ([] : LinearCombination F) = 0 := rfl

@[simp] theorem eval_cons (z : Nat → F) (t : Nat × F) (lc : LinearCombination F) :
    eval z (t :: lc) = t.2 * z t.1 + eval z lc := by simp [eval]

@[simp] theorem eval_constant (z : Nat → F) (value : F) : eval z (constant value) = value * z 0 :=
  by simp [constant]

@[simp] theorem eval_ofVariable (z : Nat → F) (var : Nat) : eval z (ofVariable var) = z var :=
  by simp [ofVariable]

theorem eval_ones (z : Nat → F) (vars : List Nat) :
    eval z (vars.map fun v => (v, 1)) = (vars.map z).sum := by
  simp [eval, Function.comp_def]

omit [CommRing F] in
theorem reads_constant (zero : K 0) (value : F) : Reads K (constant value) := by
  simpa [Reads, constant] using zero

theorem reads_ofVariable {var : Nat} (known : K var) : Reads K (ofVariable (F := F) var) := by
  simpa [Reads, ofVariable] using known

omit [CommRing F] in
theorem Reads.mono {L : Nat → Prop} {lc : LinearCombination F} (h : Reads K lc)
    (le : ∀ i, K i → L i) : Reads L lc :=
  fun t member => le _ (h t member)

end LinearCombination

structure Constraint (F : Type) where
  a : LinearCombination F
  b : LinearCombination F
  c : LinearCombination F

namespace Constraint

def Holds (z : Nat → F) (r : Constraint F) : Prop := r.a.eval z * r.b.eval z = r.c.eval z

structure Reads (K : Nat → Prop) (r : Constraint F) : Prop where
  a : r.a.Reads K
  b : r.b.Reads K
  c : r.c.Reads K

omit [CommRing F] in
theorem Reads.mono {L : Nat → Prop} {r : Constraint F} (h : r.Reads K) (le : ∀ i, K i → L i) :
    r.Reads L :=
  ⟨h.a.mono le, h.b.mono le, h.c.mono le⟩

end Constraint

def Satisfies (z : Nat → F) (rows : List (Constraint F)) : Prop := ∀ r ∈ rows, r.Holds z

/-- The two assignments hold the same values in the variables of `K`. -/
def Agree (K : Nat → Prop) (z z' : Nat → F) : Prop := ∀ i, K i → z i = z' i

section Frame

variable {K : Nat → Prop} {z z' : Nat → F}

omit [CommRing F] in
theorem Agree.mono {L : Nat → Prop} (h : Agree L z z') (le : ∀ i, K i → L i) : Agree K z z' :=
  fun i known => h i (le i known)

/-- The value of a combination depends on the variables it reads only. -/
theorem eval_congr {lc : LinearCombination F} (same : Agree K z z') (reads : lc.Reads K) :
    lc.eval z = lc.eval z' := by
  unfold LinearCombination.eval
  congr 1
  exact List.map_congr_left fun t member => by rw [same t.1 (reads t member)]

theorem holds_congr {r : Constraint F} (same : Agree K z z') (reads : r.Reads K) :
    r.Holds z ↔ r.Holds z' := by
  unfold Constraint.Holds
  rw [eval_congr same reads.a, eval_congr same reads.b, eval_congr same reads.c]

theorem satisfies_congr {rows : List (Constraint F)} (same : Agree K z z')
    (reads : ∀ r ∈ rows, r.Reads K) :
    Satisfies z rows ↔ Satisfies z' rows :=
  forall₂_congr fun r member => holds_congr same (reads r member)

@[simp] theorem satisfies_nil (z : Nat → F) : Satisfies z ([] : List (Constraint F)) :=
  by simp [Satisfies]

@[simp] theorem satisfies_append (z : Nat → F) (rows rows' : List (Constraint F)) :
    Satisfies z (rows ++ rows') ↔ Satisfies z rows ∧ Satisfies z rows' := by
  simp [Satisfies, or_imp, forall_and]

@[simp] theorem satisfies_cons (z : Nat → F) (r : Constraint F) (rows : List (Constraint F)) :
    Satisfies z (r :: rows) ↔ r.Holds z ∧ Satisfies z rows := by
  simp [Satisfies]

end Frame

/-! ## Straight-line programs -/

/-- Each entry defines one variable, the product of two combinations of earlier ones. -/
abbrev Program (F : Type) := List (LinearCombination F × LinearCombination F)

namespace Program

/-- The constraints of a program whose outputs are `first`, `first + 1`, ... -/
def rows : Nat → Program F → List (Constraint F)
  | _, [] => []
  | first, d :: p => ⟨d.1, d.2, .ofVariable first⟩ :: rows (first + 1) p

def run : Nat → Program F → (Nat → F) → Nat → F
  | _, [], z => z
  | first, d :: p, z => run (first + 1) p (Function.update z first (d.1.eval z * d.2.eval z))

/-- Every definition reads variables of `K` or outputs before its own. -/
def Ready (K : Nat → Prop) : Nat → Program F → Prop
  | _, [] => True
  | first, d :: p => d.1.Reads K ∧ d.2.Reads K ∧ Ready (fun i => K i ∨ i = first) (first + 1) p

omit [CommRing F] in
theorem Ready.mono {L : Nat → Prop} {p : Program F} (h : Ready K first p) (le : ∀ i, K i → L i) :
    Ready L first p := by
  induction p generalizing first K L with
  | nil => trivial
  | cons d p ih => exact ⟨h.1.mono le, h.2.1.mono le, ih h.2.2 fun i => Or.imp_left (le i)⟩

omit [CommRing F] in
/-- A program may be followed by one that reads its variables. -/
theorem Ready.append {p q : Program F} (hp : Ready K first p)
    (hq : Ready (fun i => K i ∨ first ≤ i ∧ i < first + p.length) (first + p.length) q) :
    Ready K first (p ++ q) := by
  induction p generalizing first K with
  | nil =>
    refine Ready.mono (K := fun i => K i ∨ first ≤ i ∧ i < first + 0) hq fun i => ?_
    rintro (known | ⟨_, _⟩)
    · exact known
    · omega
  | cons d p ih =>
    refine ⟨hp.1, hp.2.1, ih hp.2.2 ?_⟩
    rw [List.length_cons, show first + (p.length + 1) = first + 1 + p.length by omega] at hq
    refine hq.mono fun i => ?_
    rintro (known | ⟨ge, lt⟩)
    · exact .inl (.inl known)
    · rcases Nat.eq_or_lt_of_le ge with eq | above
      · exact .inl (.inr eq.symm)
      · exact .inr ⟨above, lt⟩

/-- A row of a program reads what the program reads and the outputs. -/
theorem rows_reads {p : Program F} (ready : Ready K first p) :
    ∀ r ∈ rows first p, r.Reads fun i => K i ∨ first ≤ i ∧ i < first + p.length := by
  induction p generalizing first K with
  | nil => simp [rows]
  | cons d p ih =>
    obtain ⟨left, right, rest⟩ := ready
    intro r member
    rcases List.mem_cons.mp member with rfl | inside
    · exact ⟨left.mono fun _ => .inl, right.mono fun _ => .inl,
        LinearCombination.reads_ofVariable (.inr (by simp))⟩
    · refine (ih rest r inside).mono fun i => ?_
      rw [List.length_cons]
      rintro ((known | rfl) | range)
      · exact .inl known
      · exact .inr (by omega)
      · exact .inr (by omega)

theorem run_append (first : Nat) (p q : Program F) (z : Nat → F) :
    run first (p ++ q) z = run (first + p.length) q (run first p z) := by
  induction p generalizing first z with
  | nil => rfl
  | cons d p ih => simp [run, ih, Nat.add_comm, Nat.add_left_comm]

/-- A program writes its outputs only. -/
theorem run_frame (first : Nat) (p : Program F) (z : Nat → F) :
    Agree (fun i => i < first ∨ first + p.length ≤ i) (run first p z) z := by
  induction p generalizing first z with
  | nil => exact fun _ _ => rfl
  | cons d p ih =>
    intro i outside
    rw [List.length_cons] at outside
    rw [run, ih (first + 1) _ i (by omega), Function.update_of_ne (by omega)]

/-- Running a program satisfies its constraints, if what it reads lies outside of its outputs. -/
theorem run_satisfies {p : Program F} (ready : Ready K first p)
    (fresh : ∀ i, K i → i < first ∨ first + p.length ≤ i) (z : Nat → F) :
    Satisfies (run first p z) (rows first p) := by
  induction p generalizing first K z with
  | nil => simp [rows]
  | cons d p ih =>
    obtain ⟨left, right, rest⟩ := ready
    rw [rows, satisfies_cons]
    constructor
    · have same : Agree K (run first (d :: p) z) z :=
        fun i known => run_frame first _ z i (fresh i known)
      unfold Constraint.Holds
      rw [eval_congr same left, eval_congr same right, LinearCombination.eval_ofVariable, run,
        run_frame (first + 1) p _ first (.inl (by omega)), Function.update_self]
    · refine ih rest (fun i known => ?_) _
      rcases known with known | rfl
      · have := fresh i known
        rw [List.length_cons] at this
        rcases this with below | above
        · exact .inl (by omega)
        · exact .inr (by omega)
      · exact .inl (by omega)

/-- An assignment that satisfies the constraints of a program is what the program makes of it. -/
theorem run_eq_self {p : Program F} {z : Nat → F} (h : Satisfies z (rows first p)) :
    run first p z = z := by
  induction p generalizing first with
  | nil => rfl
  | cons d p ih =>
    rw [rows, satisfies_cons, Constraint.Holds, LinearCombination.eval_ofVariable] at h
    rw [run, h.1, Function.update_eq_self, ih h.2]

end Program

end RankOne
