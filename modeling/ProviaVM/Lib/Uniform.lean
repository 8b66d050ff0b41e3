import Mathlib.Algebra.BigOperators.Field
import Mathlib.Data.BitVec
import Mathlib.Data.Fintype.BigOperators
import Mathlib.Tactic.FieldSimp
import ProviaVM.Lib.Numerals

/-! # Uniform choice from a finite type

The probability of an event is the share of the outcomes in it. Two observations have
the same law if every value is equally likely under both; a family of observations is
independent if the probabilities of joint values are products. -/
namespace Uniform
open Finset

instance fintypeBitVec {w : Nat} : Fintype (BitVec w) := .ofEquiv _ BitVec.equivFin.symm.toEquiv

open Classical in
/-- The probability of an event under a uniform choice. -/
noncomputable def prob {Ω : Type} [Fintype Ω] (E : Ω → Prop) : ℚ :=
  ((Finset.univ.filter E).card : ℚ) / Fintype.card Ω

theorem prob_eq {Ω : Type} [Fintype Ω] (E : Ω → Prop) [DecidablePred E] :
    prob E = ((Finset.univ.filter E).card : ℚ) / Fintype.card Ω := by
  unfold prob
  congr

section Law

variable {Ω O : Type} [Fintype Ω] {X Y : Ω → O}

/-- Every value is as likely for `X` as for `Y`. -/
def SameLaw (X Y : Ω → O) : Prop := ∀ o, prob (fun ω => X ω = o) = prob (fun ω => Y ω = o)

/-- A relabelling of the outcomes does not change the law. -/
theorem SameLaw.of_equiv (e : Ω ≃ Ω) (h : ∀ ω, Y (e ω) = X ω) : SameLaw X Y := by
  classical
  intro o
  have card :
      (Finset.univ.filter fun ω => X ω = o).card = (Finset.univ.filter fun ω => Y ω = o).card := by
    refine card_equiv e fun ω => ?_
    rw [mem_filter, mem_filter, h]
    simp
  rw [prob_eq, prob_eq, card]

/-- Two observations that are the same function of two relabellings have the same law. -/
theorem SameLaw.of_injective {f g : Ω → Ω} (hf : Function.Injective f) (hg : Function.Injective g)
    (h : ∀ ω ω', f ω = g ω' → X ω = Y ω') : SameLaw X Y := by
  let e : Ω ≃ Ω := Equiv.ofBijective f (Finite.injective_iff_bijective.mp hf)
  let e' : Ω ≃ Ω := Equiv.ofBijective g (Finite.injective_iff_bijective.mp hg)
  refine SameLaw.of_equiv (e.trans e'.symm) fun ω => (h _ _ ?_).symm
  have back : e' (e'.symm (e ω)) = e ω := e'.apply_symm_apply _
  exact back.symm

/-- Observations of the same law take the same values. -/
theorem SameLaw.exists_eq (h : SameLaw X Y) (ω : Ω) : ∃ ω', Y ω' = X ω := by
  classical
  by_contra none
  push Not at none
  have nonempty : 0 < Fintype.card Ω := Fintype.card_pos_iff.mpr ⟨ω⟩
  have same := h (X ω)
  rw [prob_eq, prob_eq, filter_false_of_mem fun ω' _ => none ω', card_empty, Nat.cast_zero,
    zero_div, div_eq_zero_iff] at same
  rcases same with zero | zero
  · have inside : ω ∈ Finset.univ.filter fun ω' => X ω' = X ω := mem_filter.mpr ⟨mem_univ ω, rfl⟩
    rw [card_eq_zero.mp (Nat.cast_eq_zero.mp zero)] at inside
    cases inside
  · exact absurd (Nat.cast_eq_zero.mp zero) nonempty.ne'

/-- Joint values are as likely as the product says. -/
def Independent {ι : Type} [Fintype ι] (X : ι → Ω → O) : Prop :=
  ∀ o : ι → O, prob (fun ω => ∀ i, X i ω = o i) = ∏ i, prob fun ω => X i ω = o i

end Law

section Coordinates

variable {N V : Type} [Fintype N] [DecidableEq N] [Fintype V]

/-- Conditions on separate coordinates of a uniform vector. -/
theorem prob_forall (Q : N → V → Prop) :
    prob (fun m : N → V => ∀ n, Q n (m n)) = ∏ n, prob (Q n) := by
  classical
  have card : (Finset.univ.filter fun m : N → V => ∀ n, Q n (m n)) =
      Fintype.piFinset fun n => Finset.univ.filter (Q n) := by
    ext m
    simp [Fintype.mem_piFinset]
  rw [prob_eq, card, Fintype.card_piFinset, Fintype.card_fun]
  simp [prob_eq]

variable [Nonempty V]

theorem prob_true : prob (fun _ : V => True) = 1 := by
  classical
  simp [prob_eq]

/-- One coordinate of a uniform vector is uniform. -/
theorem prob_coordinate (i : N) (E : V → Prop) : prob (fun m : N → V => E (m i)) = prob E := by
  classical
  have event : (fun m : N → V => E (m i)) = fun m => ∀ n, n = i → E (m n) := by simp
  rw [event, prob_forall fun n v => n = i → E v, prod_eq_single i]
  · simp
  · intro n _ other
    simp [other, prob_true]
  · exact fun absent => absurd (mem_univ i) absent

/-- Observations of different coordinates of a uniform vector are independent. -/
theorem independent_of_injective {ι O : Type} [Fintype ι] (pos : ι → N)
    (injective : Function.Injective pos) (f : ι → V → O) :
    Independent fun i (m : N → V) => f i (m (pos i)) := by
  classical
  intro o
  have event : (fun m : N → V => ∀ i, f i (m (pos i)) = o i) = fun m => ∀ n, ∀ i, pos i = n →
      f i (m n) = o i := by
    funext m
    exact propext ⟨fun h n i same => same ▸ h i, fun h i => h (pos i) i rfl⟩
  rw [event, prob_forall fun n v => ∀ i, pos i = n → f i v = o i]
  symm
  refine prod_of_injOn pos injective.injOn (fun _ _ => mem_coe.mpr (mem_univ _)) ?_ ?_
  · intro n _ unused
    have vacuous : ∀ v : V, (∀ i, pos i = n → f i v = o i) ↔ True := fun v =>
      ⟨fun _ => trivial, fun _ i same => absurd ⟨i, mem_coe.mpr (mem_univ i), same⟩ unused⟩
    simp only [vacuous, prob_true]
  · intro i _
    rw [prob_coordinate (pos i) fun v => f i v = o i]
    congr 1
    funext v
    exact propext ⟨fun h j same => injective same ▸ h, fun h => h i rfl⟩

end Coordinates

end Uniform
