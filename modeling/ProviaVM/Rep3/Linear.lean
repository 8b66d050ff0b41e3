import Mathlib.Tactic.FieldSimp
import ProviaVM.Lib.PartialSums
import ProviaVM.Rep3.Share

/-! # Linear computations on shares

The shares of a party form a module. When every party computes the same combination of its
shares with public scalars, the results are a sharing of that combination of the secrets. -/
namespace ProviaVM.Rep3
open Preprocessing Rep3Share

section Group

variable {G : Type} [AddCommGroup G]

instance : Zero (Rep3Share G) := ⟨⟨0, 0⟩⟩
instance : Add (Rep3Share G) := ⟨map₂ (· + ·)⟩
instance : Neg (Rep3Share G) := ⟨map (- ·)⟩
instance : Sub (Rep3Share G) := ⟨map₂ (· - ·)⟩

instance : AddCommGroup (Rep3Share G) where
  add_assoc _ _ _ := congrArg₂ mk (add_assoc ..) (add_assoc ..)
  zero_add _ := congrArg₂ mk (zero_add _) (zero_add _)
  add_zero _ := congrArg₂ mk (add_zero _) (add_zero _)
  add_comm _ _ := congrArg₂ mk (add_comm ..) (add_comm ..)
  neg_add_cancel _ := congrArg₂ mk (neg_add_cancel _) (neg_add_cancel _)
  sub_eq_add_neg _ _ := congrArg₂ mk (sub_eq_add_neg ..) (sub_eq_add_neg ..)
  nsmul := nsmulRec
  zsmul := zsmulRec

end Group

variable {F : Type} [Field F]

/-- `share * scalar`. -/
instance : SMul F (Rep3Share F) := ⟨fun c x => x.map (· * c)⟩

instance : Module F (Rep3Share F) where
  one_smul _ := congrArg₂ mk (mul_one _) (mul_one _)
  mul_smul c d x :=
    congrArg₂ mk (show x.a * (c * d) = x.a * d * c by ring) (show x.b * (c * d) =
    x.b * d * c by ring)
  smul_zero _ := congrArg₂ mk (zero_mul _) (zero_mul _)
  smul_add _ _ _ := congrArg₂ mk (add_mul ..) (add_mul ..)
  add_smul _ _ _ := congrArg₂ mk (mul_add ..) (mul_add ..)
  zero_smul _ := congrArg₂ mk (mul_zero _) (mul_zero _)

theorem total_mul (x : PartyID → F) (c : F) : total (fun p => x p * c) = total x * c := by
  simp only [total]
  ring

theorem total_sub (x y : PartyID → F) : total (fun p => x p - y p) = total x - total y := by
  simp only [total]
  ring

theorem SumShares.smul {x : View F} {v : F} (h : SumShares x v) (c : F) :
    SumShares (fun p => c • x p) (c * v) := by
  rw [mul_comm]
  exact h.mulPublic c

theorem total_add {M : Type} [AddCommMonoid M] (f g : PartyID → M) :
    total (fun p => f p + g p) = total f + total g := by
  simp only [total]
  abel

theorem total_sum {M : Type} [AddCommMonoid M] {ι : Type} (S : Finset ι) (f : PartyID → ι → M) :
    total (fun p => ∑ i ∈ S, f p i) = ∑ i ∈ S, total (fun p => f p i) := by
  simp only [total, Finset.sum_add_distrib]

theorem SumShares.sum {ι : Type} (S : Finset ι) {x : ι → View F} {v : ι → F}
    (each : ∀ i ∈ S, SumShares (x i) (v i)) :
    SumShares (fun p => ∑ i ∈ S, x i p) (∑ i ∈ S, v i) := by
  classical
  induction S using Finset.induction_on with
  | empty => exact ⟨fun _ => rfl, by simp [total, show (0 : Rep3Share F).a = 0 from rfl]⟩
  | insert i S new ih =>
    simp only [Finset.sum_insert new]
    exact (each i (Finset.mem_insert_self i S)).add (ih fun k inside =>
      each k (Finset.mem_insert_of_mem inside))

theorem SumShares.extend {r : List F} {x : Nat → View F} {v : Nat → F}
    (each : ∀ h < 2 ^ r.length, SumShares (x h) (v h)) :
    SumShares (fun p => Multilinear.extend r fun h => x h p) (Multilinear.extend r v) := by
  induction r generalizing x v with
  | nil => exact each 0 (by simp)
  | cons y r ih =>
    have double : 2 ^ (y :: r).length = 2 ^ r.length + 2 ^ r.length := by
      rw [List.length_cons, pow_succ, Nat.mul_two]
    have low := ih fun h below => each h (by omega)
    have high := ih fun h below => each (2 ^ r.length + h) (by omega)
    exact (low.smul (1 - y)).add (high.smul y)

/-- Binding coordinates of a shared sequence. -/
theorem SumShares.bound {r : List F} {m a : Nat} {x : Nat → View F} {v : Nat → F}
    (each : ∀ i < 2 ^ (r.length + m), SumShares (x i) (v i)) (inside : a < 2 ^ m) :
    SumShares (fun p => Multilinear.bound m (fun i => x i p) r a) (Multilinear.bound m v r a) := by
  refine SumShares.extend fun h below => each _ ?_
  have := Nat.mul_le_mul_right (2 ^ m) (Nat.succ_le_of_lt below)
  rw [Nat.succ_mul, ← pow_add] at this
  omega

def intoAdditive (x : Rep3Share F) : F := (x.a + x.b) * 2⁻¹

theorem intoAdditive_total (two : (2 : F) ≠ 0) {x : View F} {c : F} (h : SumShares x c) :
    total (fun p => intoAdditive (x p)) = c := by
  have b0 := h.replicated .ID0
  have b1 := h.replicated .ID1
  have b2 := h.replicated .ID2
  simp only [PartyID.prev] at b0 b1 b2
  have opens := h.opens
  simp only [total, intoAdditive, b0, b1, b2] at opens ⊢
  rw [← opens]
  field_simp
  ring

end ProviaVM.Rep3
