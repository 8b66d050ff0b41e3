import Mathlib.Data.List.Forall2

/-! # Postconditions of state-passing computations

`Ensures P m`: from every state, the value `m` returns satisfies `P`. The state is the
randomness a protocol draws from, so a statement about the value alone, for every state,
is a statement about every outcome. -/

def Ensures {σ α : Type} (P : α → Prop) (m : StateM σ α) : Prop := ∀ s, P (m s).1

namespace Ensures

variable {σ α β γ : Type} {P : α → Prop} {m : StateM σ α} {f : α → StateM σ β}

theorem pure {a : α} (h : P a) : Ensures P (Pure.pure a : StateM σ α) := fun _ => h

theorem bind {Q : β → Prop} (first : Ensures P m) (rest : ∀ a, P a → Ensures Q (f a)) :
    Ensures Q (m >>= f) :=
  fun s => rest _ (first s) (m s).2

/-- The first computation may return anything. -/
theorem after {Q : β → Prop} (rest : ∀ a, Ensures Q (f a)) : Ensures Q (m >>= f) :=
  fun s => rest _ (m s).2

theorem imp {Q : α → Prop} (h : Ensures P m) (imp : ∀ a, P a → Q a) : Ensures Q m :=
  fun s => imp _ (h s)

theorem and {Q : α → Prop} (hp : Ensures P m) (hq : Ensures Q m) :
    Ensures (fun a => P a ∧ Q a) m := fun s => ⟨hp s, hq s⟩

/-- A batch: what one element ensures against its specification, the list ensures pointwise. -/
theorem mapM {R : α → γ → Prop} {S : β → γ → Prop} (one : ∀ a c, R a c → Ensures (S · c) (f a)) :
    ∀ {as : List α} {cs : List γ}, List.Forall₂ R as cs → Ensures (List.Forall₂ S · cs) (as.mapM f)
  | _, _, .nil => by
    exact pure .nil
  | a :: as, c :: cs, .cons head tail => by
    rw [List.mapM_cons]
    exact bind (one a c head) fun b hb => bind (mapM one tail) fun bs hbs => pure (.cons hb hbs)

end Ensures
