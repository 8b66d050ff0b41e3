import Mathlib.Algebra.BigOperators.Group.List.Defs
import Mathlib.Algebra.Order.Group.Multiset
import Mathlib.Data.Multiset.Range
import ProviaVM.Lib.Ensures

/-! # Values written at slots

A batch is filled out of order: an entry is pushed together with the slot it is for, and
at the end every entry is written at its slot. `Holds R ws vs` says that the entries `ws`
are, in some order, one for every expected value and slot of `vs`.

A batch whose elements are of two kinds is split, each part is computed on its own, and
the results are put back; `firsts`, `seconds` and `weave` follow the elements through
this. -/
namespace Slots
open List Multiset

variable {α β γ ι : Type}
variable {R : α → β → Prop} {ws : List (Nat × α)} {items : List ι} {es : List (α ⊕ β)}

/-- An entry for a slot, against the value expected there. -/
def At (R : α → β → Prop) (w : Nat × α) (v : β × Nat) : Prop := w.1 = v.2 ∧ R w.2 v.1

/-- The entries are the expected ones, in some order. -/
def Holds (R : α → β → Prop) (ws : Multiset (Nat × α)) (vs : Multiset (β × Nat)) : Prop :=
  ws.Rel (At R) vs

theorem Holds.add {ws ws' : Multiset (Nat × α)} {vs vs' : Multiset (β × Nat)} (h : Holds R ws vs)
    (h' : Holds R ws' vs') : Holds R (ws + ws') (vs + vs') := Multiset.Rel.add h h'

theorem Holds.of_forall₂ {vs : List (β × Nat)} (h : Forall₂ (At R) ws vs) :
    Holds R ws vs := by
  induction h with
  | nil => exact .zero
  | cons first _ ih => exact .cons first ih

/-- Entries given by the list of their slots and the list of their values. -/
theorem Holds.zip {slot : ι → Nat} {value : ι → β} {l : List α}
    (h : Forall₂ (fun a c => R a (value c)) l items) :
    Holds R ((items.map slot).zip l : List _) (items.map fun c => (value c, slot c) : List _) := by
  refine .of_forall₂ ?_
  induction h with
  | nil => exact .nil
  | cons first _ ih => exact .cons ⟨rfl, first⟩ ih

/-- The entries of a part of the batch are computed from the values pushed for it. -/
theorem Holds.mapM {σ : Type} {S : γ → β → Prop} {f : α → StateM σ γ}
    (one : ∀ a v, R a v → Ensures (S · v) (f a)) {slots : List Nat} {as : List α}
    (same : slots.length = as.length) {vs : Multiset (β × Nat)}
    (h : Holds R (slots.zip as : List _) vs) :
    Ensures (fun cs => Holds S (slots.zip cs : List _) vs) (as.mapM f) := by
  induction slots generalizing as vs with
  | nil =>
    have none : as = [] := eq_nil_of_length_eq_zero same.symm
    subst none
    rw [show vs = 0 from rel_zero_left.mp h]
    exact Ensures.pure .zero
  | cons slot slots ih =>
    obtain ⟨a, as, rfl⟩ : ∃ a rest, as = a :: rest := exists_cons_of_length_eq_add_one same.symm
    have split : Multiset.Rel (At R) ((slot, a) ::ₘ (slots.zip as : List _)) vs := h
    obtain ⟨v, vs, first, rest, rfl⟩ := rel_cons_left.mp split
    rw [mapM_cons]
    refine Ensures.bind (one a v.1 first.2) fun c value => ?_
    refine Ensures.bind (ih (Nat.succ.inj same) rest) fun cs values => Ensures.pure ?_
    exact .cons ⟨first.1, value⟩ values

/-- Entries kept in several parts, each with the list of its slots. -/
def entries (parts : List (List Nat × List α)) : Multiset (Nat × α) :=
  (parts.map fun part => (part.1.zip part.2 : Multiset (Nat × α))).sum

/-- All parts computed one after the other. -/
theorem Holds.mapM_parts {σ : Type} {S : γ → β → Prop} {f : α → StateM σ γ}
    (one : ∀ a v, R a v → Ensures (S · v) (f a)) {parts : List (List Nat × List α)}
    (same : ∀ part ∈ parts, part.1.length = part.2.length) {vs : Multiset (β × Nat)}
    (h : Holds R (entries parts) vs) :
    Ensures (fun cs => Holds S (cs.flatten : List _) vs)
      (parts.mapM fun part => do return part.1.zip (← part.2.mapM f)) := by
  induction parts generalizing vs with
  | nil =>
    rw [show vs = 0 from rel_zero_left.mp h]
    exact Ensures.pure .zero
  | cons part parts ih =>
    obtain ⟨first, rest, holds, others, rfl⟩ := rel_add_left.mp h
    rw [mapM_cons]
    have computed :
        Ensures (fun cs => Holds S (cs : List _) first) (do return part.1.zip (← part.2.mapM f)) :=
      Ensures.bind (Holds.mapM one (same part (mem_cons_self ..)) holds) fun _ values =>
        Ensures.pure values
    refine Ensures.bind computed fun ws values => ?_
    refine Ensures.bind (ih (fun other mem => same other (mem_cons_of_mem _ mem)) others)
      fun _ later => Ensures.pure ?_
    exact values.add later

/-! ## Writing -/

def write (ws : List (Nat × α)) (out : List α) : List α :=
  ws.foldl (fun out w => out.set w.1 w.2) out

theorem length_write (ws : List (Nat × α)) (out : List α) : (write ws out).length = out.length := by
  induction ws generalizing out with
  | nil => rfl
  | cons w ws ih => exact (ih _).trans length_set

theorem getElem?_write_of_notMem {i : Nat} (other : i ∉ ws.map Prod.fst) (out : List α) :
    (write ws out)[i]? = out[i]? := by
  induction ws generalizing out with
  | nil => rfl
  | cons w ws ih =>
    rw [List.map_cons, List.mem_cons, not_or] at other
    have rest : (write (w :: ws) out)[i]? = (out.set w.1 w.2)[i]? := ih other.2 _
    rw [rest, List.getElem?_set_ne (Ne.symm other.1)]

/-- A slot that is written once holds what was written. -/
theorem getElem?_write_of_mem (once : (ws.map Prod.fst).Nodup) {w : Nat × α} (mem : w ∈ ws)
    {l : List α} (inside : w.1 < l.length) : (write ws l)[w.1]? = some w.2 := by
  induction ws generalizing l with
  | nil => cases mem
  | cons v ws ih =>
    rw [List.map_cons, List.nodup_cons] at once
    rcases List.mem_cons.mp mem with rfl | later
    · have kept : (write (w :: ws) l)[w.1]? = (l.set w.1 w.2)[w.1]? :=
        getElem?_write_of_notMem once.1 _
      rw [kept, List.getElem?_set_self inside]
    · exact ih once.2 later (by rw [length_set]; exact inside)

/-- Every slot is written once, with the value expected there. -/
theorem Holds.write {vs : List β} (h : Holds R ws (vs.zipIdx : List _)) {out : List α}
    (len : out.length = vs.length) :
    Forall₂ R (Slots.write ws out) vs := by
  have slots : (ws.map Prod.fst : Multiset Nat) = ((vs.zipIdx).map Prod.snd : List Nat) := by
    have keys :
        Multiset.Rel (fun (w : Nat × α) (v : β × Nat) => w.1 = v.2) ws (vs.zipIdx : List _) :=
      h.mono fun _ _ _ _ entry => entry.1
    have same := rel_eq.mp (rel_map |>.mpr keys)
    rwa [map_coe] at same
  have once : (ws.map Prod.fst).Nodup := by
    rw [← coe_nodup, slots, zipIdx_map_snd]
    exact nodup_range'
  refine forall₂_iff_get.mpr ⟨by rw [length_write, len], fun i below inside => ?_⟩
  have expected : (vs[i], i) ∈ (vs.zipIdx : Multiset (β × Nat)) := by
    rw [mem_coe, mk_mem_zipIdx_iff_getElem?]
    exact getElem?_eq_getElem inside
  obtain ⟨w, mem, slot, value⟩ := exists_mem_of_rel_of_mem (rel_flip.mpr h) expected
  have written := getElem?_write_of_mem once mem (by rw [slot, len]; exact inside)
  rw [slot, getElem?_eq_getElem below, Option.some.injEq] at written
  simp only [get_eq_getElem]
  rw [written]
  exact value

/-! ## Splitting a batch -/

def firsts : List (α ⊕ β) → List ι → List ι
  | .inl _ :: es, c :: cs => c :: firsts es cs
  | .inr _ :: es, _ :: cs => firsts es cs
  | _, _ => []

def seconds : List (α ⊕ β) → List ι → List ι
  | .inl _ :: es, _ :: cs => seconds es cs
  | .inr _ :: es, c :: cs => c :: seconds es cs
  | _, _ => []

/-- The elements of the second kind replaced by the given ones, in order. -/
def weave : List (α ⊕ β) → List α → List α
  | .inl a :: es, as => a :: weave es as
  | .inr _ :: es, a :: as => a :: weave es as
  | _, _ => []

theorem firsts_append_seconds {R : α ⊕ β → ι → Prop} (h : Forall₂ R es items) :
    (firsts es items ++ seconds es items).Perm items := by
  induction h with
  | nil => exact .nil
  | @cons e c es cs _ _ ih =>
    cases e with
    | inl a => exact ih.cons c
    | inr b => exact perm_middle.trans (ih.cons c)

theorem forall₂_firsts {R : α ⊕ β → ι → Prop} (h : Forall₂ R es items) :
    Forall₂ (fun a c => R (.inl a) c) (es.filterMap Sum.getLeft?) (firsts es items) := by
  induction h with
  | nil => exact .nil
  | @cons e c es cs first _ ih =>
    cases e with
    | inl a => exact .cons first ih
    | inr b => exact ih

theorem forall₂_seconds {R : α ⊕ β → ι → Prop} (h : Forall₂ R es items) :
    Forall₂ (fun b c => R (.inr b) c) (es.filterMap Sum.getRight?) (seconds es items) := by
  induction h with
  | nil => exact .nil
  | @cons e c es cs first _ ih =>
    cases e with
    | inl a => exact ih
    | inr b => exact .cons first ih

/-- Results for the elements of the second kind, put back in their places. -/
theorem forall₂_weave {R : α ⊕ β → ι → Prop} {S : α → ι → Prop} (left : ∀ a c, R (.inl a) c → S a c)
    (h : Forall₂ R es items) {as : List α} (results : Forall₂ S as (seconds es items)) :
    Forall₂ S (weave es as) items := by
  induction h generalizing as with
  | nil => exact .nil
  | @cons e c es cs first _ ih =>
    cases e with
    | inl a => exact .cons (left a c first) (ih results)
    | inr b =>
      obtain ⟨a, as, head, tail, rfl⟩ := forall₂_cons_right_iff.mp results
      exact .cons head (ih tail)

end Slots
