import Mathlib.Data.List.Basic

/-! # Runs of a fallible step function and prefixes of a write log

`run` executes a list of operations until one fails. `AllSteps` says that a
condition on the state and the operation holds at every step the run takes.
`applyAll` replays a log of writes; the prefix rule is the induction behind every
statement about a crash in the middle of the log. -/
namespace Run
open List Option

variable {σ ω ε : Type}

/-- Execute the operations in order; the first failure ends the run. -/
def run (step : σ → ω → Except ε σ) : σ → List ω → Except ε σ
  | s, [] => .ok s
  | s, o :: os =>
    match step s o with
    | .ok s' => run step s' os
    | .error e => .error e

/-- `good` holds at every step of the run from `s`. -/
def AllSteps (step : σ → ω → Except ε σ) (good : σ → ω → Prop) : σ → List ω → Prop
  | _, [] => True
  | s, o :: os => good s o ∧ ∀ s', step s o = .ok s' → AllSteps step good s' os

variable {step : σ → ω → Except ε σ} {s s' : σ} {os : List ω} {inv : σ → Prop} {α β : Type}
  {xs : List α} {ys : List β} {f : α → Option β} {γ : Type}

theorem run_cons {o : ω} (h : run step s (o :: os) = .ok s') :
    ∃ next, step s o = .ok next ∧ run step next os = .ok s' := by
  simp only [run] at h
  cases first : step s o with
  | error e => simp [first] at h
  | ok next => exact ⟨next, rfl, by simpa [first] using h⟩

/-- An invariant that every good step keeps holds at the end of a run of good steps. -/
theorem run_invariant {good : σ → ω → Prop}
    (keeps : ∀ s o s', good s o → inv s → step s o = .ok s' → inv s') {s s' : σ} {os : List ω}
    (allGood : AllSteps step good s os) (start : inv s) (h : run step s os = .ok s') : inv s' := by
  induction os generalizing s with
  | nil =>
    simp only [run, Except.ok.injEq] at h
    exact h ▸ start
  | cons o os ih =>
    obtain ⟨next, first, rest⟩ := run_cons h
    exact ih (allGood.2 next first) (keeps s o next allGood.1 start first) rest

/-- What every step keeps, a run keeps. -/
theorem run_keeps (keeps : ∀ s o s', inv s → step s o = .ok s' → inv s') {s s' : σ} {os : List ω}
    (start : inv s) (h : run step s os = .ok s') : inv s' := by
  induction os generalizing s with
  | nil =>
    cases h
    exact start
  | cons o os ih =>
    obtain ⟨next, first, rest⟩ := run_cons h
    exact ih (keeps s o next start first) rest

theorem bind_ok {x : Except ε α} {f : α → Except ε β} {r : β} :
    (x >>= f) = .ok r ↔ ∃ a, x = .ok a ∧ f a = .ok r := by
  cases x with
  | error e =>
    constructor
    · intro h
      cases h
    · rintro ⟨a, h, -⟩
      cases h
  | ok a =>
    constructor
    · intro h
      exact ⟨a, rfl, h⟩
    · rintro ⟨b, hb, h⟩
      cases hb
      exact h

theorem bind_error {x : Except ε α} {f : α → Except ε β} {e : ε} :
    (x >>= f) = .error e ↔ x = .error e ∨ ∃ a, x = .ok a ∧ f a = .error e := by
  cases x <;> simp [bind, Except.bind]

/-- The same failure, or related results. -/
inductive Matches (R : α → β → Prop) : Except ε α → Except ε β → Prop
  | ok {a : α} {b : β} : R a b → Matches R (.ok a) (.ok b)
  | error (e : ε) : Matches R (.error e) (.error e)

theorem Matches.bind {γ δ : Type} {R : α → β → Prop} {S : γ → δ → Prop} {x : Except ε α}
    {y : Except ε β} {f : α → Except ε γ} {g : β → Except ε δ} (h : Matches R x y)
    (rest : ∀ a b, R a b → Matches S (f a) (g b)) : Matches S (x >>= f) (y >>= g) := by
  cases h with
  | ok related => exact rest _ _ related
  | error e => exact .error e

theorem Matches.foldlM {R : α → β → Prop} {f : α → ω → Except ε α} {g : β → ω → Except ε β}
    (step : ∀ o a b, R a b → Matches R (f a o) (g b o)) (os : List ω) {a : α} {b : β}
    (start : R a b) :
    Matches R (os.foldlM f a) (os.foldlM g b) := by
  induction os generalizing a b with
  | nil => exact .ok start
  | cons o os ih => exact (step o a b start).bind fun a b => ih

theorem exists_ok_of_isOk {x : Except ε α} (h : x.isOk = true) : ∃ a, x = .ok a := by
  cases x with
  | error e => cases h
  | ok a => exact ⟨a, rfl⟩

/-- A fallible map that succeeds is the pure map of what each success computes. -/
theorem mapM_ok {f : α → Except ε β} {g : α → β} (each : ∀ x ∈ xs, ∀ y, f x = .ok y → y = g x)
    (h : xs.mapM f = .ok ys) : ys = xs.map g := by
  induction xs generalizing ys with
  | nil =>
    cases h
    rfl
  | cons x xs ih =>
    rw [mapM_cons] at h
    obtain ⟨y, first, h⟩ := bind_ok.mp h
    obtain ⟨rest, tail, last⟩ := bind_ok.mp h
    cases last
    rw [each x mem_cons_self y first,
      ih (fun x' member => each x' (mem_cons_of_mem _ member)) tail]
    rfl

/-- A fallible map succeeds exactly when it does on every element. -/
theorem mapM_isOk_iff {f : α → Except ε β} :
    (∃ ys, xs.mapM f = .ok ys) ↔ ∀ x ∈ xs, ∃ y, f x = .ok y := by
  induction xs with
  | nil => exact ⟨fun _ _ member => (not_mem_nil member).elim, fun _ => ⟨[], rfl⟩⟩
  | cons x xs ih =>
    rw [forall_mem_cons, ← ih]
    constructor
    · rintro ⟨ys, h⟩
      rw [mapM_cons] at h
      obtain ⟨y, first, h⟩ := bind_ok.mp h
      obtain ⟨rest, tail, -⟩ := bind_ok.mp h
      exact ⟨⟨y, first⟩, ⟨rest, tail⟩⟩
    · rintro ⟨⟨y, first⟩, rest, tail⟩
      refine ⟨y :: rest, ?_⟩
      rw [mapM_cons]
      exact bind_ok.mpr ⟨y, first, bind_ok.mpr ⟨rest, tail, rfl⟩⟩

/-- `mapM` succeeds when every element does; `R` relates the elements to those of a list `es` that
describes them. -/
theorem mapM_forall₂ {R : γ → α → Prop} {S : γ → β → Prop} {es : List γ} (related : Forall₂ R es xs)
    (step : ∀ e ∈ es, ∀ x, R e x → ∃ y, f x = some y ∧ S e y) :
    ∃ ys, xs.mapM f = some ys ∧ Forall₂ S es ys := by
  induction related with
  | nil => exact ⟨[], rfl, .nil⟩
  | @cons e x es xs head _ ih =>
    obtain ⟨y, made, good⟩ := step e mem_cons_self x head
    obtain ⟨ys, rest, all⟩ := ih fun e mem => step e (mem_cons_of_mem _ mem)
    exact ⟨y :: ys, by simp [made, rest], .cons good all⟩

theorem mapM_some {g : α → β} (each : ∀ x ∈ xs, f x = some (g x)) :
    xs.mapM f = some (xs.map g) := by
  induction xs with
  | nil => rfl
  | cons x xs ih =>
    rw [mapM_cons, each x (by simp), ih fun x member => each x (by simp [member])]
    rfl

theorem forall₂_of_mapM (h : xs.mapM f = some ys) : Forall₂ (fun x y => f x = some y) xs ys := by
  induction xs generalizing ys with
  | nil =>
    cases h
    exact .nil
  | cons x xs ih =>
    rw [mapM_cons] at h
    obtain ⟨y, first, h⟩ := bind_eq_some_iff.mp h
    obtain ⟨rest, later, h⟩ := bind_eq_some_iff.mp h
    cases h
    exact .cons first (ih later)

/-- A partial map succeeds on a list on which a map with a smaller domain does. -/
theorem mapM_of_mapM {g : α → Option γ} (wider : ∀ x y, f x = some y → ∃ z, g x = some z)
    (h : xs.mapM f = some ys) :
    ∃ zs, xs.mapM g = some zs := by
  have each := forall₂_of_mapM h
  clear h
  induction each with
  | nil => exact ⟨[], rfl⟩
  | cons first _ ih =>
    obtain ⟨z, here⟩ := wider _ _ first
    obtain ⟨zs, there⟩ := ih
    exact ⟨z :: zs, by simp [here, there]⟩

theorem exists_of_forall₂ {R : γ → α → Prop} {es : List γ} (related : Forall₂ R es xs) {e : γ}
    (member : e ∈ es) :
    ∃ x ∈ xs, R e x := by
  induction related with
  | nil => cases member
  | @cons _ x _ _ head _ ih =>
    rcases mem_cons.mp member with rfl | rest
    · exact ⟨x, mem_cons_self, head⟩
    · obtain ⟨y, inside, h⟩ := ih rest
      exact ⟨y, mem_cons_of_mem _ inside, h⟩

/-- Invariant rule for a fallible fold; the invariant may speak of what is still to come. -/
theorem foldlM_invariant {f : σ → ω → Except ε σ} (inv : List ω → σ → Prop)
    (keeps : ∀ x xs s s', inv (x :: xs) s → f s x = .ok s' → inv xs s') {xs : List ω}
    (start : inv xs s) (h : xs.foldlM f s = .ok s') : inv [] s' := by
  induction xs generalizing s with
  | nil =>
    cases h
    exact start
  | cons x xs ih =>
    obtain ⟨next, first, rest⟩ := bind_ok.mp h
    exact ih (keeps x xs s next start first) rest

def applyAll (apply : σ → ω → σ) (s : σ) (log : List ω) : σ := log.foldl apply s

@[simp] theorem applyAll_nil (apply : σ → ω → σ) (s : σ) : applyAll apply s [] = s := rfl

@[simp] theorem applyAll_append (apply : σ → ω → σ) (s : σ) (xs ys : List ω) :
    applyAll apply s (xs ++ ys) = applyAll apply (applyAll apply s xs) ys := by
  simp [applyAll]

/-- What every write of a log keeps, the whole log keeps. -/
theorem applyAll_invariant {apply : σ → ω → σ} {log : List ω}
    (keeps : ∀ w ∈ log, ∀ s, inv s → inv (apply s w)) (start : inv s) :
    inv (applyAll apply s log) := by
  induction log generalizing s with
  | nil => exact start
  | cons w log ih =>
    apply ih
    · intro w' member s'
      exact keeps w' (mem_cons_of_mem _ member) s'
    · exact keeps w mem_cons_self s start

end Run
