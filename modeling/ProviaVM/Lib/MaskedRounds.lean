import Mathlib.Data.List.Basic

/-! # Rounds of masked messages among three parties

In a round every party computes a value from its state, masks it with a fresh draw of its own
and one of the party before it, and sends the result to the next party; what it sent and what
it received make its new state. A party knows its own draws and those of the party before it.

Two facts are used for privacy. What a party does in a run depends on its own start, on the
masks it knows and on what it receives (`run_congr`). And with the same start of all parties,
what a party receives leaves no choice for the draws it does not know (`draws_determined`): the
messages are the unknown draws under another name. -/
namespace MaskedRounds

variable {P S V : Type}

structure Round (P S V : Type) where
  value : P → S → V
  update : P → S → V → V → S

/-- Who sends to whom, and how a value is masked by two draws. -/
structure Ring (P V : Type) where
  prev : P → P
  blind : V → V → V → V
  three : ∀ p q, q = p ∨ q = prev p ∨ q = prev (prev p)
  blind_inj : ∀ v r, Function.Injective (blind v r)

variable (R : Ring P V)

/-- What a party sends with the draws `r` of the parties. -/
def sent (round : Round P S V) (r : P → V) (s : P → S) (p : P) : V :=
  R.blind (round.value p (s p)) (r p) (r (R.prev p))

def step (round : Round P S V) (r : P → V) (s : P → S) : P → S := fun p =>
  round.update p (s p) (sent R round r s p) (sent R round r s (R.prev p))

/-- The states after some rounds; `r k` are the draws of round `k`. -/
def run : List (Round P S V) → (Nat → P → V) → (P → S) → P → S
  | [], _, s => s
  | round :: rest, r, s => run rest (fun k => r (k + 1)) (step R round (r 0) s)

def received : List (Round P S V) → (Nat → P → V) → (P → S) → P → List V
  | [], _, _, _ => []
  | round :: rest, r, s, p =>
    sent R round (r 0) s (R.prev p) :: received rest (fun k => r (k + 1)) (step R round (r 0) s) p

variable {R}

@[simp] theorem length_received (rounds : List (Round P S V)) (r : Nat → P → V) (s : P → S)
    (p : P) :
    (received R rounds r s p).length = rounds.length := by
  induction rounds generalizing r s with
  | nil => rfl
  | cons round rest ih => simp [received, ih]

theorem run_append (first second : List (Round P S V)) (r : Nat → P → V) (s : P → S) :
    run R (first ++ second) r s = run R second (fun k => r (first.length + k))
      (run R first r s) := by
  induction first generalizing r s with
  | nil => simp [run]
  | cons round rest ih =>
    rw [List.cons_append, run, ih]
    congr 1
    funext k
    rw [List.length_cons, Nat.add_right_comm]

/-- A party's run depends on its own start, on the draws it knows and on what it receives. -/
theorem run_congr {rounds : List (Round P S V)} {r r' : Nat → P → V} {s s' : P → S} {p : P}
    (start : s p = s' p) (own : ∀ k < rounds.length, r k p = r' k p)
    (before : ∀ k < rounds.length, r k (R.prev p) = r' k (R.prev p))
    (messages : received R rounds r s p = received R rounds r' s' p) :
    run R rounds r s p = run R rounds r' s' p := by
  induction rounds generalizing r r' s s' with
  | nil => exact start
  | cons round rest ih =>
    obtain ⟨now, later⟩ := List.cons.inj messages
    refine ih ?_ (fun k inside => own (k + 1) (Nat.succ_lt_succ inside))
      (fun k inside => before (k + 1) (Nat.succ_lt_succ inside)) later
    have mine : sent R round (r 0) s p = sent R round (r' 0) s' p := by
      rw [sent, sent, start, own 0 (Nat.succ_pos _), before 0 (Nat.succ_pos _)]
    rw [step, step, start, mine, now]

/-- With the same start of all parties, equal messages come from equal draws. -/
theorem draws_determined {rounds : List (Round P S V)} {r r' : Nat → P → V} {s : P → S} {p : P}
    (own : ∀ k < rounds.length, r k p = r' k p)
    (before : ∀ k < rounds.length, r k (R.prev p) = r' k (R.prev p))
    (messages : received R rounds r s p = received R rounds r' s p) :
    ∀ k < rounds.length, r k = r' k := by
  induction rounds generalizing r r' s with
  | nil => exact fun k inside => absurd inside (Nat.not_lt_zero k)
  | cons round rest ih =>
    obtain ⟨now, later⟩ := List.cons.inj messages
    have first : r 0 = r' 0 := by
      -- the party before masks with its own draw, which is known, and with the unknown one
      have unknown : r 0 (R.prev (R.prev p)) = r' 0 (R.prev (R.prev p)) := by
        rw [sent, before 0 (Nat.succ_pos _)] at now
        exact R.blind_inj _ _ now
      funext q
      rcases R.three p q with rfl | rfl | rfl
      · exact own 0 (Nat.succ_pos _)
      · exact before 0 (Nat.succ_pos _)
      · exact unknown
    have rest_same := ih (fun k inside => own (k + 1) (Nat.succ_lt_succ inside))
      (fun k inside => before (k + 1) (Nat.succ_lt_succ inside)) (by rwa [first] at later)
    intro k inside
    rcases k with - | k
    · exact first
    · exact rest_same k (Nat.lt_of_succ_lt_succ inside)

end MaskedRounds
