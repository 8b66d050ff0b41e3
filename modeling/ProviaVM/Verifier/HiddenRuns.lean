import ProviaVM.Lib.Run
import ProviaVM.Verifier.OpeningAccumulator

/-!
In zk mode the claims of a stage wait in the accumulator, in a clear proof they go into the
transcript at once. Both runs open the same names.
-/
namespace ProviaVM.Verifier.VerifierOpeningAccumulator
open Run

variable {F : Type} [Field F] [DecidableEq F] {T G : Type} [Transcript T F G]

/-- The accumulator of a clear proof: nothing is pending. -/
def inClear (acc : VerifierOpeningAccumulator F) : VerifierOpeningAccumulator F :=
  { acc with zkMode := false, pendingClaims := [], pendingClaimIds := [] }

variable (G) in
/-- A hidden run that has left the transcript at `t`, and a clear one: flushing the pending claims
gives its transcript. -/
def Defers (t : T) (h c : VerifierOpeningAccumulator F × T) : Prop :=
  h.1.zkMode = true ∧ h.2 = t ∧ c = (h.1.inClear, (h.1.flushToTranscript G t).2)

variable {t : T} {h c : VerifierOpeningAccumulator F × T}

/-- Which name stands for which does not depend on the mode. -/
theorem populate_inClear (acc : VerifierOpeningAccumulator F) (key : OpeningId) (point : List F) :
    Matches (fun r r' => r.1.zkMode = acc.zkMode ∧ r.1.pendingClaims = acc.pendingClaims ∧
      r' = (r.1.inClear, r.2))
      (orPanic (acc.populateOrAliasOpening key point))
        (orPanic (acc.inClear.populateOrAliasOpening key point)) := by
  have find : acc.inClear.findExistingOpeningAtPoint = acc.findExistingOpeningAtPoint := rfl
  rw [populateOrAliasOpening, populateOrAliasOpening, find]
  cases acc.findExistingOpeningAtPoint key.underlyingPolynomialId point with
  | none => exact .error _
  | some existing =>
    simp only [Option.bind_eq_bind, Option.bind_some, indexOpeningId, List.lookup_cons_self,
      inClear]
    repeat' split
    all_goals first | exact .error _ | exact .ok ⟨rfl, rfl, rfl⟩

theorem appendOne_defers (key : OpeningId) (point : List F) (start : Defers G t h c) :
    Matches (fun h c => Defers G t (h.1, h.2.1) (c.1, c.2.1) ∧
      h.2.2 = c.2.2) (h.1.appendOne G h.2 key point)
      (c.1.appendOne G c.2 key point) := by
  obtain ⟨acc, t'⟩ := h
  obtain ⟨hidden, rfl, rfl⟩ := start
  refine (populate_inClear acc key point).bind ?_
  rintro ⟨a, claim, canonical⟩ _ ⟨mode, pending, rfl⟩
  dsimp only at hidden mode pending
  rw [hidden] at mode
  have flushed : (a.flushToTranscript G t').2 = (acc.flushToTranscript G t').2 := by
    simp only [flushToTranscript, pending]
  cases canonical with
  | false => exact .ok ⟨⟨mode, rfl, by rw [flushed]⟩, rfl⟩
  | true =>
    dsimp only [inClear]
    rw [if_pos rfl, if_pos mode, if_pos rfl]
    refine .ok ⟨⟨mode, rfl, ?_⟩, rfl⟩
    simp [flushToTranscript, pending, inClear]

theorem appendEach_defers (point : List F) (keys : List OpeningId) (start : Defers G t h c) :
    Matches (fun h c => Defers G t (h.1, h.2.1) (c.1, c.2.1) ∧
      h.2.2 = c.2.2) (appendEach G point keys h.1 h.2)
      (appendEach G point keys c.1 c.2) := by
  induction keys generalizing h c with
  | nil => exact .ok ⟨start, rfl⟩
  | cons key keys ih =>
    refine (appendOne_defers key point start).bind fun a b one => (ih one.1).bind fun a' b' rest =>
      ?_
    refine .ok ⟨rest.1, ?_⟩
    rw [one.2, rest.2]

theorem append_defers (op : Append F) (start : Defers G t h c) :
    Matches (Defers G t) (h.1.append G h.2 op) (c.1.append G c.2 op) := by
  cases op with
  | dense polynomials sumcheck point =>
    refine (appendEach_defers point _ start).bind ?_
    rintro a ⟨_, _, _⟩ ⟨⟨mode, kept, ⟨⟩⟩, ⟨⟩⟩
    exact .ok ⟨mode, kept, rfl⟩
  | sparse polynomials sumcheck point =>
    refine Matches.foldlM (fun label a b next => ?_) polynomials start
    refine (appendOne_defers (.Committed label sumcheck) point next).bind ?_
    rintro a ⟨_, _, _⟩ ⟨⟨mode, kept, ⟨⟩⟩, ⟨⟩⟩
    exact .ok ⟨mode, kept, rfl⟩
  | virt polynomial sumcheck point =>
    exact (appendOne_defers _ point start).bind fun a b one => .ok one.1

/-- A hidden run fails exactly where a clear one does, and else leaves the transcript alone, opens
the same names at the same points with the same claims and instances, and has pending what the clear
run has put into the transcript. -/
theorem hidden_run_defers (acc : VerifierOpeningAccumulator F) (t : T) (ops : List (Append F)) :
    let hidden := { acc with zkMode := true }.appendAll G t ops
    hidden.map Prod.snd = hidden.map (fun _ => t) ∧
      acc.inClear.appendAll G (acc.flushToTranscript G t).2 ops =
      hidden.map fun r => (r.1.inClear, (r.1.flushToTranscript G t).2) := by
  intro hidden
  have run :
      Matches (Defers G t) hidden (acc.inClear.appendAll G (acc.flushToTranscript G t).2 ops) :=
    Matches.foldlM (fun op _ _ => append_defers op) ops ⟨rfl, rfl, rfl⟩
  generalize hidden = x, acc.inClear.appendAll G (acc.flushToTranscript G t).2 ops = y at run ⊢
  cases run with
  | error e => exact ⟨rfl, rfl⟩
  | ok related => exact ⟨congrArg _ related.2.1, congrArg _ related.2.2⟩

end ProviaVM.Verifier.VerifierOpeningAccumulator
