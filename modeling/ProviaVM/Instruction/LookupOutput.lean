import ProviaVM.Instruction.LookupIndex

/-! # The lookup outputs of a trace

`compute_lookup_outputs` of `provia-worker/src/zkvm/witness.rs`: the cycles that have a
lookup table are grouped by instruction, in the order in which the instructions are first
seen; each group is evaluated, each result goes back to the position of its cycle, and
the futures of all positions are then fulfilled. What one cycle's query does is a
parameter. A batch evaluates its cycles together; here they are evaluated one after the
other, which changes only which coins each of them draws. -/
namespace ProviaVM.Instruction
open Preprocessing Rep3 List

def InstructionKind.hasLookupTable : InstructionKind → Bool
  | .NoOp | .ECALL | .FENCE | .LD | .SD | .VirtualLW | .VirtualSW => false
  | _ => true

/-- The keys of `disc_to_group` in the order of their group numbers. -/
def firstSeen : List InstructionKind → List InstructionKind
  | [] => []
  | k :: rest => k :: (firstSeen rest).filter (· ≠ k)

/-- The positions of the trace in the order in which `ops_by_instruction` holds them. -/
def groupOrder (kinds : List InstructionKind) : List Nat :=
  (firstSeen (kinds.filter (·.hasLookupTable))).flatMap fun k =>
    (List.range kinds.length).filter fun i => kinds[i]? = some k

section Trace

variable {F : Type} [CommRing F] {x : Xlen}

abbrev TraceCycle (x : Xlen) := InstructionKind × Rep3Cycle x

/-- `to_lookup_output_batched` on one cycle: the instruction may have to be put together by
circuits. -/
abbrev OutputQuery (F : Type) [Ring F] (x : Xlen) := InstructionKind → Rep3Cycle x → Mpc F
    (Option (FutureRep3Ring F x.bits))

def evaluateGroups (query : OutputQuery F x) (cycles : List (TraceCycle x)) :
    List Nat → List (FutureRep3Ring F x.bits) → Mpc F (Option (List (FutureRep3Ring F x.bits)))
  | [], futures => pure (some futures)
  | i :: rest, futures =>
    match cycles[i]? with
    | none => pure none
    | some (k, s) => do
      match ← query k s with
      | none => pure none
      | some future => evaluateGroups query cycles rest (futures.set i future)

def computeLookupOutputs (query : OutputQuery F x) (cycles : List (TraceCycle x)) :
    Mpc F (Option (List (View F))) := do
  let zero : FutureRep3Ring F x.bits := .ready fun _ => ⟨0, 0⟩
  match ← evaluateGroups query cycles (groupOrder (cycles.map Prod.fst))
    (List.replicate cycles.length zero) with
  | none => pure none
  | some futures => do
    let shares ← futures.mapM FutureRep3Ring.fulfill
    return some shares

variable {kinds : List InstructionKind} {k : InstructionKind} {i : Nat}

theorem mem_firstSeen (h : k ∈ kinds) : k ∈ firstSeen kinds := by
  induction kinds with
  | nil => cases h
  | cons head rest ih =>
    rw [firstSeen, mem_cons]
    by_cases same : k = head
    · exact .inl same
    · have inRest := ih (mem_of_ne_of_mem same h)
      exact .inr (mem_filter.mpr ⟨inRest, decide_eq_true same⟩)

theorem mem_groupOrder (found : kinds[i]? = some k) (table : k.hasLookupTable = true) :
    i ∈ groupOrder kinds := by
  refine mem_flatMap.mpr ⟨k, mem_firstSeen ?_, ?_⟩
  · exact mem_filter.mpr ⟨mem_of_getElem? found, table⟩
  · exact mem_filter.mpr
      ⟨mem_range.mpr (List.getElem?_eq_some_iff.mp found).1, decide_eq_true found⟩

theorem lt_of_mem_groupOrder (h : i ∈ groupOrder kinds) : i < kinds.length := by
  obtain ⟨k, -, inGroup⟩ := mem_flatMap.mp h
  exact mem_range.mp (mem_filter.mp inGroup).1

/-- The future of one position: what its query returned if the position was visited. -/
theorem evaluateGroups_spec {query : OutputQuery F x} {cycles : List (TraceCycle x)}
    {s : Rep3Cycle x} {P : FutureRep3Ring F x.bits → Prop} (found : cycles[i]? = some (k, s))
    (runs : ∀ c ∈ cycles, Ensures (fun future => future.isSome) (query c.1 c.2))
    (one : Ensures (fun future => ∀ f ∈ future, P f) (query k s)) :
    ∀ {order : List Nat} {futures : List (FutureRep3Ring F x.bits)},
      (∀ j ∈ order, j < cycles.length) →
      futures.length = cycles.length → (i ∉ order → ∃ f, futures[i]? = some f ∧ P f) →
      Ensures (fun out => ∃ futures, out = some futures ∧ futures.length = cycles.length ∧
        ∃ f, futures[i]? = some f ∧ P f) (evaluateGroups query cycles order futures)
  | [], futures, _, len, done => Ensures.pure ⟨futures, rfl, len, done (by simp)⟩
  | j :: rest, futures, inside, len, done => by
    have bound := inside j (mem_cons_self ..)
    obtain ⟨⟨kind, cycle⟩, at_j⟩ : ∃ c, cycles[j]? = some c := ⟨_, getElem?_eq_getElem bound⟩
    rw [evaluateGroups, at_j]
    have result :
        Ensures (fun future => ∃ f, future = some f ∧ (j = i → P f)) (query kind cycle) := by
      intro coins
      obtain ⟨f, same⟩ := Option.isSome_iff_exists.mp (runs _ (mem_of_getElem? at_j) coins)
      refine ⟨f, same, fun here => ?_⟩
      cases here
      cases Option.some.inj (at_j.symm.trans found)
      exact one coins f same
    refine Ensures.bind result fun future ⟨f, same, good⟩ => ?_
    rw [same]
    refine evaluateGroups_spec found runs one (fun m later => inside m (mem_cons_of_mem _ later))
      (by simp [len]) fun notLater => ?_
    by_cases here : j = i
    · exact ⟨f, by rw [here, getElem?_set_self (by omega)], good here⟩
    · rw [getElem?_set_ne here]
      exact done fun visited => (mem_cons.mp visited).elim (fun same => here same.symm) notLater

/-- Fulfilling all futures fulfils the future of each position. -/
theorem mapM_fulfill {P : View F → Prop} {f : FutureRep3Ring F x.bits} (one : Ensures P f.fulfill) :
    ∀ {futures : List (FutureRep3Ring F x.bits)} {i : Nat}, futures[i]? = some f →
      Ensures (fun shares => ∃ v, shares[i]? = some v ∧ P v) (futures.mapM FutureRep3Ring.fulfill)
  | head :: rest, 0, found => by
    cases found
    rw [mapM_cons]
    exact Ensures.bind one fun v good => Ensures.after fun vs =>
      Ensures.pure ⟨v, rfl, good⟩
  | head :: rest, i + 1, found => by
    rw [mapM_cons]
    exact Ensures.after fun _ => Ensures.bind (mapM_fulfill one found)
      fun vs ⟨v, at_i, good⟩ => Ensures.pure ⟨v, at_i, good⟩

/-- The share at a position opens to what the future of its own cycle stands for, whatever the
other cycles of the trace are. -/
theorem computeLookupOutputs_spec {query : OutputQuery F x} {cycles : List (TraceCycle x)}
    {s : Rep3Cycle x} {value : F} (found : cycles[i]? = some (k, s))
    (table : k.hasLookupTable = true)
    (runs : ∀ c ∈ cycles, Ensures (fun future => future.isSome) (query c.1 c.2))
    (one : Ensures (fun future => ∀ f ∈ future, f.StandsFor value) (query k s)) :
    Ensures (fun out => ∃ shares v, out = some shares ∧ shares[i]? = some v ∧ SumShares v value)
      (computeLookupOutputs query cycles) := by
  have visited : i ∈ groupOrder (cycles.map Prod.fst) :=
    mem_groupOrder (by rw [getElem?_map, found]; rfl) table
  refine Ensures.bind (evaluateGroups_spec found runs one (fun j inside => ?_) length_replicate
    fun absent => absurd visited absent) fun out ⟨futures, same, _, f, at_i, stands⟩ => ?_
  · simpa using lt_of_mem_groupOrder inside
  · rw [same]
    exact Ensures.bind (mapM_fulfill (FutureRep3Ring.fulfill_spec stands) at_i) fun shares ⟨v,
      at_i, opens⟩ =>
      Ensures.pure ⟨shares, v, rfl, at_i, opens⟩

end Trace

/-- The numbers below `2 ^ 64` are different field elements. -/
def LargeField (F : Type) [CommRing F] : Prop :=
  ∀ m n : Nat, m < 2 ^ 64 → n < 2 ^ 64 → (m : F) = (n : F) → m = n

theorem largeField_int : LargeField Int := fun _ _ _ _ same => Int.ofNat.inj same

theorem Xlen.cut_of_lt {x : Xlen} {v : BitVec 64} (small : v.toNat < 2 ^ x.bits) : x.cut v = v := by
  simp [Xlen.cut, setWidth_cut small]

end ProviaVM.Instruction
