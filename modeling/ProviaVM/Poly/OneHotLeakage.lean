import ProviaVM.Lib.Uniform
import ProviaVM.Poly.OneHot

/-! # What the opened indices reveal

With uniform masks, the indices that `from_indices` opens for a family of polynomials
reveal the differences of two active indices of one polynomial in the same slot, and
nothing else. -/
namespace ProviaVM.Poly
open Preprocessing Rep3 Uniform List Option BitVec

/-- Two values under one mask show their difference. -/
theorem xor_cancel_mask {w : Nat} (a b mask : BitVec w) :
    (a ^^^ mask) ^^^ (b ^^^ mask) = a ^^^ b := by
  rw [BitVec.xor_comm b, BitVec.xor_assoc, ← BitVec.xor_assoc mask mask, BitVec.xor_self,
    BitVec.zero_xor]

section Masked

variable {w rotationCount : Nat} {mask : Nat → BitVec w}

/-- Cycle by cycle: an active index is opened under the mask of its slot. -/
theorem getElem?_maskedIndices (mask : Nat → BitVec w) :
    ∀ (ordinal : Nat) (ks : List (Option (BitVec w))) (j : Nat),
    (maskedIndices rotationCount mask ordinal ks)[j]? =
      ks[j]?.map fun k => k.map fun v => v ^^^ mask ((ordinal + activeOrdinal ks j) % rotationCount)
  | _, [], _ => rfl
  | ordinal, none :: rest, 0 => rfl
  | ordinal, some k :: rest, 0 => rfl
  | ordinal, none :: rest, j + 1 => by
    have tail := getElem?_maskedIndices mask ordinal rest j
    simpa [maskedIndices, activeOrdinal] using tail
  | ordinal, some k :: rest, j + 1 => by
    have tail := getElem?_maskedIndices mask (ordinal + 1) rest j
    simp only [maskedIndices, getElem?_cons_succ, tail]
    have shifted : activeOrdinal (some k :: rest) (j + 1) = activeOrdinal rest j + 1 := by
      simp [activeOrdinal]
    rw [shifted, Nat.add_assoc, Nat.add_comm 1]

def inSlot (slot : Nat) (opened : List (Option (BitVec w))) (slots : List (Option Nat)) :
    List (BitVec w) :=
  (opened.zip slots).filterMap fun c => if c.2 = some slot then c.1 else none

/-- They depend on the mask of that slot only. -/
theorem inSlot_maskedIndices {mask' : Nat → BitVec w} {slot : Nat} (same : mask slot = mask' slot) :
    ∀ (ordinal : Nat) (ks : List (Option (BitVec w))),
      inSlot slot (maskedIndices rotationCount mask ordinal ks) (slotsOf rotationCount ordinal ks) =
        inSlot slot (maskedIndices rotationCount mask' ordinal ks)
          (slotsOf rotationCount ordinal ks)
  | _, [] => rfl
  | ordinal, none :: rest => by
    have tail := inSlot_maskedIndices same ordinal rest
    simpa [inSlot, maskedIndices, slotsOf] using tail
  | ordinal, some k :: rest => by
    have tail := inSlot_maskedIndices same (ordinal + 1) rest
    by_cases own : ordinal % rotationCount = slot
    · simpa [inSlot, maskedIndices, slotsOf, own, same] using tail
    · simpa [inSlot, maskedIndices, slotsOf, own] using tail

end Masked

/-- Active indices of one polynomial in the same slot have the same difference in both families. -/
def SameDifferences {w : Nat} (rotationCount : Nat)
    (first second : List (List (Option (BitVec w)))) : Prop :=
  ∀ (d j j' : Nat) (ks ls : List (Option (BitVec w))) (k k' l l' : BitVec w), first[d]? = some ks →
    second[d]? = some ls →
    ks[j]? = some (some k) → ks[j']? = some (some k') → ls[j]? = some (some l) →
      ls[j']? = some (some l') →
    activeOrdinal ks j % rotationCount = activeOrdinal ks j' % rotationCount → k ^^^ k' = l ^^^ l'

/-- The same cycles are active, which is public. -/
def SamePattern {w : Nat} (first second : List (List (Option (BitVec w)))) : Prop :=
  first.map (·.map Option.isSome) = second.map (·.map Option.isSome)

/-- The place in the pool of the mask of slot `g.2` of polynomial `g.1`. -/
def maskPosition (cursor rotationCount : Nat) (g : Nat × Nat) : Nat :=
  cursor + g.1 * rotationCount + g.2

theorem maskPosition_inj {cursor rotationCount d d' slot slot' : Nat}
    (inside : slot < rotationCount) (inside' : slot' < rotationCount)
    (same : maskPosition cursor rotationCount (d, slot) =
      maskPosition cursor rotationCount (d', slot')) :
    d = d' ∧ slot = slot' := by
  have equal : d * rotationCount + slot = d' * rotationCount + slot' := by
    simp only [maskPosition] at same
    omega
  have polynomial : d = d' := by
    have quotient := congrArg (· / rotationCount) equal
    simpa [Nat.add_comm, Nat.add_mul_div_right _ _ (show 0 < rotationCount by omega),
      Nat.div_eq_of_lt inside, Nat.div_eq_of_lt inside'] using quotient
  subst polynomial
  exact ⟨rfl, by omega⟩

def openedFamily {w : Nat} (cursor rotationCount : Nat) (mask : Nat → BitVec w)
    (secrets : List (List (Option (BitVec w)))) :
    List (List (Option (BitVec w))) :=
  secrets.mapIdx fun d ks =>
    maskedIndices rotationCount (fun slot => mask (maskPosition cursor rotationCount (d, slot)))
    0 ks

section Family

variable {w cursor rotationCount : Nat} {first second : List (List (Option (BitVec w)))}

theorem SamePattern.getElem? (h : SamePattern first second) {d : Nat}
    {ks : List (Option (BitVec w))} (found : first[d]? = some ks) :
    ∃ ls, second[d]? = some ls ∧ ks.map Option.isSome = ls.map Option.isSome := by
  have at_d := congrArg (·[d]?) h
  simp only [getElem?_map, found] at at_d
  obtain ⟨ls, other, same⟩ := map_eq_some_iff.mp at_d.symm
  exact ⟨ls, other, same.symm⟩

theorem activeOrdinal_congr {ks ls : List (Option (BitVec w))}
    (h : ks.map Option.isSome = ls.map Option.isSome) (j : Nat) :
    activeOrdinal ks j = activeOrdinal ls j := by
  have counted : ∀ l : List (Option (BitVec w)),
      activeOrdinal l j = ((l.map Option.isSome).take j).countP id := by
    intro l
    rw [← map_take, countP_map]
    rfl
  rw [counted, counted, h]

/-- Two families are opened to the same values under masks that differ by the differences of the
indices. -/
theorem openedFamily_shift {mask mask' : Nat → BitVec w} (pattern : SamePattern first second)
    (shift : ∀ (d j : Nat) (ks ls : List (Option (BitVec w))) (k l : BitVec w),
      first[d]? = some ks → second[d]? = some ls →
      ks[j]? = some (some k) → ls[j]? = some (some l) →
      k ^^^ mask (maskPosition cursor rotationCount (d, activeOrdinal ks j % rotationCount)) =
      l ^^^ mask' (maskPosition cursor rotationCount (d, activeOrdinal ks j % rotationCount))) :
    openedFamily cursor rotationCount mask first =
      openedFamily cursor rotationCount mask' second := by
  have length : first.length = second.length := by simpa using congrArg List.length pattern
  apply ext_getElem?
  intro d
  rw [openedFamily, openedFamily, getElem?_mapIdx, getElem?_mapIdx]
  cases atFirst : first[d]? with
  | none =>
    have outside := List.getElem?_eq_none_iff.mp atFirst
    rw [List.getElem?_eq_none (by omega)]
    rfl
  | some ks =>
    obtain ⟨ls, atSecond, same⟩ := pattern.getElem? atFirst
    rw [atSecond, Option.map_some, Option.map_some, Option.some.injEq]
    apply ext_getElem?
    intro j
    rw [getElem?_maskedIndices, getElem?_maskedIndices, ← activeOrdinal_congr same, Nat.zero_add]
    have at_j := congrArg (·[j]?) same
    match atK : ks[j]?, atL : ls[j]? with
    | none, none => rfl
    | some none, some none => rfl
    | some (some k), some (some l) =>
      simp only [Option.map_some, Option.some.injEq]
      exact shift d j ks ls k l atFirst atSecond atK atL
    | none, some _ | some _, none | some none, some (some _) | some (some _), some none =>
      simp [atK, atL] at at_j

/-- The value opened for an active cycle. -/
theorem openedFamily_active (cursor rotationCount : Nat) (mask : Nat → BitVec w)
    {secrets : List (List (Option (BitVec w)))} {d j : Nat} {ks : List (Option (BitVec w))}
    {k : BitVec w} (family : secrets[d]? = some ks) (active : ks[j]? = some (some k)) :
    ∃ cs, (openedFamily cursor rotationCount mask secrets)[d]? = some cs ∧
      cs[j]? =
        some
        (some (k ^^^ mask (maskPosition cursor rotationCount (d,
        activeOrdinal ks j % rotationCount)))) := by
  refine ⟨_, by rw [openedFamily, getElem?_mapIdx, family]; rfl, ?_⟩
  rw [getElem?_maskedIndices, active, Nat.zero_add]
  rfl

end Family

section Leakage

variable {F : Type} {n cursor rotationCount : Nat}

/-- The choice of a mask for every entry of a pool of `n` entries: four bits each. -/
abbrev Masks (n : Nat) := Fin n → BitVec 4

def Masks.at (m : Masks n) (i : Nat) : BitVec 4 := if h : i < n then m ⟨i, h⟩ else 0

/-- A pool for every choice of the masks: any sharing of them, with the cursor at `cursor`. -/
structure MaskedPool (F : Type) (n cursor : Nat) where
  pool : Masks n → RandOhvPool F
  total : ∀ m, (pool m).total = n
  start : ∀ m, (pool m).cursor = cursor
  shares : ∀ m, ∀ i < n, XorShares ((pool m).r i) ((m.at i).setWidth 8)

def widen (ks : List (Option (BitVec 4))) : List (Option (BitVec 8)) :=
  ks.map (Option.map (BitVec.setWidth 8))

/-- The parties hold sharings of the indices of all polynomials. -/
def FamilyShares (family : List (List (Option (View (BitVec 8)))))
    (secrets : List (List (Option (BitVec 4)))) : Prop :=
  List.Forall₂ (List.Forall₂ IndexShares) family (secrets.map widen)

/-- The opened indices of all polynomials, as each party sees them. -/
def openedIndices (built : Option (List (Rep3OneHotPolynomial F) × RandOhvPool F)) :
    Option (List (PartyID → List (Option (BitVec 8)))) :=
  built.map fun b => b.1.map (·.maskedIndicesC)

/-- The opened indices of one slot of one polynomial, as each party sees them. -/
def openedSlot (built : Option (List (Rep3OneHotPolynomial F) × RandOhvPool F)) (d slot : Nat)
    (p : PartyID) :
    Option (List (BitVec 8)) := do
  let b ← built
  let poly ← b.1[d]?
  return inSlot slot (poly.maskedIndicesC p) poly.rotationSlotByCycle

theorem maskedIndices_widen (mask : Nat → BitVec 4) :
    ∀ (ordinal : Nat) (ks : List (Option (BitVec 4))),
    maskedIndices rotationCount (fun slot => (mask slot).setWidth 8) ordinal (widen ks) =
      widen (maskedIndices rotationCount mask ordinal ks)
  | _, [] => rfl
  | ordinal, none :: rest => by
    have tail := maskedIndices_widen mask ordinal rest
    simpa [widen, maskedIndices] using tail
  | ordinal, some k :: rest => by
    have tail := maskedIndices_widen mask (ordinal + 1) rest
    simpa [widen, maskedIndices, setWidth_xor] using tail

theorem widen_injective : Function.Injective widen := by
  refine map_injective_iff.mpr (map_injective fun a b same => ?_)
  have low := congrArg (BitVec.setWidth 4) same
  simpa using low

variable {family : List (List (Option (View (BitVec 8))))}
  {secrets : List (List (Option (BitVec 4)))}

/-- Each polynomial of a run opens its indices under its own batch of masks. -/
theorem MaskedPool.run (pools : MaskedPool F n cursor) (positive : 0 < rotationCount)
    (enough : cursor + secrets.length * rotationCount ≤ n) (h : FamilyShares family secrets)
    (m : Masks n) :
    ∃ polys next, fromIndicesAll rotationCount randOhvK family (pools.pool m) = some (polys, next) ∧
      polys.length = secrets.length ∧
      ∀ {d poly ks}, polys[d]? = some poly → secrets[d]? = some ks →
        BuiltFrom rotationCount (pools.pool m) (fun i => (m.at i).setWidth 8)
          (cursor + d * rotationCount) poly (widen ks) := by
  obtain ⟨polys, run, len, built⟩ :=
    @fromIndicesAll_spec _ _ (fun i => (m.at i).setWidth 8) positive _ _
    (pools.pool m) (fun i inside => pools.shares m i (pools.total m ▸ inside))
    (by rw [pools.total, pools.start, length_map]; exact enough) h
  refine ⟨polys, _, run, by simp [len], fun {d poly ks} atPoly atKs => ?_⟩
  have one := built atPoly (by rw [getElem?_map, atKs]; rfl)
  rwa [pools.start m] at one

/-- What is opened depends on the secrets only through the masked indices, slot by slot. -/
theorem MaskedPool.openedIndices (pools : MaskedPool F n cursor) (positive : 0 < rotationCount)
    (enough : cursor + secrets.length * rotationCount ≤ n) (h : FamilyShares family secrets)
    (m : Masks n) :
    openedIndices (fromIndicesAll rotationCount randOhvK family (pools.pool m)) =
      some ((openedFamily cursor rotationCount m.at secrets).map fun cs _ => widen cs) := by
  obtain ⟨polys, next, run, len, built⟩ := pools.run positive enough h m
  rw [run]
  refine congrArg some (ext_getElem? fun d => ?_)
  rw [getElem?_map, getElem?_map, openedFamily, getElem?_mapIdx]
  cases atKs : secrets[d]? with
  | none =>
    have outside := List.getElem?_eq_none_iff.mp atKs
    rw [List.getElem?_eq_none (show polys.length ≤ d by omega)]
    rfl
  | some ks =>
    have bound : d < polys.length := len ▸ (List.getElem?_eq_some_iff.mp atKs).1
    have one := built (List.getElem?_eq_getElem bound) atKs
    rw [List.getElem?_eq_getElem bound, Option.map_some, Option.map_some, Option.map_some,
      Option.some.injEq]
    funext p
    rw [one.opened p, ← maskedIndices_widen]
    rfl

/-- What is opened in one slot is a function of the mask of that slot. -/
theorem MaskedPool.openedSlot (pools : MaskedPool F n cursor)
    (enough : cursor + secrets.length * rotationCount ≤ n) (h : FamilyShares family secrets)
    {d slot : Nat} (polynomial : d < secrets.length) (inside : slot < rotationCount) :
    ∃ f : BitVec 4 → PartyID → Option (List (BitVec 8)), ∀ m : Masks n,
      openedSlot (fromIndicesAll rotationCount randOhvK family (pools.pool m)) d slot =
        f (m.at (maskPosition cursor rotationCount (d, slot))) := by
  have atKs : secrets[d]? = some secrets[d] := List.getElem?_eq_getElem polynomial
  refine ⟨fun v _ =>
    some (inSlot slot (maskedIndices rotationCount (fun _ => v.setWidth 8) 0 (widen secrets[d]))
    (slotsOf rotationCount 0 (widen secrets[d]))), fun m => funext fun p => ?_⟩
  obtain ⟨polys, next, run, len, built⟩ := pools.run (Nat.zero_lt_of_lt inside) enough h m
  have atPoly : polys[d]? = some polys[d] := List.getElem?_eq_getElem (len ▸ polynomial)
  have one := built atPoly atKs
  rw [Poly.openedSlot, run]
  simp only [bind_eq_bind, bind_some, atPoly, one.opened p, one.slots]
  exact congrArg some (inSlot_maskedIndices (by rfl) 0 _)

/-- Masks are added to the differences of the indices. -/
def Masks.shift (delta : Masks n) : Masks n ≃ Masks n where
  toFun m := fun i => m i ^^^ delta i
  invFun m := fun i => m i ^^^ delta i
  left_inv m := funext fun i => by simp [BitVec.xor_assoc]
  right_inv m := funext fun i => by simp [BitVec.xor_assoc]

/-- A relation with at most one value at each place is the graph of a function where it is
defined. -/
theorem exists_of_functional {α β : Type} [Inhabited β] {r : α → β → Prop}
    (functional : ∀ a b b', r a b → r a b' → b = b') :
    ∃ f : α → β, ∀ a b, r a b → f a = b := by
  classical
  refine ⟨fun a => if h : ∃ b, r a b then h.choose else default, fun a b h => ?_⟩
  have found : ∃ b, r a b := ⟨b, h⟩
  exact (dif_pos found).trans (functional a _ _ found.choose_spec h)

/-- Families with the same differences are opened alike, up to a shift of the masks. -/
theorem SameDifferences.shift {first second : List (List (Option (BitVec 4)))}
    (positive : 0 < rotationCount) (h : SameDifferences rotationCount first second)
    (pattern : SamePattern first second) (enough : cursor + first.length * rotationCount ≤ n) :
    ∃ delta : Masks n, ∀ m : Masks n,
      openedFamily cursor rotationCount (Masks.shift delta m).at second =
        openedFamily cursor rotationCount m.at first := by
  -- the difference of the two indices of any active cycle that uses the mask
  let differs (i : Nat) (v : BitVec 4) : Prop :=
    ∃ (d j : Nat) (ks ls : List (Option (BitVec 4))) (k l : BitVec 4),
    first[d]? = some ks ∧ second[d]? = some ls ∧ ks[j]? = some (some k) ∧ ls[j]? = some (some l) ∧
      i = maskPosition cursor rotationCount (d, activeOrdinal ks j % rotationCount) ∧ v = k ^^^ l
  have functional : ∀ i v v', differs i v → differs i v' → v = v' := by
    rintro i v v' ⟨d, j, ks, ls, k, l, atKs, atLs, atK, atL, place, rfl⟩
      ⟨d', j', ks', ls', k', l', atKs', atLs', atK', atL', place', rfl⟩
    obtain ⟨rfl, slots⟩ :=
      maskPosition_inj (Nat.mod_lt _ positive) (Nat.mod_lt _ positive) (place.symm.trans place')
    cases atKs.symm.trans atKs'
    cases atLs.symm.trans atLs'
    have same := h d j j' ks ls k k' l l' atKs atLs atK atK' atL atL' slots
    calc k ^^^ l = (k ^^^ k') ^^^ (l ^^^ k') := (xor_cancel_mask k l k').symm
      _ = (l' ^^^ l) ^^^ (k' ^^^ l) := by rw [same, BitVec.xor_comm l l', BitVec.xor_comm l k']
      _ = k' ^^^ l' := by rw [xor_cancel_mask, BitVec.xor_comm]
  obtain ⟨delta, graph⟩ := exists_of_functional functional
  refine ⟨fun i => delta i, fun m =>
    (openedFamily_shift pattern fun d j ks ls k l atKs atLs atK atL => ?_).symm⟩
  have value := graph _ _ ⟨d, j, ks, ls, k, l, atKs, atLs, atK, atL, rfl, rfl⟩
  have polynomial : d < first.length := (List.getElem?_eq_some_iff.mp atKs).1
  have bound : maskPosition cursor rotationCount (d, activeOrdinal ks j % rotationCount) < n := by
    have slot := Nat.mod_lt (activeOrdinal ks j) positive
    have batch : (d + 1) * rotationCount ≤ first.length * rotationCount :=
      Nat.mul_le_mul_right _ polynomial
    rw [Nat.succ_mul] at batch
    simp only [maskPosition]
    omega
  rw [Masks.at, Masks.at, dif_pos bound, dif_pos bound, Masks.shift]
  simp only [Equiv.coe_fn_mk, value]
  rw [BitVec.xor_comm (m _), ← BitVec.xor_assoc, BitVec.xor_comm k l, ← BitVec.xor_assoc l l,
    BitVec.xor_self, BitVec.zero_xor]

theorem rotationCount_pos {env : RotationsVar}
    (allowed : randOhvRotationCount env = some rotationCount) :
    0 < rotationCount := by
  cases env with
  | unset =>
    cases allowed
    decide
  | raw parsed =>
    cases parsed with
    | none => cases allowed
    | some v =>
      rw [randOhvRotationCount] at allowed
      split at allowed
      · cases allowed
        rename_i listed
        simp at listed
        omega
      · cases allowed

/-- The same opened indices are equally likely for two families of secret indices exactly if the
differences within the slots are the same. -/
theorem sameLaw_iff_sameDifferences (pools pools' : MaskedPool F n cursor)
    (positive : 0 < rotationCount) {family' : List (List (Option (View (BitVec 8))))}
    {secrets' : List (List (Option (BitVec 4)))} (h : FamilyShares family secrets)
    (h' : FamilyShares family' secrets') (pattern : SamePattern secrets secrets')
    (enough : cursor + secrets.length * rotationCount ≤ n) :
    SameLaw (fun m => openedIndices (fromIndicesAll rotationCount randOhvK family (pools.pool m)))
        (fun m => openedIndices (fromIndicesAll rotationCount randOhvK family' (pools'.pool m))) ↔
      SameDifferences rotationCount secrets secrets' := by
  have length : secrets.length = secrets'.length := by simpa using congrArg List.length pattern
  simp only [pools.openedIndices positive enough h,
    pools'.openedIndices positive (length ▸ enough) h']
  constructor
  · intro law d j j' ks ls k k' l l' atKs atLs atK atK' atL atL' slots
    have m : Masks n := fun _ => 0
    obtain ⟨m', same⟩ := law.exists_eq m
    have families := map_injective_iff.mpr
      (fun a b equal => widen_injective (congrFun equal .ID0)) (Option.some.inj same)
    obtain ⟨ls', atLs', samePattern⟩ := pattern.getElem? atKs
    cases atLs.symm.trans atLs'
    -- the values opened at `j` and at `j'` are the same in both runs, under one mask in each run
    have opened : ∀ {i v u}, ks[i]? = some (some v) → ls[i]? = some (some u) →
        v ^^^ m.at (maskPosition cursor rotationCount (d, activeOrdinal ks i % rotationCount)) =
          u ^^^ m'.at (maskPosition cursor rotationCount (d,
            activeOrdinal ks i % rotationCount)) := by
      intro i v u atV atU
      obtain ⟨cs, atCs, first⟩ := openedFamily_active cursor rotationCount m.at atKs atV
      obtain ⟨cs', atCs', second⟩ := openedFamily_active cursor rotationCount m'.at atLs atU
      rw [families] at atCs'
      cases atCs.symm.trans atCs'
      rw [activeOrdinal_congr samePattern]
      rw [activeOrdinal_congr samePattern] at first
      exact Option.some.inj (Option.some.inj (first.symm.trans second))
    have at_j := opened atK atL
    have at_j' := opened atK' atL'
    rw [← slots] at at_j'
    calc k ^^^ k' = _ := (xor_cancel_mask k k' _).symm
      _ = _ := congrArg₂ (· ^^^ ·) at_j at_j'
      _ = l ^^^ l' := xor_cancel_mask l l' _
  · intro same
    obtain ⟨delta, shifted⟩ := same.shift positive pattern enough
    refine SameLaw.of_equiv (Masks.shift delta) fun m => ?_
    rw [shifted]

/-- The opened indices of all polynomials reveal the differences of active indices of one polynomial
in one slot and nothing else; slots and polynomials are independent. -/
theorem opened_indices_leak_differences {env : RotationsVar}
    (allowed : randOhvRotationCount env = some rotationCount) (pools pools' : MaskedPool F n cursor)
    {family' : List (List (Option (View (BitVec 8))))} {secrets' : List (List (Option (BitVec 4)))}
    (h : FamilyShares family secrets) (h' : FamilyShares family' secrets')
    (pattern : SamePattern secrets secrets')
    (enough : cursor + secrets.length * rotationCount ≤ n) :
    (SameLaw (fun m => openedIndices (fromIndicesAll rotationCount randOhvK family (pools.pool m)))
        (fun m => openedIndices (fromIndicesAll rotationCount randOhvK family' (pools'.pool m))) ↔
      SameDifferences rotationCount secrets secrets') ∧
    Independent (fun (g : Fin secrets.length × Fin rotationCount) m =>
      openedSlot (fromIndicesAll rotationCount randOhvK family (pools.pool m)) g.1 g.2) ∧
    (∀ m, ∃ polys next, fromIndicesAll rotationCount randOhvK family (pools.pool m) =
      some (polys, next) ∧
      ∀ (g : Fin secrets.length × Fin rotationCount), ∃ poly, polys[g.1.val]? = some poly ∧
        poly.rShares[g.2.val]? = some
          ((pools.pool m).r (maskPosition cursor rotationCount (g.1, g.2)))) ∧
    Function.Injective fun (g : Fin secrets.length × Fin rotationCount) =>
      maskPosition cursor rotationCount (g.1, g.2) := by
  have positive := rotationCount_pos allowed
  have injective : Function.Injective fun (g : Fin secrets.length × Fin rotationCount) =>
      maskPosition cursor rotationCount (g.1, g.2) := by
    rintro ⟨d, slot⟩ ⟨d', slot'⟩ same
    obtain ⟨polynomials, slots⟩ := maskPosition_inj slot.isLt slot'.isLt same
    exact Prod.ext (Fin.ext polynomials) (Fin.ext slots)
  have bound : ∀ g : Fin secrets.length × Fin rotationCount,
      maskPosition cursor rotationCount (g.1, g.2) < n := by
    rintro ⟨d, slot⟩
    have batch : (d.val + 1) * rotationCount ≤ secrets.length * rotationCount :=
      Nat.mul_le_mul_right _ d.isLt
    rw [Nat.succ_mul] at batch
    simp only [maskPosition]
    omega
  refine ⟨sameLaw_iff_sameDifferences pools pools' positive h h' pattern enough, ?_, fun m => ?_,
    injective⟩
  · choose f value using fun g : Fin secrets.length × Fin rotationCount =>
      pools.openedSlot enough h g.1.isLt g.2.isLt
    have coordinates := independent_of_injective (fun g => (⟨_, bound g⟩ : Fin n))
      (fun g g' same => injective (congrArg Fin.val same)) f
    convert coordinates using 3 with g m
    rw [value g m, Masks.at, dif_pos (bound g)]
  · obtain ⟨polys, next, run, len, built⟩ := pools.run positive enough h m
    refine ⟨polys, next, run, fun g => ?_⟩
    have polynomial : g.1.val < polys.length := by rw [len]; exact g.1.isLt
    have one := built (List.getElem?_eq_getElem polynomial) (List.getElem?_eq_getElem g.1.isLt)
    exact ⟨_, List.getElem?_eq_getElem polynomial, one.shares g.2 g.2.isLt⟩

def twoMasks : MaskedPool Int 2 0 where
  pool m :=
    ⟨2, 0, fun i => .promoteToTrivialShare ((m.at i).setWidth 8), fun _ => .promoteToTrivialShare 0⟩
  total _ := rfl
  start _ := rfl
  shares _ _ _ := XorShares.promote _

def trivialShares (ks : List (Option (BitVec 4))) : List (Option (View (BitVec 8))) :=
  ks.map (Option.map fun k => View.promoteToTrivialShare (k.setWidth 8))

theorem trivialShares_spec (ks : List (Option (BitVec 4))) :
    Forall₂ IndexShares (trivialShares ks) (widen ks) := by
  induction ks with
  | nil => exact .nil
  | cons k rest ih =>
    cases k with
    | none => exact .cons .idle ih
    | some k => exact .cons (.active (XorShares.promote _)) ih

/-- The indices 3, 5 and 1 in two polynomials look like the indices 2, 4 and 9. -/
theorem opened_indices_leak_differences_two :
    SameLaw (fun m => openedIndices (fromIndicesAll 1 randOhvK
        [trivialShares [some 3, some 5], trivialShares [none, some 1]] (twoMasks.pool m)))
      (fun m => openedIndices (fromIndicesAll 1 randOhvK
        [trivialShares [some 2, some 4], trivialShares [none, some 9]] (twoMasks.pool m))) := by
  have same : SameDifferences 1 [[some 3#4, some 5#4], [none, some 1#4]] [[some 2#4, some 4#4],
      [none, some 9#4]] := by
    intro d j j' ks ls k k' l l' atKs atLs atK atK' atL atL' _
    rcases d with _ | _ | d <;> cases atKs <;> cases atLs <;> rcases j with _ | _ | j <;>
      rcases j' with _ | _ | j' <;>
      cases atK <;> cases atK' <;> cases atL <;> cases atL' <;> rfl
  have shares : ∀ ks ls, FamilyShares [trivialShares ks, trivialShares ls] [ks, ls] := fun ks ls =>
    .cons (trivialShares_spec ks) (.cons (trivialShares_spec ls) .nil)
  exact (opened_indices_leak_differences (show randOhvRotationCount .unset = some 1 from
    rfl) twoMasks twoMasks
    (shares [some 3, some 5] [none, some 1]) (shares [some 2, some 4] [none, some 9])
      rfl (Nat.le_refl 2)).1.mpr same

end Leakage

end ProviaVM.Poly
