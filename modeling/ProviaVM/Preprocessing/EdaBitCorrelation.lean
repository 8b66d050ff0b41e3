import ProviaVM.Preprocessing.PoolInStep
import ProviaVM.Preprocessing.PrecacheWindow

/-! # The edaBit correlation across the three parties

P0 derives its masks and `alpha1` from two streams, P1 regenerates `alpha1` from the
stream it shares with P0, and P2 reads `alpha2` from its store. `Lockstep` is the
invariant of preprocessing, extensions and takes that are the same at all parties:
one index means one stream position at P0 and P1 and one store position at P2. The
relation of an edaBit follows for every index handed out. -/
namespace ProviaVM.Preprocessing
open ByteFile RawElem Framed LazyEdaBits Run EdaPool

def PartyID.next : PartyID → PartyID
  | .ID0 => .ID1
  | .ID1 => .ID2
  | .ID2 => .ID0

/-- `setup_prf`: the first generator of a party is the second one of the next party. -/
def Correlated (rand : PartyID → Rep3Rand) : Prop :=
  ∀ p, (rand p).seed1 = (rand p.next).seed2 ∧ (rand p).pos1 = (rand p.next).pos2

/-- Forking at all parties keeps them correlated, in the new generators and in the parents. -/
theorem Correlated.fork {rand : PartyID → Rep3Rand} (h : Correlated rand) (c : ChaCha) :
    Correlated (fun p => ((rand p).fork c).1) ∧ Correlated (fun p => ((rand p).fork c).2) := by
  refine ⟨fun p => ?_, fun p => ?_⟩
  · obtain ⟨seed, pos⟩ := h p
    simp [Rep3Rand.fork, seed, pos]
  · obtain ⟨seed, pos⟩ := h p
    simp [Rep3Rand.fork, seed, pos]

theorem Correlated.typeRand {rand : PartyID → Rep3Rand} (h : Correlated rand) (c : ChaCha)
    (t : RingType) :
    Correlated fun p => typeRand c (rand p) t := by
  have after1 := (h.fork c).2
  have after2 := (after1.fork c).2
  have after3 := (after2.fork c).2
  have after4 := (after3.fork c).2
  cases t with
  | u8 => exact (h.fork c).1
  | u16 => exact (after1.fork c).1
  | u32 => exact (after2.fork c).1
  | u64 => exact (after3.fork c).1
  | u128 => exact (after4.fork c).1

section Takes

variable {F : Type} [Ring F] [RawElem F] {K : Nat} [RawElem (BitVec K)]

/-- P2 hands out zero masks and the stored elements of the indices at the cursor. -/
theorem takeBatch_stored {A : Nat → F} {src src' : LazyEdaBits F K} {c : ChaCha} {os : Os}
    {d : Disk} {n : Nat} {b : EdaBitsBatch F K} {ws : List Write} (isP2 : src.partyId = .ID2)
    (holds : P2Holds A src.cursor src d) (h : src.takeBatch c os d n = .ok (b, src', ws)) :
    b = ⟨List.replicate n 0, (List.range (n * K)).map fun e => A (src.cursor * K + e)⟩ := by
  have available := (takeBatch_spec h).1
  unfold takeBatch at h
  obtain ⟨_, -, h⟩ := bind_ok.mp h
  split at h
  · rename_i zero
    cases h
    simp [zero]
  obtain ⟨⟨alphas, writes⟩, read, last⟩ := bind_ok.mp h
  cases last
  obtain ⟨read, -⟩ := takeStoreRangeInto_ok (unwrapOrPanic_ok.mp read)
  have inside : src.cursor * K + n * K ≤ src.total * K := by
    rw [← Nat.add_mul]
    exact Nat.mul_le_mul_right K available
  have stored := readConsumeIntoSlice_stored read
  rw [Nat.add_sub_cancel_left] at stored
  rw [eq_of_stored stored fun i small => holds.stored _ (Nat.le_add_right _ _) (by omega)]

end Takes

/-- What the parties do together after preprocessing: extend the pool, with any message sizes
and lanes, or take the same number of items. -/
inductive JointOp where
  | extend (cfg : PoolCfg) (deficits : RingType → Nat)
  | take (t : RingType) (os : PartyID → Os) (n : Nat)

section Joint

variable {F : Type} [Ring F] [RawElem F]
variable {c : ChaCha} {fb : Nat} {s s' : Parties F}

def Parties.take (c : ChaCha) (s : Parties F) (t : RingType) (os : PartyID → Os) (n : Nat) :
    Except IoError ((PartyID → EdaBitsBatch F t.width) × Parties F) := do
  let (b0, src0, ws0) ← (s.pool .ID0 t).takeBatch c (os .ID0) (s.disk .ID0) n
  let (b1, src1, ws1) ← (s.pool .ID1 t).takeBatch c (os .ID1) (s.disk .ID1) n
  let (b2, src2, ws2) ← (s.pool .ID2 t).takeBatch c (os .ID2) (s.disk .ID2) n
  return (fun | .ID0 => b0 | .ID1 => b1 | .ID2 => b2, {
    pool := fun
      | .ID0 => (s.pool .ID0).set t src0
      | .ID1 => (s.pool .ID1).set t src1
      | .ID2 => (s.pool .ID2).set t src2
    disk := fun
      | .ID0 => (s.disk .ID0).applyAll ws0
      | .ID1 => (s.disk .ID1).applyAll ws1
      | .ID2 => (s.disk .ID2).applyAll ws2
    net := s.net })

def Parties.step (c : ChaCha) (fb : Nat) (s : Parties F) : JointOp → Except IoError (Parties F)
  | .extend cfg deficits => extendPool c cfg fb deficits s
  | .take t os n => do
    let (_, s) ← s.take c t os n
    return s

/-- Correlated seeds, the same cursors and totals, P0 and P1 regenerating, P2 in step behind its
cursor with a store file of its own for each type. -/
structure Lockstep (c : ChaCha) (fb : Nat) (s : Parties F) : Prop where
  correlated : ∀ t, Correlated fun p => (s.pool p t).rand
  fieldBytes : ∀ p t, (s.pool p t).fieldBytes = fb
  party : ∀ p t, (s.pool p t).partyId = p
  regenerates : ∀ p, p ≠ .ID2 → ∀ t, (s.pool p t).storageMode = .none
  cursor : ∀ p t, (s.pool p t).cursor = (s.pool .ID0 t).cursor
  inStep : InStep c fb (fun t => (s.pool .ID2 t).cursor) s
  fileBacked : ∀ t, ∃ dir len append, (s.pool .ID2 t).alphasFlatStore =
    .fileBacked (authoritativeAlphaPath t.width dir) len append

theorem Lockstep.distinct (lock : Lockstep c fb s) :
    DistinctFiles (s.pool .ID2) := by
  intro t t' different path own own'
  obtain ⟨dir, len, append, store⟩ := lock.fileBacked t
  obtain ⟨dir', len', append', store'⟩ := lock.fileBacked t'
  rw [store] at own
  rw [store'] at own'
  have names := (Option.some.inj own).trans (Option.some.inj own').symm
  exact RingType.width_ne different (by
    simpa [authoritativeAlphaPath] using congrArg Path.name names)

/-- An extension keeps the parties in lockstep: all totals grow by the same deficits. -/
theorem Lockstep.extend {cfg : PoolCfg} {deficits : RingType → Nat} (lock : Lockstep c fb s)
    (h : extendPool c cfg fb deficits s = .ok s') : Lockstep c fb s' := by
  have same : ∀ p t, (s'.pool p t).rand = (s.pool p t).rand ∧
      (s'.pool p t).fieldBytes = (s.pool p t).fieldBytes ∧
        (s'.pool p t).partyId = (s.pool p t).partyId ∧
      (s'.pool p t).cursor = (s.pool p t).cursor := by
    intro p t
    obtain ⟨others, at2⟩ := extendPool_sources h t
    by_cases isP2 : p = .ID2
    · subst isP2
      rw [at2, extendedSource]
      split <;> exact ⟨rfl, rfl, rfl, rfl⟩
    · obtain ⟨a, m, g, same, -⟩ := others p isP2
      rw [same]
      exact ⟨rfl, rfl, rfl, rfl⟩
  have fileBacked : ∀ t, 0 < deficits t →
      ∃ path len append, (s.pool .ID2 t).alphasFlatStore = .fileBacked path len append := by
    intro t _
    obtain ⟨dir, len, append, store⟩ := lock.fileBacked t
    exact ⟨_, len, append, store⟩
  have inStep := (extendPool_inStep_iff lock.inStep lock.distinct h).mpr fileBacked
  refine ⟨fun t => ?_, fun p t => ?_, fun p t => ?_, fun p notP2 t => ?_, fun p t => ?_,
    ?_, fun t => ?_⟩
  · have rands : (fun p => (s'.pool p t).rand) = fun p => (s.pool p t).rand :=
      funext fun p => (same p t).1
    rw [rands]
    exact lock.correlated t
  · rw [(same p t).2.1, lock.fieldBytes]
  · rw [(same p t).2.2.1, lock.party]
  · obtain ⟨a, m, g, extended, keepsMode⟩ := (extendPool_sources h t).1 p notP2
    rw [extended]
    exact keepsMode (by rw [lock.party]; exact notP2) (lock.regenerates p notP2 t)
  · rw [(same p t).2.2.2, (same .ID0 t).2.2.2, lock.cursor]
  · have cursors : (fun t => (s'.pool .ID2 t).cursor) = fun t => (s.pool .ID2 t).cursor :=
      funext fun t => (same .ID2 t).2.2.2
    rw [cursors]
    exact inStep
  · obtain ⟨dir, len, append, store⟩ := lock.fileBacked t
    rw [(extendPool_sources h t).2, extendedSource]
    split
    · exact ⟨dir, len, append, store⟩
    · exact ⟨dir, _, _, by simp only [store]; rfl⟩

/-- A joint take moves the cursors of one type and applies the writes of its takes. -/
theorem Parties.take_spec {t : RingType} {os : PartyID → Os} {n : Nat}
    {b : PartyID → EdaBitsBatch F t.width} (h : s.take c t os n = .ok (b, s')) :
    (∀ p t', s'.pool p t' =
        { s.pool p t' with cursor := (s.pool p t').cursor + if t' = t then n else 0 }) ∧
      (∀ p, s'.disk p = (s.disk p).applyAll ((s.pool p t).takeWrites (os p) n)) ∧ s'.net = s.net ∧
      ∀ p, ∃ src ws, (s.pool p t).takeBatch c (os p) (s.disk p) n = .ok (b p, src, ws) := by
  unfold Parties.take at h
  obtain ⟨⟨b0, src0, ws0⟩, taken0, h⟩ := bind_ok.mp h
  obtain ⟨⟨b1, src1, ws1⟩, taken1, h⟩ := bind_ok.mp h
  obtain ⟨⟨b2, src2, ws2⟩, taken2, last⟩ := bind_ok.mp h
  cases last
  obtain ⟨-, rfl, rfl⟩ := takeBatch_spec taken0
  obtain ⟨-, rfl, rfl⟩ := takeBatch_spec taken1
  obtain ⟨-, rfl, rfl⟩ := takeBatch_spec taken2
  refine ⟨fun p t' => ?_, fun p => ?_, rfl, fun p => ?_⟩
  · rcases eq_or_ne t' t with rfl | different
    · rw [if_pos rfl]
      cases p <;> exact set_same _ _ _
    · rw [if_neg different]
      cases p <;> exact set_ne _ _ different
  · cases p <;> rfl
  · cases p
    · exact ⟨_, _, taken0⟩
    · exact ⟨_, _, taken1⟩
    · exact ⟨_, _, taken2⟩

/-- A take moves the three cursors together; P2 stays in step behind the new one. -/
theorem Lockstep.take {t : RingType} {os : PartyID → Os} {n : Nat}
    {b : PartyID → EdaBitsBatch F t.width} (lock : Lockstep c fb s)
    (h : s.take c t os n = .ok (b, s')) :
    Lockstep c fb s' := by
  obtain ⟨sources, disks, net, -⟩ := Parties.take_spec h
  have rands : ∀ p t', (s'.pool p t').rand = (s.pool p t').rand := fun p t' => by
    rw [sources p t']
    rfl
  refine ⟨fun t' => ?_, fun p t' => ?_, fun p t' => ?_, fun p notP2 t' => ?_, fun p t' => ?_,
    ⟨fun t' => ?_, fun t' => ?_, fun l => ?_⟩, fun t' => ?_⟩
  · simp only [rands]
    exact lock.correlated t'
  · rw [sources p t']
    exact lock.fieldBytes p t'
  · rw [sources p t']
    exact lock.party p t'
  · rw [sources p t']
    exact lock.regenerates p notP2 t'
  · rw [sources p t', sources .ID0 t']
    rw [lock.cursor p t']
  · have later : (s.pool .ID2 t').cursor ≤ (s.pool .ID2 t').cursor + if t' = t then n else 0 :=
      Nat.le_add_right _ _
    have spares : ∀ path, storePath (s.pool .ID2 t').alphasFlatStore = some path →
        ∀ e, ((s.pool .ID2 t').cursor + if t' = t then n else 0) * t'.width ≤ e →
          ∀ w ∈ (s.pool .ID2 t).takeWrites (os .ID2) n, Spares F path e w := by
      intro path own e low w member
      refine spares_of_mem_takeWrites (lock.party .ID2 t) ?_ member
      rcases eq_or_ne t' t with rfl | different
      · rw [if_pos rfl] at low
        exact Or.inl low
      · exact Or.inr (lock.distinct t' t different path own)
    have holds := (lock.inStep.holds t').applyAll later spares
    simp only [rands]
    rw [sources .ID2 t', disks .ID2]
    exact ⟨holds.len, holds.stored, holds.file⟩
  · rw [sources .ID2 t', sources .ID0 t']
    exact lock.inStep.total t'
  · rw [net]
    exact lock.inStep.drained l
  · rw [sources .ID2 t']
    exact lock.fileBacked t'

theorem Lockstep.step {op : JointOp} (lock : Lockstep c fb s) (h : s.step c fb op = .ok s') :
    Lockstep c fb s' := by
  cases op with
  | extend cfg deficits => exact lock.extend h
  | take t os n =>
    obtain ⟨⟨b, s₁⟩, taken, last⟩ := bind_ok.mp h
    cases last
    exact lock.take taken

omit [Ring F] in
/-- Saving a pool records metadata paths and changes nothing else in memory. -/
theorem EdaPool.save_pool {pool pool' : EdaPool F} {d d' : Disk} {dir : String}
    (h : EdaPool.save pool d dir = .ok (pool', d')) (t : RingType) :
    ∃ path, pool' t = { pool t with metaPath := path } := by
  let inv (_ : List RingType) (state : EdaPool F × Disk) : Prop :=
    ∀ t, ∃ path, state.1 t = { pool t with metaPath := path }
  have keeps : ∀ t ts s s', inv (t :: ts) s →
      (do let r ← (s.1 t).save s.2 dir
          return (s.1.set t r.1, r.2) : Except IoError (EdaPool F × Disk)) = .ok s' →
            inv ts s' := by
    rintro t ts ⟨pool₁, d₁⟩ s' before done t'
    obtain ⟨⟨src, d₂⟩, saved, last⟩ := bind_ok.mp done
    cases last
    obtain ⟨path, same⟩ := before t'
    rcases eq_or_ne t' t with rfl | different
    · obtain ⟨rfl, -⟩ := save_ok saved
      dsimp only at same ⊢
      rw [set_same, same]
      exact ⟨_, rfl⟩
    · exact ⟨path, (set_ne _ _ different).trans same⟩
  exact foldlM_invariant inv keeps (fun t => ⟨(pool t).metaPath, rfl⟩) h t

/-- Preprocessing with correlated generators starts in lockstep. -/
theorem Lockstep.preprocessed {cfg : PoolCfg} {dir : String} {counts : RingType → Nat}
    {rand : PartyID → Rep3Rand} {disk : PartyID → Disk} (seeds : Correlated rand)
    (h : preprocessPool c cfg fb dir counts rand disk = .ok s) :
    Lockstep c fb s := by
  obtain ⟨r, total, kept0, kept2, drained⟩ :=
    (Started.preprocessed cfg dir counts rand disk s h).kept
  have sources : ∀ p t, ∃ path, s.pool p t =
      { preprocessSource c fb dir counts (rand p) p t with metaPath := path } := by
    unfold preprocessPool at h
    obtain ⟨net₁, -, h⟩ := bind_ok.mp h
    obtain ⟨⟨net₂, d₂⟩, -, h⟩ := bind_ok.mp h
    obtain ⟨⟨pool0, d0⟩, saved0, h⟩ := bind_ok.mp h
    obtain ⟨⟨pool1, d1⟩, saved1, h⟩ := bind_ok.mp h
    obtain ⟨⟨pool2, d2⟩, saved2, last⟩ := bind_ok.mp h
    cases last
    intro p t
    cases p
    · exact save_pool saved0 t
    · exact save_pool saved1 t
    · exact save_pool saved2 t
  have fields : ∀ p t, (s.pool p t).rand = typeRand c (rand p) t ∧ (s.pool p t).cursor = 0 ∧
      (s.pool p t).fieldBytes = fb ∧ (s.pool p t).partyId = p := by
    intro p t
    obtain ⟨path, same⟩ := sources p t
    rw [same]
    cases p <;> exact ⟨rfl, rfl, rfl, rfl⟩
  have cursors : ∀ p t, (s.pool p t).cursor = 0 := fun p t => (fields p t).2.1
  have r_eq : (fun t => (s.pool .ID0 t).rand) = r := funext fun t => (kept0 t).rand
  refine ⟨fun t => ?_, fun p t => (fields p t).2.2.1, fun p t => (fields p t).2.2.2,
    fun p notP2 t => ?_, fun p t => ?_, ⟨fun t => ?_, fun t => ?_, drained⟩, fun t => ?_⟩
  · simp only [fields]
    exact seeds.typeRand c t
  · obtain ⟨path, same⟩ := sources p t
    rw [same]
    cases p with
    | ID0 => rfl
    | ID1 => rfl
    | ID2 => exact absurd rfl notP2
  · rw [cursors, cursors]
  · rw [cursors, r_eq]
    exact (kept2 t).holds
  · rw [(kept2 t).sameTotal, (kept0 t).sameTotal]
  · obtain ⟨path, same⟩ := sources .ID2 t
    rw [same]
    exact ⟨dir, _, _, rfl⟩

end Joint

section Relation

variable {F : Type} [Ring F] [RawElem F]

/-- The replicated XOR sharing of the mask of item `i`, as each party derives it from the streams
shared with the next and with the previous party. The component without P0 is zero. -/
def gammaShare {K : Nat} [RawElem (BitVec K)] (c : ChaCha) (fb : Nat) (p : PartyID) (r : Rep3Rand)
    (i : Nat) :
    BitVec K × BitVec K :=
  match p with
  | .ID0 => (interleavedMask K c r.seed1 r.pos1 fb i, packedMask K c r.seed2 r.pos2 i)
  | .ID1 => (0, interleavedMask K c r.seed2 r.pos2 fb i)
  | .ID2 => (packedMask K c r.seed1 r.pos1 i, 0)

/-- The relation of Protocol Π₂ for item `i`: `share` is a replicated XOR sharing, of which P0 is
handed two components together, P1 and P2 the one they share; the `alpha1` of P0 and P1 and P2's
`alpha2` add up to the bit of the shared value. -/
structure EdaBitRelation {K : Nat} (share : PartyID → BitVec K × BitVec K)
    (b : PartyID → EdaBitsBatch F K) (i : Nat) : Prop where
  replicated : ∀ p, (share p).1 = (share p.next).2
  gamma0 : (b .ID0).gammas[i]? = some ((share .ID0).1 ^^^ (share .ID0).2)
  gamma1 : (b .ID1).gammas[i]? = some (share .ID1).1
  gamma2 : (b .ID2).gammas[i]? = some (share .ID2).2
  alpha : ∀ j < K, ∃ α₁ α₂, (b .ID0).alphasFlat[i * K + j]? = some α₁ ∧
    (b .ID1).alphasFlat[i * K + j]? = some α₁ ∧ (b .ID2).alphasFlat[i * K + j]? = some α₂ ∧
    α₁ + α₂ = (((share .ID0).1 ^^^ (share .ID1).1 ^^^ (share .ID2).1).getLsbD j).toNat

/-- A take in lockstep hands out related material at every index. -/
theorem Lockstep.related {c : ChaCha} {fb : Nat} {s s' : Parties F} {t : RingType}
    {os : PartyID → Os} {n i : Nat} {b : PartyID → EdaBitsBatch F t.width} (lock : Lockstep c fb s)
    (taken : s.take c t os n = .ok (b, s')) (inside : i < n) :
    EdaBitRelation (fun p => gammaShare c fb p (s.pool p t).rand ((s.pool .ID0 t).cursor + i))
      b i := by
  obtain ⟨-, -, -, batches⟩ := Parties.take_spec taken
  obtain ⟨_, _, taken0⟩ := batches .ID0
  obtain ⟨_, _, taken1⟩ := batches .ID1
  obtain ⟨_, _, taken2⟩ := batches .ID2
  have b0 := takeBatch_regenerated (by rw [lock.party]; decide)
    (fun _ _ => fillPrecacheInto_of_none c (lock.regenerates .ID0 (by decide) t)) taken0
  have b1 := takeBatch_regenerated (by rw [lock.party]; decide)
    (fun _ _ => fillPrecacheInto_of_none c (lock.regenerates .ID1 (by decide) t)) taken1
  have b2 := takeBatch_stored (lock.party .ID2 t) (lock.inStep.holds t) taken2
  rw [regenerated, lock.party, lock.fieldBytes] at b0 b1
  rw [lock.cursor] at b1 b2
  obtain ⟨seed01, pos01⟩ := lock.correlated t .ID0
  obtain ⟨seed20, pos20⟩ := lock.correlated t .ID2
  replace seed01 : (s.pool .ID0 t).seed1 = (s.pool .ID1 t).seed2 := seed01
  replace pos01 : (s.pool .ID0 t).pos1 = (s.pool .ID1 t).pos2 := pos01
  replace seed20 : (s.pool .ID2 t).seed1 = (s.pool .ID0 t).seed2 := seed20
  replace pos20 : (s.pool .ID2 t).pos1 = (s.pool .ID0 t).pos2 := pos20
  refine ⟨fun p => ?_, ?_, ?_, ?_, fun j small => ?_⟩
  · cases p with
    | ID0 => simp only [gammaShare, PartyID.next, LazyEdaBits.rand, seed01, pos01]
    | ID1 => rfl
    | ID2 => simp only [gammaShare, PartyID.next, LazyEdaBits.rand, seed20, pos20]
  · rw [b0]
    simp [itemsAt, gammaAt, gammaShare, LazyEdaBits.rand, inside]
  · rw [b1]
    simp [itemsAt, gammaAt, gammaShare, inside]
  · rw [b2]
    simp [gammaShare, inside]
  · have flat : i * t.width + j < n * t.width := by
      calc i * t.width + j < i * t.width + t.width := Nat.add_lt_add_left small _
        _ = (i + 1) * t.width := by rw [Nat.add_mul, Nat.one_mul]
        _ ≤ n * t.width := Nat.mul_le_mul_right _ inside
    let base := (s.pool .ID0 t).cursor
    let e := base * t.width + (i * t.width + j)
    have item : e / t.width = base + i := by
      rw [show e = j + (base + i) * t.width by rw [Nat.add_mul]; omega,
        Nat.add_mul_div_right _ _ t.width_pos, Nat.div_eq_of_lt small, Nat.zero_add]
    have bit : e % t.width = j := by
      rw [show e = j + (base + i) * t.width by rw [Nat.add_mul]; omega,
        Nat.add_mul_mod_self_right, Nat.mod_eq_of_lt small]
    refine ⟨alpha1At t.width F c (s.pool .ID0 t).seed1 (s.pool .ID0 t).pos1 fb e,
      alpha2Of c fb (fun t => (s.pool .ID0 t).rand) t e, ?_, ?_, ?_, ?_⟩
    · rw [b0]
      simp [itemsAt, interleavedSeed, flat, e, base]
    · rw [b1]
      simp [itemsAt, interleavedSeed, flat, e, base, seed01, pos01]
    · rw [b2]
      simp [flat, e, base]
    · simp [alpha2Of, alpha2At, item, bit, gammaAt, LazyEdaBits.rand, gammaShare, seed20,
        pos20, base]

/-- Preprocess with correlated generators, then extend and take in any order, the same at all
parties: every index any take hands out is an edaBit. -/
theorem edaBits_correlated {c : ChaCha} {cfg : PoolCfg} {fb : Nat} {dir : String}
    {counts : RingType → Nat} {rand : PartyID → Rep3Rand} {disk : PartyID → Disk}
    {s₀ s s' : Parties F} (seeds : Correlated rand)
    (made : preprocessPool c cfg fb dir counts rand disk = .ok s₀) {ops : List JointOp}
    (ran : Run.run (Parties.step c fb) s₀ ops = .ok s) {t : RingType} {os : PartyID → Os}
    {n i : Nat} {b : PartyID → EdaBitsBatch F t.width} (taken : s.take c t os n = .ok (b, s'))
    (inside : i < n) :
    EdaBitRelation (fun p => gammaShare c fb p (s.pool p t).rand ((s.pool .ID0 t).cursor + i))
      b i := by
  have lock : Lockstep c fb s :=
    run_keeps (fun _ _ _ before done => before.step done) (Lockstep.preprocessed seeds made) ran
  exact lock.related taken inside

end Relation

/-- One item, extended by two, of which the parties take one; then they take the other two. -/
theorem edaBits_correlated_afterExtension :
    ∃ (s s' : Parties (ZMod 251)) (b : PartyID → EdaBitsBatch (ZMod 251) 8),
      s.take countingRng .u8 (fun _ _ => .punchHole) 2 = .ok (b, s') ∧
        EdaBitRelation (fun p => gammaShare countingRng 16 p (s.pool p .u8).rand
          ((s.pool .ID0 .u8).cursor + 1)) b 1 := by
  obtain ⟨r, done⟩ := exists_ok_of_isOk (x := (do
    let s₀ ← preprocessPool (F := ZMod 251) countingRng smallCfg 16 "pool" (onlyU8 1)
      (fun _ => ⟨[], 0, [], 0⟩) (fun _ _ => none)
    let s ← Run.run (Parties.step countingRng 16) s₀
      [.extend smallCfg (onlyU8 2), .take .u8 (fun _ _ => .punchHole) 1]
    s.take countingRng .u8 (fun _ _ => .punchHole) 2)) (by decide +kernel)
  obtain ⟨s₀, made, done⟩ := bind_ok.mp done
  obtain ⟨s, ran, taken⟩ := bind_ok.mp done
  have seeds : Correlated fun _ => ⟨[], 0, [], 0⟩ := fun _ => ⟨rfl, rfl⟩
  exact ⟨s, r.2, r.1, taken, edaBits_correlated seeds made ran taken (by decide)⟩

end ProviaVM.Preprocessing
