import ProviaVM.Preprocessing.Session
import ProviaVM.Preprocessing.Generation
import ProviaVM.Preprocessing.StoreContents

/-! # Producing and extending the edaBits of a pool

`mpc-core/src/preprocessing/pool.rs`, the edaBit phase of `preprocess_pool_base` and
`extend_pool_batched_base`. P0 generates `alpha2` chunk by chunk and sends it to P2 over
the main context or over forks; P2 writes what it receives into its store files; P1
stays silent. The bulk channels deliver whole frames in order and reject a frame of
another length than the one asked for. Parallel branches work on different lanes and on
different file ranges, so they are modelled one after the other. -/
namespace ProviaVM.Preprocessing
open ByteFile RawElem Framed Piece List

/-- The correlated generators of one party: `rng1` is shared with the next party, `rng2` with
the previous one. -/
structure Rep3Rand where
  seed1 : Seed
  pos1 : Nat
  seed2 : Seed
  pos2 : Nat
  deriving DecidableEq, Repr

namespace Rep3Rand

/-- `gen::<[u8; SEED_SIZE]>()`: one keystream word per byte. -/
def genSeed (c : ChaCha) (seed : Seed) (pos : Nat) : Seed :=
  (List.range 32).map fun i => ChaCha.wordByte (c.word seed (pos + i)) 0

/-- `fork`: a new pair of generators seeded from the two streams, and the advanced parent. -/
def fork (c : ChaCha) (r : Rep3Rand) : Rep3Rand × Rep3Rand :=
  (⟨genSeed c r.seed1 r.pos1, 0, genSeed c r.seed2 r.pos2, 0⟩,
    { r with pos1 := r.pos1 + 32, pos2 := r.pos2 + 32 })

end Rep3Rand

/-- The lanes to another party: the main context and the forked contexts. -/
inductive Lane where
  | main
  | fork (i : Nat)
  deriving DecidableEq, Repr

/-- Message, batch and segment sizes in field elements, and the number of lanes in use. The
source takes the maximum with one of each. -/
structure PoolCfg where
  maxMsgElems : Nat
  storeBatchElems : Nat
  segmentElems : Nat
  lanes : Nat
  maxMsgElems_pos : 0 < maxMsgElems
  deriving Repr

namespace PoolCfg

def maxItemsPerMsg (cfg : PoolCfg) (k : Nat) : Nat := max (cfg.maxMsgElems / k) 1

def storeBatchItems (cfg : PoolCfg) (k : Nat) : Nat :=
  max (cfg.storeBatchElems / k) (cfg.maxItemsPerMsg k)

def segmentItems (cfg : PoolCfg) (k : Nat) : Nat :=
  max (cfg.segmentElems / k) (cfg.maxItemsPerMsg k)

theorem maxItemsPerMsg_pos (cfg : PoolCfg) (k : Nat) : 0 < cfg.maxItemsPerMsg k :=
  Nat.lt_of_lt_of_le Nat.one_pos (Nat.le_max_right _ _)

theorem storeBatchItems_pos (cfg : PoolCfg) (k : Nat) : 0 < cfg.storeBatchItems k :=
  Nat.lt_of_lt_of_le (cfg.maxItemsPerMsg_pos k) (Nat.le_max_right _ _)

end PoolCfg

/-- `build_segment_plans`, as item ranges that have no lane yet. -/
def buildSegmentPlans (totalItems segmentItems : Nat) : List (Piece Unit) :=
  (mk () 0 totalItems).split (max segmentItems 1)

def onLane (l : Lane) (p : Piece Unit) : Piece Lane := ⟨l, p.start, p.len⟩

/-- `par_segment_plans`: fork `f` of `forkCount` processes the plans from `f * len / forkCount`
to `(f + 1) * len / forkCount`. -/
def parSegmentPlans (forks : Nat) (plans : List (Piece Unit)) : List (Piece Lane) :=
  let forkCount := min forks plans.length
  let cut f := f * plans.length / forkCount
  if forkCount = 0 then []
  else if forkCount = 1 then plans.map (onLane (.fork 0))
  else (List.range forkCount).flatMap fun f =>
    ((plans.drop (cut f)).take (cut (f + 1) - cut f)).map (onLane (.fork f))

/-- The item ranges of one type without pipelining: over the forks when there are several lanes and
segments, else one range on the main context. -/
def segmentRanges (cfg : PoolCfg) (k n : Nat) : List (Piece Lane) :=
  let plans := buildSegmentPlans n (cfg.segmentItems k)
  if 1 < cfg.lanes ∧ 1 < plans.length then parSegmentPlans cfg.lanes plans
  else [⟨.main, 0, n⟩]

section Alpha2

variable {F : Type} [Ring F] {K : Nat} [RawElem (BitVec K)]

def gammaBit (gamma : BitVec K) (j : Nat) : Bool := (gamma >>> j) &&& 1#K == 1#K

/-- P0's `alpha2` for the items `startItem .. startItem + num`. -/
def edabitAlpha2Chunk (c : ChaCha) (seed1 : Seed) (pos1 : Nat) (seed2 : Seed)
    (pos2 startItem num fb : Nat) (K : Nat) [RawElem (BitVec K)] : Except IoError (List F) := do
  if num = 0 then return []
  let tBytes := size (BitVec K)
  let st := stride K fb
  let all1 := c.seekAndGenerate seed1 pos1 (startItem * st) (num * st)
  let g2 := c.seekAndGenerate seed2 pos2 (startItem * tBytes) (num * tBytes)
  (List.range (num * K)).mapM fun idx => do
    let gamma := ringFromLeBytes K (slice (idx / K * st) tBytes all1) ^^^
      ringFromLeBytes K (slice (idx / K * tBytes) tBytes g2)
    let alpha1 ← parseField (F := F) all1 (idx / K * st + tBytes + idx % K * fb)
    return ((gammaBit gamma (idx % K)).toNat : F) - alpha1

/-- `edabit_alpha2_seed_chunk` of the initial phase. -/
def edabitAlpha2SeedChunk (c : ChaCha) (seed1 : Seed) (pos1 : Nat) (seed2 : Seed)
    (pos2 startItem num fb : Nat) (K : Nat) [RawElem (BitVec K)] : Except IoError (List F) :=
  edabitAlpha2Chunk c seed1 pos1 seed2 pos2 startItem num fb K

/-- `edabit_alpha2_ext_chunk` of an extension. -/
def edabitAlpha2ExtChunk (c : ChaCha) (seed1 : Seed) (pos1 : Nat) (seed2 : Seed)
    (pos2 startItem num fb : Nat) (K : Nat) [RawElem (BitVec K)] : Except IoError (List F) :=
  edabitAlpha2Chunk c seed1 pos1 seed2 pos2 startItem num fb K

/-- P0's `alpha2` of flat element `e`: the mask bit minus `alpha1`. -/
def alpha2At (F : Type) [Ring F] (K : Nat) [RawElem (BitVec K)] (c : ChaCha) (seed1 : Seed)
    (pos1 : Nat) (seed2 : Seed) (pos2 fb e : Nat) : F :=
  (((gammaAt K c seed1 pos1 seed2 pos2 fb .ID0 (e / K)).getLsbD (e % K)).toNat : F) -
    alpha1At K F c seed1 pos1 fb e

omit [RawElem (BitVec K)] in
theorem gammaBit_eq (wide : 0 < K) (gamma : BitVec K) (j : Nat) :
    gammaBit gamma j = gamma.getLsbD j := by
  have one : (1#K).getLsbD 0 = true := by simp [wide]
  have low : ((gamma >>> j) &&& 1#K) = if gamma.getLsbD j then 1#K else 0#K := by
    apply BitVec.eq_of_getLsbD_eq
    intro i _
    rcases Nat.eq_zero_or_pos i with rfl | positive
    · cases bit : gamma.getLsbD j <;> simp [bit]
    · have off : (1#K).getLsbD i = false := by simp [Nat.pos_iff_ne_zero.mp positive]
      cases gamma.getLsbD j <;> simp [off]
  have different : (0#K == 1#K) = false := by
    rw [beq_eq_false_iff_ne]
    intro same
    rw [← same] at one
    simp at one
  rw [gammaBit, low]
  cases gamma.getLsbD j
  · simpa using different
  · simp

/-- A chunk holds the `alpha2` of its own elements, whatever its base and length. -/
theorem edabitAlpha2Chunk_eq {c : ChaCha} {seed1 seed2 : Seed} {pos1 pos2 startItem num fb : Nat}
    {xs : List F} (h : edabitAlpha2Chunk c seed1 pos1 seed2 pos2 startItem num fb K = .ok xs) :
    xs = (List.range (num * K)).map fun e =>
      alpha2At F K c seed1 pos1 seed2 pos2 fb (startItem * K + e) := by
  unfold edabitAlpha2Chunk at h
  split at h
  · rename_i zero
    cases h
    simp [zero]
  simp only [ChaCha.seekAndGenerate_eq] at h
  refine Run.mapM_ok (fun e member x computed => ?_) h
  obtain ⟨alpha1, parsed, last⟩ := Run.bind_ok.mp computed
  cases last
  have wide : 0 < K := Nat.pos_of_ne_zero fun zero => by
    subst zero
    simp at member
  have inside : e / K < num := Nat.div_lt_of_lt_mul (by
    rw [Nat.mul_comm]
    exact mem_range.mp member)
  have item : (startItem * K + e) / K = startItem + e / K := by
    rw [Nat.add_comm, Nat.add_mul_div_right _ _ wide, Nat.add_comm]
  have bit : (startItem * K + e) % K = e % K := by
    simp
  rw [mask_record inside, gammaBit_eq wide, parseField_streamSlice parsed, alpha1At_shift K wide]
  simp [alpha2At, gammaAt, item]

end Alpha2

section Transfer

variable {F : Type}

/-- The loop of `send_field_superchunk`: full messages while more than one is left. -/
def superchunkFrom (maxMsgElems : Nat) : Nat → List F → List (List F)
  | 0, xs => [xs]
  | fuel + 1, xs =>
    if maxMsgElems < xs.length then xs.take maxMsgElems ::
      superchunkFrom maxMsgElems fuel (xs.drop maxMsgElems)
    else [xs]

/-- `send_field_superchunk`: the messages of one chunk. -/
def fieldSuperchunk (maxMsgElems : Nat) (xs : List F) : List (List F) :=
  if xs.isEmpty then [] else superchunkFrom maxMsgElems xs.length xs

/-- Cutting a message at the size limit cuts the pieces it is made of at the same places. -/
theorem superchunkFrom_data (f : Nat → F) (l : Lane) {maxMsgElems : Nat}
    (positive : 0 < maxMsgElems) {fuel start len : Nat} (enough : len ≤ fuel) (nonempty : 0 < len) :
    superchunkFrom maxMsgElems fuel ((mk l start len).data f) =
      (splitFrom l maxMsgElems fuel start len).map (data f) := by
  induction fuel generalizing start len with
  | zero => omega
  | succ fuel ih =>
    unfold superchunkFrom splitFrom
    rw [length_data, if_neg (Nat.pos_iff_ne_zero.mp nonempty)]
    split
    · rename_i long
      replace long : maxMsgElems < len := long
      have first : min len maxMsgElems = maxMsgElems := by omega
      have whole : len = maxMsgElems + (len - maxMsgElems) := by omega
      have cut : (mk l start len).data f =
          (mk l start maxMsgElems).data f ++
            (mk l (start + maxMsgElems) (len - maxMsgElems)).data f := by
        rw [data_append, ← whole]
      have size : ((mk l start maxMsgElems).data f).length = maxMsgElems := length_data f _
      have later : len - maxMsgElems ≤ fuel := by omega
      have more : 0 < len - maxMsgElems := by omega
      simp [first, ← ih later more, cut]
    · rename_i short
      replace short : ¬ maxMsgElems < len := short
      have all : min len maxMsgElems = len := by omega
      cases fuel <;> simp [all, splitFrom]

/-- The messages of a chunk are the pieces its element range is cut into. -/
theorem fieldSuperchunk_data (f : Nat → F) {maxMsgElems : Nat} (positive : 0 < maxMsgElems)
    (p : Piece Lane) :
    fieldSuperchunk maxMsgElems (p.data f) = (p.split maxMsgElems).map (data f) := by
  unfold fieldSuperchunk
  rcases Nat.eq_zero_or_pos p.len with zero | nonempty
  · have empty : p.data f = [] := eq_nil_of_length_eq_zero (by rw [length_data, zero])
    rw [empty, Piece.split, zero]
    rfl
  · have notEmpty : (p.data f).isEmpty = false := by
      rw [isEmpty_eq_false_iff]
      intro empty
      have none := congrArg List.length empty
      rw [length_data, length_nil] at none
      omega
    rw [notEmpty, length_data]
    exact superchunkFrom_data f p.lane positive (Nat.le_refl _) nonempty

/-- The loop of P0 over one type: generate each chunk of at most `maxItemsPerMsg` items and send
it on its lane. `chunk` is the generator at P0's base. -/
def sendRanges (cfg : PoolCfg) (k : Nat) (chunk : Nat → Nat → Except IoError (List F))
    (ranges : List (Piece Lane)) (net : Net Lane F) : Except IoError (Net Lane F) :=
  (ranges.flatMap (Piece.split (cfg.maxItemsPerMsg k))).foldlM (fun net p => do
    let alpha2 ← chunk p.start p.len
    return (fieldSuperchunk cfg.maxMsgElems alpha2).foldl (fun net frame => net.send p.lane frame)
      net) net

def sentPieces (cfg : PoolCfg) (k : Nat) (ranges : List (Piece Lane)) : List (Piece Lane) :=
  ((ranges.flatMap (Piece.split (cfg.maxItemsPerMsg k))).map (scale k)).flatMap
    (Piece.split cfg.maxMsgElems)

/-- Sending the frames of one chunk is sending its pieces. -/
theorem foldl_send_pieces (f : Nat → F) (l : Lane) (ps : List (Piece Lane))
    (onLane : ∀ p ∈ ps, p.lane = l) (net : Net Lane F) :
    (ps.map (data f)).foldl (fun net frame => net.send l frame) net = Net.sendAll f net ps := by
  induction ps generalizing net with
  | nil => rfl
  | cons p ps ih =>
    have step : Net.sendAll f net (p :: ps) = Net.sendAll f (net.send p.lane (p.data f)) ps := rfl
    simp [ih fun q member => onLane q (mem_cons_of_mem _ member), step, onLane p mem_cons_self]

variable {cfg : PoolCfg} {k : Nat} {ranges : List (Piece Lane)} {batchItems n : Nat}

/-- P0's loop sends the pieces of the stream that its chunks are taken from. -/
theorem sendRanges_eq {chunk : Nat → Nat → Except IoError (List F)} {f : Nat → F}
    (chunkEq : ∀ start len xs, chunk start len = .ok xs →
      xs = (List.range (len * k)).map fun e => f (start * k + e)) {net net' : Net Lane F}
    (h : sendRanges cfg k chunk ranges net = .ok net') :
    net' = Net.sendAll f net (sentPieces cfg k ranges) := by
  unfold sendRanges at h
  unfold sentPieces
  generalize ranges.flatMap (Piece.split (cfg.maxItemsPerMsg k)) = chunks at h ⊢
  induction chunks generalizing net with
  | nil =>
    cases h
    rfl
  | cons p chunks ih =>
    obtain ⟨net₁, first, rest⟩ := Run.bind_ok.mp h
    obtain ⟨alpha2, generated, last⟩ := Run.bind_ok.mp first
    cases last
    have piece : alpha2 = (p.scale k).data f := chunkEq p.start p.len alpha2 generated
    have sent : (fieldSuperchunk cfg.maxMsgElems alpha2).foldl
      (fun net frame => net.send p.lane frame) net =
        Net.sendAll f net ((p.scale k).split cfg.maxMsgElems) := by
      rw [piece, fieldSuperchunk_data f cfg.maxMsgElems_pos]
      have lanes : ∀ q ∈ (p.scale k).split cfg.maxMsgElems, q.lane = p.lane :=
        fun q member => (lane_of_mem_split member).trans rfl
      exact foldl_send_pieces f p.lane _ lanes net
    simp [ih rest, sent, Net.sendAll]

/-- The requests of P2 for one type: batches of `batchItems` items, received message by message
into a buffer of `max_msg_elems`. -/
def askedPieces (cfg : PoolCfg) (k batchItems : Nat) (ranges : List (Piece Lane)) :
    List (Piece Lane) :=
  ((ranges.flatMap (Piece.split batchItems)).map (scale k)).flatMap (Piece.split cfg.maxMsgElems)

/-- Cut items into batches and batches into messages: the streams are those of the ranges. -/
theorem askedPieces_sameStreams (cfg : PoolCfg) (k : Nat) (positive : 0 < batchItems)
    (ranges : List (Piece Lane)) :
    SameStreams (askedPieces cfg k batchItems ranges) (ranges.map (scale k)) :=
  (sameStreams_split cfg.maxMsgElems_pos _).trans ((sameStreams_split positive ranges).scale k)

/-- P0's chunks and P2's batches cut the same streams, however the sizes relate. -/
theorem sentPieces_sameStreams (cfg : PoolCfg) (k : Nat) (positive : 0 < batchItems)
    (ranges : List (Piece Lane)) :
    SameStreams (sentPieces cfg k ranges) (askedPieces cfg k batchItems ranges) := by
  have sent : SameStreams (sentPieces cfg k ranges) (ranges.map (scale k)) :=
    askedPieces_sameStreams cfg k (cfg.maxItemsPerMsg_pos k) ranges
  exact sent.trans (askedPieces_sameStreams cfg k positive ranges).symm

theorem len_pos_of_mem_askedPieces {p : Piece Lane}
    (member : p ∈ askedPieces cfg k batchItems ranges) : 0 < p.len := by
  obtain ⟨q, -, inSplit⟩ := mem_flatMap.mp member
  exact len_pos_of_mem_split cfg.maxMsgElems_pos inSplit

def CoversItems (ranges : List (Piece Lane)) (n : Nat) : Prop :=
  ∀ i < n, ∃ p ∈ ranges, p.start ≤ i ∧ i < p.start + p.len

/-- Between the first and the last of the cut points lies, around every `j`, a pair of
neighbours. -/
theorem exists_cut {cut : Nat → Nat} {j : Nat} (low : cut 0 ≤ j) (high : j < cut n) :
    ∃ f < n, cut f ≤ j ∧ j < cut (f + 1) := by
  induction n with
  | zero => omega
  | succ n ih =>
    by_cases earlier : j < cut n
    · obtain ⟨f, inside, bounds⟩ := ih earlier
      exact ⟨f, Nat.lt_succ_of_lt inside, bounds⟩
    · exact ⟨n, Nat.lt_succ_self n, by omega, high⟩

/-- Every plan is processed by some fork. -/
theorem mem_parSegmentPlans {forks : Nat} {plans : List (Piece Unit)} (some_ : 0 < forks)
    {p : Piece Unit} (member : p ∈ plans) : ∃ l, onLane l p ∈ parSegmentPlans forks plans := by
  obtain ⟨j, inside, rfl⟩ := getElem_of_mem member
  unfold parSegmentPlans
  have positive : 0 < min forks plans.length := by omega
  rw [if_neg (by omega)]
  split
  · exact ⟨.fork 0, mem_map_of_mem member⟩
  obtain ⟨f, few, low, high⟩ : ∃ f < min forks plans.length,
      f * plans.length / min forks plans.length ≤ j ∧
        j < (f + 1) * plans.length / min forks plans.length := by
    have first : 0 * plans.length / min forks plans.length ≤ j := by simp
    have last : j < min forks plans.length * plans.length / min forks plans.length := by
      rw [Nat.mul_comm, Nat.mul_div_cancel _ positive]
      exact inside
    exact exists_cut first last
  refine ⟨.fork f, mem_flatMap.mpr ⟨f, mem_range.mpr few, mem_map_of_mem ?_⟩⟩
  have slot : j - f * plans.length / min forks plans.length <
      ((plans.drop (f * plans.length / min forks plans.length)).take
        ((f + 1) * plans.length / min forks plans.length -
          f * plans.length / min forks plans.length)).length := by
    rw [length_take, length_drop]
    omega
  have value := getElem_mem slot
  rw [getElem_take, getElem_drop] at value
  simpa only [Nat.add_sub_cancel' low] using value

/-- The segments of a type contain all its items. -/
theorem segmentRanges_covers (cfg : PoolCfg) (k n : Nat) :
    CoversItems (segmentRanges cfg k n) n := by
  intro i inside
  unfold segmentRanges
  dsimp only
  split
  · have whole : i ∈ (mk () 0 n).data id := mem_data_id.mpr ⟨Nat.zero_le _, by simpa using inside⟩
    have step : 0 < max (cfg.segmentItems k) 1 :=
      Nat.lt_of_lt_of_le Nat.one_pos (Nat.le_max_right _ _)
    rw [← data_split id step] at whole
    obtain ⟨p, planned, contains⟩ := mem_flatMap.mp whole
    obtain ⟨l, member⟩ := mem_parSegmentPlans (by omega : 0 < cfg.lanes) planned
    exact ⟨onLane l p, member, mem_data_id.mp contains⟩
  · exact ⟨_, mem_singleton.mpr rfl, Nat.zero_le _, by simpa using inside⟩

/-- Then P2 asks for every element below `n * k`. -/
theorem askedPieces_covered {e base : Nat} (positive : 0 < batchItems)
    (covers : CoversItems ranges n) (inside : e < n * k) :
    Covered (askedPieces cfg k batchItems ranges) base (base + e) := by
  have wide : 0 < k := Nat.pos_of_ne_zero fun zero => by
    subst zero
    omega
  have item : e / k < n := Nat.div_lt_of_lt_mul (by rw [Nat.mul_comm]; exact inside)
  obtain ⟨p, member, low, high⟩ := covers (e / k) item
  have scaled : (p.scale k).start ≤ e ∧ e < (p.scale k).start + (p.scale k).len := by
    constructor
    · exact Nat.le_trans (Nat.mul_le_mul_right k low) (Nat.div_mul_le_self e k)
    · have upper : (e / k + 1) * k ≤ (p.start + p.len) * k := Nat.mul_le_mul_right k high
      have below : e < (e / k + 1) * k := by
        rw [Nat.mul_comm]
        exact Nat.lt_mul_div_succ e wide
      show e < p.start * k + p.len * k
      rw [← Nat.add_mul]
      omega
  obtain ⟨q, inAsked, lowQ, highQ⟩ := (askedPieces_sameStreams cfg k positive ranges).symm.covers
    (mem_map_of_mem member) scaled
  exact ⟨q, inAsked, by omega, by omega⟩

variable [RawElem F]

/-- `recv_field_messages_into_writer` over the batches of one type, at element `base`. -/
def recvRanges (cfg : PoolCfg) (k batchItems : Nat) (ranges : List (Piece Lane))
    (writer : FileBackedWriter) (base : Nat) (state : Net Lane F × Disk) :
    Except IoError (Net Lane F × Disk) :=
  recvInto (fun d p frame => writer.writeAt d (base + p.start) frame) .frameSizeMismatch
    (askedPieces cfg k batchItems ranges) state

/-- P2's side of one type: when it succeeds on what P0 sent, the lanes are drained down to what
follows, the elements from `base` on are those P0 generated, and everything else is as it was. -/
theorem recvRanges_ok {base : Nat} {w : FileBackedWriter} {f : Nat → F} {net net' rest : Net Lane F}
    {d d' : Disk} (positive : 0 < batchItems) (covers : CoversItems ranges n)
    (room : FileHas F d w.path w.len)
    (inFlight : ∀ l, net l = ((sentPieces cfg k ranges).filter (·.lane = l)).map (data f) ++ rest l)
    (h : recvRanges cfg k batchItems ranges w base (net, d) = .ok (net', d')) :
    net' = rest ∧ FileHas F d' w.path w.len ∧ (∀ q, q ≠ w.path → d' q = d q) ∧
      (∀ e < n * k, fileElem F d' w.path (base + e) = some (f e)) ∧
      ∀ e < base, fileElem F d' w.path e = fileElem F d w.path e := by
  have sentPos : ∀ p ∈ sentPieces cfg k ranges, 0 < p.len := fun p member =>
    have inAsked : p ∈ askedPieces cfg k (cfg.maxItemsPerMsg k) ranges := member
    len_pos_of_mem_askedPieces inAsked
  obtain ⟨drained, written⟩ :=
    recvInto_sendAll (sentPieces_sameStreams cfg k positive ranges) sentPos
    (fun p member => len_pos_of_mem_askedPieces member) inFlight h
  obtain ⟨room', frame, set, kept⟩ := writePieces_ok written room
  refine ⟨drained, room', frame, ?_, ?_⟩
  · intro e inside
    have value := set (base + e) (askedPieces_covered positive covers inside)
    rwa [Nat.add_sub_cancel_left] at value
  · intro e below
    apply kept
    rintro ⟨p, -, low, -⟩
    omega

end Transfer

section Phases

variable {F : Type} [Ring F] [RawElem F]

def ringTypes : List RingType := [.u8, .u16, .u32, .u64, .u128]

/-- The types with a positive count, in the order of the source's arrays. -/
def activeTypes (counts : RingType → Nat) : List RingType := ringTypes.filter fun t => 0 < counts t

theorem not_mem_activeTypes {counts : RingType → Nat} {t : RingType}
    (inactive : t ∉ activeTypes counts) :
    counts t = 0 := by
  have all : t ∈ ringTypes := by cases t <;> decide
  by_contra nonzero
  exact inactive (mem_filter.mpr ⟨all, by simpa using Nat.pos_of_ne_zero nonzero⟩)

/-- The item ranges of the initial phase. With enough lanes each active type has a fork of its
own. -/
def preprocessRanges (cfg : PoolCfg) (counts : RingType → Nat) (t : RingType) : List (Piece Lane) :=
  let active := activeTypes counts
  if 1 < active.length ∧ active.length ≤ cfg.lanes then [⟨.fork (active.idxOf t), 0, counts t⟩]
  else segmentRanges cfg t.width (counts t)

/-- `BackingStore::pre_extended_writer` for `additional` elements. -/
def preExtendedWriter (store : BackingStore F) (d : Disk) (additional : Nat) :
    Except IoError (Option (FileBackedWriter × BackingStore F × Disk)) :=
  match store with
  | .fileBacked path len _ =>
    match d path with
    | some (.data b) =>
      let newLen := len + additional
      .ok (some (⟨path, newLen⟩, .fileBacked path newLen (newLen * size F),
        d.set path (.data (setLen (newLen * size F) b))))
    | _ => .error (.notFound path)
  | _ => .ok none

/-- `LazyEdaBits::new_with_store`; `fb` is the byte length of the field's modulus. -/
def LazyEdaBits.newWithStore {K : Nat} (r : Rep3Rand) (total fb : Nat) (store : BackingStore F)
    (mode : EdaBitsStorageMode) (p : PartyID) : LazyEdaBits F K :=
  ⟨r.seed1, r.pos1, r.seed2, r.pos2, total, fb, 0, store, mode, .empty, p, none⟩

def LazyEdaBits.new {K : Nat} (r : Rep3Rand) (total fb : Nat) (alphasFlat : List F) (p : PartyID) :
    LazyEdaBits F K :=
  .newWithStore r total fb (BackingStore.fromVec alphasFlat)
    (if p = .ID2 then .p2Authoritative else .none) p

/-- The edaBit part of `PreprocessingPool::save`. -/
def EdaPool.save (pool : EdaPool F) (d : Disk) (dir : String) : Except IoError (EdaPool F × Disk) :=
  ringTypes.foldlM (fun (pool, d) t => do
    let (src, d) ← (pool t).save d dir
    return (EdaPool.set pool t src, d)) (pool, d)

/-- The three parties: their pools, their disks, and the frames from P0 to P2 in flight. -/
structure Parties (F : Type) where
  pool : PartyID → EdaPool F
  disk : PartyID → Disk
  net : Net Lane F

/-- The generators of the five types: the first five of the six forks `preprocess_pool_base`
makes. -/
def typeRand (c : ChaCha) (r : Rep3Rand) : RingType → Rep3Rand
  | .u8 => (r.fork c).1
  | .u16 => ((r.fork c).2.fork c).1
  | .u32 => (((r.fork c).2.fork c).2.fork c).1
  | .u64 => ((((r.fork c).2.fork c).2.fork c).2.fork c).1
  | .u128 => (((((r.fork c).2.fork c).2.fork c).2.fork c).2.fork c).1

def preprocessSend (c : ChaCha) (cfg : PoolCfg) (fb : Nat) (counts : RingType → Nat) (r : Rep3Rand)
    (net : Net Lane F) : Except IoError (Net Lane F) :=
  (activeTypes counts).foldlM (fun net t =>
    let s := typeRand c r t
    sendRanges cfg t.width
      (fun start num => edabitAlpha2SeedChunk c s.seed1 s.pos1 s.seed2 s.pos2 start num fb t.width)
      (preprocessRanges cfg counts t) net) net

/-- The store files P2 creates, for inactive types as well. -/
def createStores (F : Type) [RawElem F] (dir : String) (counts : RingType → Nat) (d : Disk) :
    Disk :=
  ringTypes.foldl (fun d t => (BackingStore.createFileBackedSized F d
    (LazyEdaBits.authoritativeAlphaPath t.width dir) (counts t * t.width)).2) d

def preprocessReceive (cfg : PoolCfg) (dir : String) (counts : RingType → Nat)
    (state : Net Lane F × Disk) :
    Except IoError (Net Lane F × Disk) :=
  (activeTypes counts).foldlM (fun state t =>
    recvRanges cfg t.width (cfg.storeBatchItems t.width) (preprocessRanges cfg counts t)
      ⟨LazyEdaBits.authoritativeAlphaPath t.width dir, counts t * t.width⟩ 0 state) state

def preprocessSource (c : ChaCha) (fb : Nat) (dir : String) (counts : RingType → Nat) (r : Rep3Rand)
    (p : PartyID) (t : RingType) : LazyEdaBits F t.width :=
  if p = .ID2 then
    .newWithStore (typeRand c r t) (counts t) fb
      (.fileBacked (LazyEdaBits.authoritativeAlphaPath t.width dir) (counts t * t.width) 0)
      .p2Authoritative p
  else .new (typeRand c r t) (counts t) fb [] p

/-- The edaBit phase of `preprocess_pool_base` at the three parties. -/
def preprocessPool (c : ChaCha) (cfg : PoolCfg) (fb : Nat) (dir : String) (counts : RingType → Nat)
    (rand : PartyID → Rep3Rand) (disk : PartyID → Disk) : Except IoError (Parties F) := do
  let net ← preprocessSend c cfg fb counts (rand .ID0) fun _ => []
  let (net, d2) ← preprocessReceive cfg dir counts (net, createStores F dir counts (disk .ID2))
  let (pool0, d0) ← EdaPool.save (preprocessSource c fb dir counts (rand .ID0) .ID0) (disk .ID0) dir
  let (pool1, d1) ← EdaPool.save (preprocessSource c fb dir counts (rand .ID1) .ID1) (disk .ID1) dir
  let (pool2, d2) ← EdaPool.save (preprocessSource c fb dir counts (rand .ID2) .ID2) d2 dir
  return {
    pool := fun | .ID0 => pool0 | .ID1 => pool1 | .ID2 => pool2
    disk := fun | .ID0 => d0 | .ID1 => d1 | .ID2 => d2
    net }

def extendSend (c : ChaCha) (cfg : PoolCfg) (fb : Nat) (deficits : RingType → Nat)
    (pool : EdaPool F) (net : Net Lane F) : Except IoError (Net Lane F) :=
  (activeTypes deficits).foldlM (fun net t =>
    let s := pool t
    sendRanges cfg t.width
      (fun start num =>
        edabitAlpha2ExtChunk c s.seed1 s.pos1 s.seed2 s.pos2 (s.total + start) num fb t.width)
      (segmentRanges cfg t.width (deficits t)) net) net

/-- P2's extension of one type. A store that is not file-backed has no writer: nothing is received,
and the total grows all the same. -/
def extendReceiveType (cfg : PoolCfg) (t : RingType) (deficit : Nat)
    (state : Net Lane F × EdaPool F × Disk) : Except IoError (Net Lane F × EdaPool F × Disk) := do
  let (net, pool, d) := state
  let src := pool t
  let grown := src.total + deficit
  match ← preExtendedWriter src.alphasFlatStore d (deficit * t.width) with
  | some (writer, store, d) => do
    let (net, d) ← recvRanges cfg t.width (cfg.maxItemsPerMsg t.width)
      (segmentRanges cfg t.width deficit)
      writer src.alphasFlatStore.len (net, d)
    return (net, pool.set t { src with alphasFlatStore := store, total := grown }, d)
  | none => return (net, pool.set t { src with total := grown }, d)

def extendReceive (cfg : PoolCfg) (deficits : RingType → Nat)
    (state : Net Lane F × EdaPool F × Disk) :
    Except IoError (Net Lane F × EdaPool F × Disk) :=
  (activeTypes deficits).foldlM (fun state t => extendReceiveType cfg t (deficits t) state) state

/-- The `apply_extension` calls of P0 and P1. -/
def applyExtensions (deficits : RingType → Nat) (pool : EdaPool F) (d : Disk) :
    Except IoError (EdaPool F × Disk) :=
  ringTypes.foldlM (fun (pool, d) t => do
    let (src, d) ← (pool t).applyExtension d (deficits t) []
    return (EdaPool.set pool t src, d)) (pool, d)

/-- The edaBit phase of `extend_pool_batched_base` at the three parties. -/
def extendPool (c : ChaCha) (cfg : PoolCfg) (fb : Nat) (deficits : RingType → Nat) (s : Parties F) :
    Except IoError (Parties F) := do
  let net ← extendSend c cfg fb deficits (s.pool .ID0) s.net
  let (net, pool2, d2) ← extendReceive cfg deficits (net, s.pool .ID2, s.disk .ID2)
  let (pool0, d0) ← applyExtensions deficits (s.pool .ID0) (s.disk .ID0)
  let (pool1, d1) ← applyExtensions deficits (s.pool .ID1) (s.disk .ID1)
  return {
    pool := fun | .ID0 => pool0 | .ID1 => pool1 | .ID2 => pool2
    disk := fun | .ID0 => d0 | .ID1 => d1 | .ID2 => d2
    net }

end Phases

end ProviaVM.Preprocessing
