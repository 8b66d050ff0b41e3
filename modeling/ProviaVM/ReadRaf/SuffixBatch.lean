import ProviaVM.Lib.Slots
import ProviaVM.ReadRaf.ShiftSuffixes
import ProviaVM.Rep3.Comparison

/-! # Batches of suffix evaluations

`MixedBatch` (`provia-worker/src/zkvm/suffixes/mod.rs`) and `SuffixFutureBatch`
(`suffixes/future.rs`). The suffixes of a phase are evaluated table by table; a result is
pushed with its output slot into the bucket of its kind, and `fulfill_with_pool` converts
the buckets one after the other and writes every result at its slot. A batch `Holds` a list
of values when its slots, from the first on, are pending for them. -/
namespace ProviaVM.ReadRaf
open Instruction Rep3 Preprocessing Sumcheck List

instance (r : RingType) : PowerOfTwo r.width := by
  cases r
  · exact inferInstanceAs (PowerOfTwo 8)
  · exact inferInstanceAs (PowerOfTwo 16)
  · exact inferInstanceAs (PowerOfTwo 32)
  · exact inferInstanceAs (PowerOfTwo 64)
  · exact inferInstanceAs (PowerOfTwo 128)

/-! ## Batches of public and shared words -/

/-- `MixedBatch`: a batch that is known to be public or shared as a whole, or one that is not. -/
inductive MixedBatch (P : Type) (K : Nat) where
  | pub (v : List P)
  | shared (v : List (View (BitVec K)))
  | mixed (v : List (P ⊕ View (BitVec K)))

namespace MixedBatch

variable {P : Type} {K : Nat}

def entries : MixedBatch P K → List (P ⊕ View (BitVec K))
  | pub v => v.map .inl
  | shared v => v.map .inr
  | mixed v => v

/-- `as_public`; `none` is the panic. -/
def asPublic : MixedBatch P K → Option (List P)
  | pub v => some v
  | _ => none

/-- `as_shared`; `none` is the panic. -/
def asShared : MixedBatch P K → Option (List (View (BitVec K)))
  | shared v => some v
  | _ => none

def classify (entries : List (P ⊕ View (BitVec K))) : MixedBatch P K :=
  if entries.all Sum.isLeft then .pub (entries.filterMap Sum.getLeft?)
  else if entries.all Sum.isRight then .shared (entries.filterMap Sum.getRight?)
  else .mixed entries

def restrict (keep : List Bool) : MixedBatch P K → MixedBatch P K
  | pub v => .pub (((keep.zip v).filter Prod.fst).map Prod.snd)
  | shared v => .shared (((keep.zip v).filter Prod.fst).map Prod.snd)
  | mixed v => .mixed (((keep.zip v).filter Prod.fst).map Prod.snd)

theorem map_inl_filterMap {es : List (P ⊕ View (BitVec K))} (all : es.all Sum.isLeft = true) :
    (es.filterMap Sum.getLeft?).map .inl = es := by
  induction es with
  | nil => rfl
  | cons e es ih =>
    rw [all_cons, Bool.and_eq_true] at all
    cases e with
    | inl p => exact congrArg (Sum.inl p :: ·) (ih all.2)
    | inr x => cases all.1

theorem map_inr_filterMap {es : List (P ⊕ View (BitVec K))} (all : es.all Sum.isRight = true) :
    (es.filterMap Sum.getRight?).map .inr = es := by
  induction es with
  | nil => rfl
  | cons e es ih =>
    rw [all_cons, Bool.and_eq_true] at all
    cases e with
    | inl p => cases all.1
    | inr x => exact congrArg (Sum.inr x :: ·) (ih all.2)

theorem entries_classify (es : List (P ⊕ View (BitVec K))) : (classify es).entries = es := by
  unfold classify
  split
  · exact map_inl_filterMap ‹_›
  split
  · exact map_inr_filterMap ‹_›
  · rfl

end MixedBatch

/-! ## The batch of results -/

/-- For every kind of result the output slots and the values; `bitinjectScalars` is the sparse map
from positions in the bucket of bits. -/
structure SuffixFutureBatch (F : Type) where
  len : Nat
  readyIdx : List Nat
  bitinjectIdx : List Nat
  b2aIdx : RingType → List Nat
  ready : List (Rep3Value F)
  bitinject : List (View (BitVec 1))
  bitinjectScalars : Nat → Option F
  b2a : (r : RingType) → List (View (BitVec r.width))

inductive Pending (F : Type) where
  | ready (v : Rep3Value F)
  | bitinject (x : View (BitVec 1)) (scalar : Option F)
  | b2a (r : RingType) (x : View (BitVec r.width))

namespace SuffixFutureBatch

variable {F : Type}

def new : SuffixFutureBatch F := ⟨0, [], [], fun _ => [], [], [], fun _ => none, fun _ => []⟩

/-- `reserve`: the base index of the segment, and the batch with `n` more slots. -/
def reserve (b : SuffixFutureBatch F) (n : Nat) : Nat × SuffixFutureBatch F :=
  (b.len, { b with len := b.len + n })

def extendReady (b : SuffixFutureBatch F) (indices : List Nat) (vals : List (Rep3Value F)) :
    SuffixFutureBatch F :=
  { b with readyIdx := b.readyIdx ++ indices, ready := b.ready ++ vals }

def extendBitinject (b : SuffixFutureBatch F) (indices : List Nat) (vals : List (View (BitVec 1))) :
    SuffixFutureBatch F :=
  { b with bitinjectIdx := b.bitinjectIdx ++ indices, bitinject := b.bitinject ++ vals }

def extendBitinjectScaled (b : SuffixFutureBatch F) (indices : List Nat)
    (vals : List (View (BitVec 1))) (scalar : F) :
    SuffixFutureBatch F :=
  let start := b.bitinject.length
  { b with
    bitinjectIdx := b.bitinjectIdx ++ indices
    bitinject := b.bitinject ++ vals
    bitinjectScalars := fun pos => if start ≤ pos ∧ pos < start + vals.length then some scalar
      else b.bitinjectScalars pos }

def extendB2aRing (b : SuffixFutureBatch F) (r : RingType) (indices : List Nat)
    (vals : List (View (BitVec r.width))) :
    SuffixFutureBatch F :=
  { b with
    b2aIdx := Function.update b.b2aIdx r (b.b2aIdx r ++ indices)
    b2a := Function.update b.b2a r (b.b2a r ++ vals) }

/-- The buckets with their slots, in the order in which they are converted. -/
def buckets (b : SuffixFutureBatch F) : List (List Nat × List (Pending F)) :=
  (b.readyIdx, b.ready.map .ready) ::
    (b.bitinjectIdx, b.bitinject.zipIdx.map fun x => .bitinject x.1 (b.bitinjectScalars x.2)) ::
    [RingType.u8, .u16, .u32, .u64, .u128].map fun r => (b.b2aIdx r, (b.b2a r).map (.b2a r))

end SuffixFutureBatch

def Pending.fulfill {F : Type} [CommRing F] : Pending F → Mpc F (Rep3Value F)
  | .ready v => pure v
  | .bitinject x scalar => do
    let f ← bitInjectFieldPreproc x
    return .shared (match scalar with
      | some w => f.map (· * w)
      | none => f)
  | .b2a _ x => do
    let f ← r2fB2aPreproc x
    return .shared f

def SuffixFutureBatch.fulfillWithPool {F : Type} [CommRing F] (b : SuffixFutureBatch F) :
    Mpc F (List (Rep3Value F)) := do
  let scatter ← b.buckets.mapM fun bucket => do
    return bucket.1.zip (← bucket.2.mapM Pending.fulfill)
  return Slots.write scatter.flatten (List.replicate b.len (.shared fun _ => ⟨0, 0⟩))

/-! ## What a batch holds -/

/-- The field element a pending result will open to. -/
inductive Pending.StandsFor {F : Type} [Field F] : Pending F → F → Prop
  | ready {v : Rep3Value F} {s : F} (h : v.Opens s) : StandsFor (.ready v) s
  | bitinject {x : View (BitVec 1)} {s : BitVec 1} (h : XorShares x s) :
    StandsFor (.bitinject x none) (s.toNat : F)
  | scaled {x : View (BitVec 1)} {s : BitVec 1} (h : XorShares x s) (w : F) :
    StandsFor (.bitinject x (some w)) (s.toNat * w)
  | b2a {r : RingType} {x : View (BitVec r.width)} {s : BitVec r.width} (h : XorShares x s) :
    StandsFor (.b2a r x) (s.toNat : F)

theorem ofBool_bit (s : BitVec 1) :
    BitVec.ofBool (s.getLsbD 0) = s ∧ (s.getLsbD 0).toNat = s.toNat := by decide +revert

theorem Pending.fulfill_spec {F : Type} [Field F] (p : Pending F) (s : F) (h : p.StandsFor s) :
    Ensures (Rep3Value.Opens · s) p.fulfill := by
  have bit : ∀ {x : View (BitVec 1)} {s : BitVec 1}, XorShares x s →
      Ensures (SumShares · (s.toNat : F)) (bitInjectFieldPreproc x) := fun {x s} shares => by
    obtain ⟨known, value⟩ := ofBool_bit s
    rw [← known] at shares
    rw [← value]
    exact bitInjectFieldPreproc_spec shares
  cases h with
  | ready h => exact Ensures.pure h
  | bitinject h => exact Ensures.bind (bit h) fun _ shares => Ensures.pure shares
  | scaled h w => exact Ensures.bind (bit h) fun _ shares => Ensures.pure (shares.mulPublic w)
  | b2a h => exact Ensures.bind (r2fB2aPreproc_spec h) fun _ shares => Ensures.pure shares

namespace SuffixFutureBatch

/-- Every bucket has as many slots as values, and no weight is left over for a bit to come. -/
structure Aligned {F : Type} (b : SuffixFutureBatch F) : Prop where
  ready : b.readyIdx.length = b.ready.length
  bitinject : b.bitinjectIdx.length = b.bitinject.length
  b2a : ∀ r, (b.b2aIdx r).length = (b.b2a r).length
  scalars : ∀ pos, b.bitinject.length ≤ pos → b.bitinjectScalars pos = none

variable {F : Type} [Field F]

/-- What the batch is pending for: values with their slots. -/
structure Contains (b : SuffixFutureBatch F) (held : Multiset (F × Nat)) : Prop where
  aligned : b.Aligned
  pending : Slots.Holds Pending.StandsFor (Slots.entries b.buckets) held

/-- The slots of the batch, from the first on, are pending for these values. -/
structure Holds (b : SuffixFutureBatch F) (values : List F) : Prop where
  len : b.len = values.length
  contains : b.Contains (values.zipIdx : List _)

omit [Field F] in
theorem Aligned.buckets {b : SuffixFutureBatch F} (h : b.Aligned) : ∀ bucket ∈ b.buckets,
  bucket.1.length = bucket.2.length := by
  intro bucket mem
  simp only [SuffixFutureBatch.buckets, List.mem_cons, List.map_cons, List.map_nil,
    List.not_mem_nil, or_false] at mem
  rcases mem with rfl | rfl | rfl | rfl | rfl | rfl | rfl
  · simp [h.ready]
  · simp [h.bitinject]
  all_goals simp [h.b2a]

theorem new_holds : (new : SuffixFutureBatch F).Holds [] where
  len := rfl
  contains := ⟨⟨rfl, rfl, fun _ => rfl, fun _ _ => rfl⟩, .zero⟩

/-- Every slot opens to the value the batch holds for it. -/
theorem fulfillWithPool_spec {b : SuffixFutureBatch F} {values : List F} (h : b.Holds values) :
    Ensures (Forall₂ Rep3Value.Opens · values) b.fulfillWithPool := by
  have converted := h.contains.pending.mapM_parts Pending.fulfill_spec h.contains.aligned.buckets
  refine Ensures.bind converted fun scatter written => Ensures.pure ?_
  exact written.write (by simp [h.len])

end SuffixFutureBatch

/-! ## What an evaluation adds -/

/-- The evaluation adds results for these values and slots to the batch. -/
def Pushes {F : Type} [Field F] (out : SuffixFutureBatch F) (new : Multiset (F × Nat))
    (run : Mpc F (SuffixFutureBatch F)) : Prop :=
  ∀ held, out.Contains held → Ensures (fun b => b.len = out.len ∧ b.Contains (held + new)) run

section Pushes

variable {F : Type} [Field F] {out : SuffixFutureBatch F}

theorem Pushes.nothing : Pushes out 0 (pure out) := fun held contains =>
  Ensures.pure ⟨rfl, by rw [add_zero]; exact contains⟩

theorem Pushes.bind {new later : Multiset (F × Nat)} {run : Mpc F (SuffixFutureBatch F)}
    {next : SuffixFutureBatch F → Mpc F (SuffixFutureBatch F)} (first : Pushes out new run)
    (rest : ∀ b, Pushes b later (next b)) : Pushes out (new + later) (run >>= next) :=
  fun held contains =>
  Ensures.bind (first held contains) fun b pushed => (rest b _ pushed.2).imp fun _ more =>
    ⟨more.1.trans pushed.1, by rw [← add_assoc]; exact more.2⟩

/-- A local or joint computation before the results are pushed. -/
theorem Pushes.after {α : Type} {new : Multiset (F × Nat)} {P : α → Prop} {m : Mpc F α}
    {next : α → Mpc F (SuffixFutureBatch F)} (first : Ensures P m)
    (rest : ∀ a, P a → Pushes out new (next a)) :
    Pushes out new (m >>= next) :=
  fun held contains => Ensures.bind first fun a ok => rest a ok held contains

theorem Pushes.holds {values added : List F} (h : out.Holds values)
    {run : Mpc F (SuffixFutureBatch F)}
    (pushes :
      Pushes (out.reserve added.length).2 (added.zipIdx (out.reserve added.length).1 : List _)
    run) :
    Ensures (SuffixFutureBatch.Holds · (values ++ added)) run := by
  have reserved : (out.reserve added.length).2.Contains (values.zipIdx : List _) :=
    ⟨⟨h.contains.aligned.ready, h.contains.aligned.bitinject, h.contains.aligned.b2a,
      h.contains.aligned.scalars⟩, h.contains.pending⟩
  refine (pushes _ reserved).imp fun b pushed => ⟨?_, ?_⟩
  · rw [pushed.1, length_append, ← h.len]
    rfl
  · rw [List.zipIdx_append, Nat.zero_add, ← h.len]
    exact pushed.2

variable {ι : Type} {slot : ι → Nat} {items : List ι}

theorem SuffixFutureBatch.Contains.grow {b b' : SuffixFutureBatch F} {held new : Multiset (F × Nat)}
    (h : b.Contains held) (aligned : b'.Aligned) {added : Multiset (Nat × Pending F)}
    (entries : Slots.entries b'.buckets = Slots.entries b.buckets + added)
    (pending : Slots.Holds Pending.StandsFor added new) : b'.Contains (held + new) :=
  ⟨aligned, entries ▸ h.pending.add pending⟩

theorem pushes_ready {value : ι → F} {vals : List (Rep3Value F)}
    (h : Forall₂ (fun v c => v.Opens (value c)) vals items) :
    Pushes out (items.map fun c => (value c, slot c) : List _)
      (pure (out.extendReady (items.map slot) vals)) := by
  intro held contains
  have same := h.length_eq
  obtain ⟨ready, bitinject, b2a, scalars⟩ := contains.aligned
  refine Ensures.pure ⟨rfl, contains.grow ⟨?_, bitinject, b2a,
    scalars⟩ ?_ (.zip (l := vals.map .ready) ?_)⟩
  · simp [SuffixFutureBatch.extendReady, ready, same]
  · simp only [SuffixFutureBatch.extendReady, SuffixFutureBatch.buckets, Slots.entries,
      List.map_cons, List.sum_cons, List.map_append]
    rw [List.zip_append (by simp [ready]), ← Multiset.coe_add]
    abel
  · rw [List.forall₂_map_left_iff]
    exact h.imp fun _ _ opens => .ready opens

/-- Bits wait in the batch for the injection and stand for their values at once. -/
theorem pushes_bitinject {bit : ι → BitVec 1} {vals : List (View (BitVec 1))}
    (h : Forall₂ (fun x c => XorShares x (bit c)) vals items) :
    Pushes out (items.map fun c => (((bit c).toNat : F), slot c) : List _)
      (pure (out.extendBitinject (items.map slot) vals)) := by
  intro held contains
  have same := h.length_eq
  obtain ⟨ready, bitinject, b2a, scalars⟩ := contains.aligned
  -- a position after the ones in the bucket has no weight
  have unscaled : ∀ k, out.bitinject.length ≤ k →
      (vals.zipIdx k).map (fun x => Pending.bitinject x.1 (out.bitinjectScalars x.2)) =
        vals.map (Pending.bitinject · none) := by
    intro k past
    induction vals generalizing k items with
    | nil => rfl
    | cons v vals ih =>
      obtain ⟨c, cs, -, rest, -⟩ := forall₂_cons_left_iff.mp h
      simp [scalars k past, ih rest rest.length_eq (k + 1) (by omega)]
  refine Ensures.pure ⟨rfl, contains.grow ⟨ready, ?_, b2a,
    ?_⟩ ?_ (.zip (l := vals.map (Pending.bitinject · none)) ?_)⟩
  · simp [SuffixFutureBatch.extendBitinject, bitinject, same]
  · intro pos past
    simp only [SuffixFutureBatch.extendBitinject, length_append] at past
    exact scalars pos (by omega)
  · simp only [SuffixFutureBatch.extendBitinject, SuffixFutureBatch.buckets, Slots.entries,
      List.map_cons, List.sum_cons, List.zipIdx_append, List.map_append]
    rw [unscaled _ (by omega), List.zip_append (by simp [bitinject]), ← Multiset.coe_add]
    abel
  · rw [List.forall₂_map_left_iff]
    exact h.imp fun _ _ shares => .bitinject shares

/-- Scaled bits wait with the others; their weight is kept by position. -/
theorem pushes_bitinjectScaled {bit : ι → BitVec 1} {vals : List (View (BitVec 1))} (w : F)
    (h : Forall₂ (fun x c => XorShares x (bit c)) vals items) :
    Pushes out (items.map fun c => (((bit c).toNat * w : F), slot c) : List _)
      (pure (out.extendBitinjectScaled (items.map slot) vals w)) := by
  intro held contains
  have same := h.length_eq
  obtain ⟨ready, bitinject, b2a, scalars⟩ := contains.aligned
  let scaled := (out.extendBitinjectScaled (items.map slot) vals w).bitinjectScalars
  have before : out.bitinject.zipIdx.map (fun x => Pending.bitinject x.1 (scaled x.2)) =
      out.bitinject.zipIdx.map fun x => Pending.bitinject x.1 (out.bitinjectScalars x.2) := by
    refine map_congr_left fun x mem => ?_
    have inside := snd_lt_of_mem_zipIdx mem
    simp only [scaled, SuffixFutureBatch.extendBitinjectScaled]
    rw [if_neg (by omega)]
  have added :
    (vals.zipIdx out.bitinject.length).map (fun x => Pending.bitinject x.1 (scaled x.2)) =
      vals.map (Pending.bitinject · (some w)) := by
    have each :
      (vals.zipIdx out.bitinject.length).map (fun x => Pending.bitinject x.1 (scaled x.2)) =
        (vals.zipIdx out.bitinject.length).map fun x => Pending.bitinject x.1 (some w) := by
      refine map_congr_left fun x mem => ?_
      have low := le_snd_of_mem_zipIdx mem
      have high := snd_lt_add_of_mem_zipIdx mem
      simp only [scaled, SuffixFutureBatch.extendBitinjectScaled]
      rw [if_pos (by omega)]
    have firsts :=
      congrArg (List.map (Pending.bitinject · (some w)))
      (List.zipIdx_map_fst out.bitinject.length vals)
    rw [each, ← firsts, List.map_map]
    rfl
  refine Ensures.pure ⟨rfl, contains.grow ⟨ready, ?_, b2a,
    ?_⟩ ?_ (.zip (l := vals.map (Pending.bitinject · (some w))) ?_)⟩
  · simp [SuffixFutureBatch.extendBitinjectScaled, bitinject, same]
  · intro pos past
    simp only [SuffixFutureBatch.extendBitinjectScaled, length_append] at past ⊢
    rw [if_neg (by omega)]
    exact scalars pos (by omega)
  · have bucket : (out.bitinject ++ vals).zipIdx.map (fun x => Pending.bitinject x.1 (scaled x.2)) =
        (out.bitinject.zipIdx.map fun x => Pending.bitinject x.1 (out.bitinjectScalars x.2)) ++
          vals.map (Pending.bitinject · (some w)) := by
      rw [List.zipIdx_append, List.map_append, before, Nat.zero_add, added]
    show Slots.entries ((out.readyIdx, out.ready.map .ready) ::
      (out.bitinjectIdx ++ items.map slot, (out.bitinject ++ vals).zipIdx.map fun x =>
        Pending.bitinject x.1 (scaled x.2)) :: _) = _
    rw [bucket]
    simp only [SuffixFutureBatch.buckets, Slots.entries, List.map_cons, List.sum_cons]
    rw [List.zip_append (by simp [bitinject]), ← Multiset.coe_add]
    abel
  · rw [List.forall₂_map_left_iff]
    exact h.imp fun _ _ shares => .scaled shares w

/-- Words wait in the bucket of their ring. -/
theorem pushes_b2aRing {r : RingType} {word : ι → BitVec r.width}
    {vals : List (View (BitVec r.width))}
    (h : Forall₂ (fun x c => XorShares x (word c)) vals items) :
    Pushes out (items.map fun c => (((word c).toNat : F), slot c) : List _)
      (pure (out.extendB2aRing r (items.map slot) vals)) := by
  intro held contains
  have same := h.length_eq
  obtain ⟨ready, bitinject, b2a, scalars⟩ := contains.aligned
  refine Ensures.pure ⟨rfl, contains.grow ⟨ready, bitinject, fun q => ?_,
    scalars⟩ ?_ (.zip (l := vals.map (.b2a r)) ?_)⟩
  · by_cases own : q = r
    · subst own
      simp [SuffixFutureBatch.extendB2aRing, b2a, same]
    · simp [SuffixFutureBatch.extendB2aRing, Function.update_of_ne own, b2a]
  · -- the bucket of the ring is the one that changes
    have bucket :
      (out.b2aIdx r ++ items.map slot).zip ((out.b2a r ++ vals).map (Pending.b2a (F := F) r)) =
        (out.b2aIdx r).zip ((out.b2a r).map (.b2a r)) ++
          (items.map slot).zip (vals.map (.b2a r)) := by
      rw [List.map_append, List.zip_append (by simp [b2a])]
    cases r <;>
      simp only [SuffixFutureBatch.extendB2aRing, SuffixFutureBatch.buckets, Slots.entries,
        List.map_cons, List.sum_cons, Function.update_self, ne_eq, reduceCtorEq, not_false_eq_true,
        Function.update_of_ne, bucket,
        ← Multiset.coe_add] <;>
      abel
  · rw [List.forall₂_map_left_iff]
    exact h.imp fun _ _ shares => .b2a shares

end Pushes

end ProviaVM.ReadRaf
