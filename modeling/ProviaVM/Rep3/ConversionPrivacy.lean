import ProviaVM.Lib.MaskedRounds
import ProviaVM.Lib.Uniform
import ProviaVM.Rep3.Circuits
import ProviaVM.Rep3.PrfKeys

/-! # What a party sees of a binary-to-arithmetic conversion

`b2a` and `b2a_many` (`rep3_ring/conversion.rs`) with the messages each party receives. The
conversion is a sequence of masked rounds: the resharing of `k2 + k3`, the AND and the rounds of
the carry tree, and then the opening of the sum to parties 0 and 1. A batch of `n` elements runs
them together; `b2a` is the batch of one element.

The draws of a stream are uniform and independent, and a party knows the streams of the keys it
can compute. Party 0 can compute all keys of both components (`knows_bitcompKey`), so it can
subtract `k2 + k3` from the opened sum. -/
namespace ProviaVM.Rep3
open Preprocessing (PartyID)
open ParallelPrefix MaskedRounds Keys Uniform

/-! ## The sum -/

section Sum

variable {w : Nat}

/-- What `low_depth_binary_add` computes, for every width. -/
def binaryAdd (s t : BitVec w) : BitVec w :=
  (rounds w.log2 (s ^^^ t, s &&& t)).2 <<< 1 ^^^ (s ^^^ t)

theorem binaryAdd_comm (s t : BitVec w) : binaryAdd s t = binaryAdd t s := by
  rw [binaryAdd, binaryAdd, BitVec.xor_comm s t, BitVec.and_comm s t]

def SameBelow (i : Nat) (a b : BitVec w) : Prop := ∀ j < i, a.getLsbD j = b.getLsbD j

theorem SameBelow.round {i n : Nat} {v u : BitVec w × BitVec w} (p : SameBelow i v.1 u.1)
    (g : SameBelow i v.2 u.2) :
    SameBelow i (round n v).1 (round n u).1 ∧ SameBelow i (round n v).2 (round n u).2 := by
  have shift : ∀ {a b : BitVec w}, SameBelow i a b → SameBelow i (a <<< n) (b <<< n) := by
    intro a b same j inside
    simp [same (j - n) (by omega)]
  constructor <;> intro j inside
  · simp [ParallelPrefix.round, p j inside, shift p j inside]
  · simp [ParallelPrefix.round, p j inside, g j inside, shift g j inside]

theorem SameBelow.rounds {i : Nat} {v u : BitVec w × BitVec w} (p : SameBelow i v.1 u.1)
    (g : SameBelow i v.2 u.2) (d : Nat) :
    SameBelow i (rounds d v).1 (rounds d u).1 ∧ SameBelow i (rounds d v).2 (rounds d u).2 := by
  induction d with
  | zero => exact ⟨p, g⟩
  | succ d ih => exact ih.1.round ih.2

/-- A summand is determined by the sum and the other summand: bit by bit, from the lowest on. -/
theorem binaryAdd_right_injective (s : BitVec w) : Function.Injective (binaryAdd s) := by
  intro t t' same
  have below : ∀ i, SameBelow i t t' := by
    intro i
    induction i with
    | zero => exact fun j inside => absurd inside (Nat.not_lt_zero j)
    | succ i ih =>
      have carries : SameBelow i (ParallelPrefix.rounds w.log2 (s ^^^ t, s &&& t)).2
          (ParallelPrefix.rounds w.log2 (s ^^^ t', s &&& t')).2 := by
        refine (SameBelow.rounds ?_ ?_ _).2 <;> intro j inside
        · simp [ih j inside]
        · simp [ih j inside]
      intro j inside
      rcases Nat.lt_or_eq_of_le (Nat.le_of_lt_succ inside) with lower | rfl
      · exact ih j lower
      · have bit := congrArg (·.getLsbD j) same
        simp only [binaryAdd, BitVec.getLsbD_xor, BitVec.getLsbD_shiftLeft] at bit
        rcases j with - | j
        · simpa using bit
        · rw [Nat.add_sub_cancel, carries j (Nat.lt_succ_self j)] at bit
          simpa using bit
  exact BitVec.eq_of_getLsbD_eq fun i _ => below (i + 1) i (Nat.lt_succ_self i)

theorem binaryAdd_left_injective (t : BitVec w) :
    Function.Injective fun s : BitVec w => binaryAdd s t := by
  intro s s' same
  simp only [binaryAdd_comm _ t] at same
  exact binaryAdd_right_injective t same

end Sum

/-! ## The protocol -/

section Protocol

variable {w n : Nat}

/-- A party's state for one element: its input share, `k2 + k3` (0 but for party 2) and the share of
it, the XOR `s` of the summands, the words `p` and `g` of the carry tree and a product on its way
into `g`. -/
structure B2aState (w : Nat) where
  x : Rep3Share (BitVec w)
  val : BitVec w
  y : Rep3Share (BitVec w)
  s : Rep3Share (BitVec w)
  p : Rep3Share (BitVec w)
  g : Rep3Share (BitVec w)
  r1 : Rep3Share (BitVec w)

abbrev B2aRound (w n : Nat) := Round PartyID (Fin n → B2aState w) (Fin n → BitVec w)

/-- `send_next(y.a)`: a masked sharing of `k2 + k3`. -/
def reshareY : B2aRound w n where
  value _ st e := (st e).val
  update _ st own prev e := { st e with y := ⟨own e, prev e⟩ }

/-- `binary::and_many` of the summands, and the propagate word. -/
def andRound : B2aRound w n where
  value _ st e := (st e).x.localAnd (st e).y
  update _ st own prev e :=
    let s := (st e).x.map₂ (· ^^^ ·) (st e).y
    { st e with s := s, p := s, g := ⟨own e, prev e⟩ }

/-- The first product of `and_twice_many_iter` in `kogge_stone_loop_many`. -/
def andTwiceFirst (shift : Nat) : B2aRound w n where
  value _ st e := ((st e).g.map fun a : BitVec w => a <<< shift).localAnd (st e).p
  update _ st own prev e := { st e with r1 := ⟨own e, prev e⟩ }

/-- The second product, and what the loop makes of the two. -/
def andTwiceSecond (shift : Nat) : B2aRound w n where
  value _ st e := (st e).p.localAnd ((st e).p.map fun a : BitVec w => a <<< shift)
  update _ st own prev e :=
    { st e with p := ⟨own e, prev e⟩, g := (st e).g.map₂ (· ^^^ ·) (st e).r1 }

/-- `kogge_stone_loop_many`, `d` rounds. -/
def koggeStoneRounds : Nat → List (B2aRound w n)
  | 0 => []
  | d + 1 => koggeStoneRounds d ++ [andTwiceFirst (2 ^ d), andTwiceSecond (2 ^ d)]

def b2aRounds (w n : Nat) : List (B2aRound w n) := [reshareY, andRound] ++ koggeStoneRounds w.log2

/-- The position of the mask of element `e` in round `k`, counted from the start: the two masks of
`and_twice_many_iter` are drawn element by element. -/
def maskPos (n : Nat) : Nat → Nat → Nat
  | 0, e => e
  | 1, e => n + e
  | k + 2, e => 2 * n + 2 * n * (k / 2) + 2 * e + k % 2

/-- The parties in the order in which they send, with XOR masks. -/
def xorRing (n w : Nat) : MaskedRounds.Ring PartyID (Fin n → BitVec w) where
  prev := PartyID.prev
  blind v r r' e := v e ^^^ (r e ^^^ r' e)
  three p q := by cases p <;> cases q <;> simp [PartyID.prev]
  blind_inj v r a b same := by
    funext e
    have entry := congrFun same e
    simpa using entry

/-- The sums of the draws of `random_elements_3keys` from now on; without the third key it is
unreachable. -/
def randomElements3keys (stream : Key → Nat → BitVec w) (comp : Rep3RandBitComp) :
    Option (Nat → BitVec w) := do
  let third ← comp.rng3
  let draw (rng : KeyedRng) (i : Nat) := stream rng.key (rng.pos + i)
  return fun i => draw comp.rng1 i + draw comp.rng2 i + draw third i

/-- The masks of round `k`; a party's second generator is the first one of the party before. -/
def maskDraws (stream : Key → Nat → BitVec w) (rngs : PartyID → Rep3CorrelatedRng) (k : Nat)
    (p : PartyID) (e : Fin n) :
    BitVec w :=
  stream (rngs p).rand.rng1.key ((rngs p).rand.rng1.pos + maskPos n k e)

def b2aStart (x : Fin n → View (BitVec w)) (val : Fin n → BitVec w) (p : PartyID) (e : Fin n) :
    B2aState w where
  x := x e p
  val := if p = .ID2 then val e else 0
  y := ⟨0, 0⟩
  s := ⟨0, 0⟩
  p := ⟨0, 0⟩
  g := ⟨0, 0⟩
  r1 := ⟨0, 0⟩

/-- The share of the sum: `g <<= 1; g ^= p`. -/
def B2aState.z (st : B2aState w) : Rep3Share (BitVec w) :=
  (st.g.map fun a : BitVec w => a <<< 1).map₂ (· ^^^ ·) st.s

/-- What the parties receive, round by round and at the end, and their shares of the result. -/
structure B2aRun (w n : Nat) where
  received : PartyID → List (Fin n → BitVec w)
  opened : PartyID → Option (Fin n → BitVec w)
  result : Fin n → View (BitVec w)

/-- Every party draws its parts of `k2` and `k3`, the rounds run, and parties 0 and 2 send their
second component of the sum to the next party. -/
def b2aMany (stream : Key → Nat → BitVec w) (rngs : PartyID → Rep3CorrelatedRng)
    (x : Fin n → View (BitVec w)) :
    Option (B2aRun w n) := do
  let k3of0 ← randomElements3keys stream (rngs .ID0).bitcomp2
  let k2of1 ← randomElements3keys stream (rngs .ID1).bitcomp1
  let k2 ← randomElements3keys stream (rngs .ID2).bitcomp1
  let k3 ← randomElements3keys stream (rngs .ID2).bitcomp2
  let start := b2aStart x fun e => k2 e + k3 e
  let final := run (xorRing n w) (b2aRounds w n) (maskDraws stream rngs) start
  let z (p : PartyID) (e : Fin n) := (final p e).z
  return {
    received := received (xorRing n w) (b2aRounds w n) (maskDraws stream rngs) start
    opened := fun
      | .ID0 => some fun e => (z .ID2 e).b
      | .ID1 => some fun e => (z .ID0 e).b
      | .ID2 => none
    result := fun e => fun
      | .ID0 => ⟨(z .ID0 e).a ^^^ (z .ID0 e).b ^^^ (z .ID2 e).b, -k3of0 e⟩
      | .ID1 => ⟨-k2of1 e, (z .ID1 e).a ^^^ (z .ID1 e).b ^^^ (z .ID0 e).b⟩
      | .ID2 => ⟨-k3 e, -k2 e⟩ }

end Protocol

/-! ## The sum of the run -/

section Shares

variable {w n : Nat}

/-- The three parties' shares of a field of the state, for one element. -/
abbrev shareOf (f : B2aState w → Rep3Share (BitVec w)) (st : PartyID → Fin n → B2aState w)
    (e : Fin n) : View (BitVec w) :=
  fun p => f (st p e)

theorem parity_masks (r : PartyID → BitVec w) : parity (fun p => r p ^^^ r p.prev) = 0 := by
  apply BitVec.eq_of_getLsbD_eq
  intro i _
  simp only [parity, PartyID.prev, BitVec.getLsbD_xor]
  cases (r .ID0).getLsbD i <;> cases (r .ID1).getLsbD i <;> cases (r .ID2).getLsbD i <;> simp

/-- A round's messages and own values are a sharing of the product of what the parties put in. -/
theorem sent_products {round : B2aRound w n} {r : PartyID → Fin n → BitVec w}
    {st : PartyID → Fin n → B2aState w} {e : Fin n} {a b : View (BitVec w)} {s t : BitVec w}
    (value : ∀ p, round.value p (st p) e = (a p).localAnd (b p)) (ha : XorShares a s)
    (hb : XorShares b t) :
    XorShares (fun p => ⟨sent (xorRing n w) round r st p e, sent (xorRing n w) round r st p.prev e⟩)
      (s &&& t) := by
  have product := xorShares_products ha hb (parity_masks fun p => r p e)
  have same :
    (fun p =>
    (⟨sent (xorRing n w) round r st p e, sent (xorRing n w) round r st p.prev e⟩ :
    Rep3Share (BitVec w))) =
      View.reshare fun p => (a p).localAnd (b p) ^^^ (r p e ^^^ r p.prev e) := by
    funext p
    simp only [sent, xorRing, View.reshare, value]
  rw [same]
  exact product

/-- The words of the carry tree in the state, and the XOR of the summands beside them. -/
structure TreeShares (st : PartyID → Fin n → B2aState w) (e : Fin n) (pg : BitVec w × BitVec w)
    (s : View (BitVec w)) :
    Prop where
  p : XorShares (shareOf (·.p) st e) pg.1
  g : XorShares (shareOf (·.g) st e) pg.2
  s : shareOf (·.s) st e = s

/-- The two products of `and_twice_many_iter` make one round of the carry tree. -/
theorem TreeShares.andTwice {st : PartyID → Fin n → B2aState w} {e : Fin n}
    {pg : BitVec w × BitVec w} {s : View (BitVec w)} (tree : TreeShares st e pg s) (shift : Nat)
    (r r' : PartyID → Fin n → BitVec w) :
    TreeShares (step (xorRing n w) (andTwiceSecond shift) r'
      (step (xorRing n w) (andTwiceFirst shift) r st)) e
      (round shift pg) s where
  p := sent_products (fun _ => rfl) tree.p (tree.p.shiftLeft shift)
  g := by
    have product := @sent_products _ _ (andTwiceFirst shift) r st _ _ _ _ _ (fun _ => rfl)
      (tree.g.shiftLeft shift) tree.p
    rw [BitVec.and_comm] at product
    exact tree.g.xor product
  s := tree.s

/-- The carry tree of the run computes that of the words. -/
theorem TreeShares.koggeStoneRounds {st : PartyID → Fin n → B2aState w} {e : Fin n}
    {pg : BitVec w × BitVec w} {s : View (BitVec w)} (tree : TreeShares st e pg s)
    (r : Nat → PartyID → Fin n → BitVec w) (d : Nat) :
    TreeShares (run (xorRing n w) (koggeStoneRounds d) r st) e (rounds d pg) s := by
  induction d with
  | zero => exact tree
  | succ d ih =>
    rw [Rep3.koggeStoneRounds, run_append]
    exact ih.andTwice (2 ^ d) _ _

/-- The parties end with a sharing of the sum of the input and `k2 + k3`. -/
theorem b2aRounds_shares {x : Fin n → View (BitVec w)} {v : Fin n → BitVec w}
    (hx : ∀ e, XorShares (x e) (v e)) (val : Fin n → BitVec w)
    (r : Nat → PartyID → Fin n → BitVec w) (e : Fin n) :
    XorShares (shareOf B2aState.z (run (xorRing n w) (b2aRounds w n) r (b2aStart x val)) e)
      (binaryAdd (v e) (val e)) := by
  have y :
      XorShares (shareOf (·.y) (step (xorRing n w) reshareY (r 0) (b2aStart x val)) e) (val e) := by
    refine ⟨fun p => rfl, ?_⟩
    have split :
      parity (fun p => (shareOf (·.y) (step (xorRing n w) reshareY (r 0) (b2aStart x val)) e p).a) =
        val e ^^^ parity fun p => r 0 p e ^^^ r 0 p.prev e := by
      simp only [parity, shareOf, step, sent, reshareY, xorRing, b2aStart, reduceCtorEq, if_true]
      ac_rfl
    rw [split, parity_masks]
    exact BitVec.xor_zero
  have tree :
    TreeShares (step (xorRing n w) andRound (r 1)
    (step (xorRing n w) reshareY (r 0) (b2aStart x val))) e
      (v e ^^^ val e, v e &&& val e)
      ((x e).map₂ (· ^^^ ·) (shareOf (·.y) (step (xorRing n w) reshareY (r 0) (b2aStart x val))
        e)) :=
    ⟨(hx e).xor y, sent_products (fun _ => rfl) (hx e) y, rfl⟩
  have whole := tree.koggeStoneRounds (fun k => r (k + 2)) w.log2
  have sum := (whole.g.shiftLeft 1).xor ((hx e).xor y)
  rw [← whole.s] at sum
  exact sum

end Shares

/-! ## The view of a party -/

section Views

variable {w n : Nat}

abbrev DrawSet := Finset (Key × Nat)

/-- The streams with the given values at the draws of a set. -/
def streamOf {D : DrawSet} (ω : D → BitVec w) (key : Key) (pos : Nat) : BitVec w :=
  if h : (key, pos) ∈ D then ω ⟨(key, pos), h⟩ else 0

/-- What party `p` has seen after a conversion: its input shares, the draws of every stream it
knows, and the messages. -/
structure PartyView (w n : Nat) (D : DrawSet) where
  shares : Fin n → Rep3Share (BitVec w)
  streams : D → Option (BitVec w)
  received : List (Fin n → BitVec w)
  opened : Option (Fin n → BitVec w)

def b2aView (rngs : PartyID → Rep3CorrelatedRng) (D : DrawSet) (p : PartyID)
    (x : Fin n → View (BitVec w)) (ω : D → BitVec w) : Option (PartyView w n D) := do
  let conversion ← b2aMany (streamOf ω) rngs x
  return {
    shares := fun e => x e p
    streams := fun d => if knows p d.val.1 then some (ω d) else none
    received := conversion.received p
    opened := conversion.opened p }

/-- The draws that a conversion of `n` elements makes in a context. -/
inductive B2aDraw (w n forks : Nat) : Key × Nat → Prop
  | mask (p : PartyID) {k : Nat} (round : k < (b2aRounds w n).length) (e : Fin n) :
    B2aDraw w n forks (randKey forks p, maskPos n k e)
  | component (second : Bool) (p : PartyID) (e : Fin n) :
    B2aDraw w n forks (bitcompKey second forks p, e)

variable {forks : Nat} {D : DrawSet}
variable {p : PartyID} {ω ω' : D → BitVec w}

def contextDraws (forks : Nat) (stream : Key → Nat → BitVec w) (k : Nat) (p : PartyID) (e : Fin n) :
    BitVec w :=
  stream (randKey forks p) (maskPos n k e)

/-- The sum `k2 + k3` of a context, as party 2 adds it up. -/
def contextVal (forks : Nat) (stream : Key → Nat → BitVec w) (e : Fin n) : BitVec w :=
  let draw (second : Bool) (p : PartyID) := stream (bitcompKey second forks p) e
  draw false .ID2 + draw false .ID0 + draw false .ID1 +
    (draw true .ID2 + draw true .ID0 + draw true .ID1)

def contextFinal (forks : Nat) (stream : Key → Nat → BitVec w) (x : Fin n → View (BitVec w)) :
    PartyID → Fin n → B2aState w :=
  run (xorRing n w) (b2aRounds w n) (contextDraws forks stream)
    (b2aStart x (contextVal forks stream))

def contextReceived (forks : Nat) (stream : Key → Nat → BitVec w) (x : Fin n → View (BitVec w)) :
    PartyID → List (Fin n → BitVec w) :=
  received (xorRing n w) (b2aRounds w n) (contextDraws forks stream)
    (b2aStart x (contextVal forks stream))

def contextOpened (forks : Nat) (stream : Key → Nat → BitVec w) (x : Fin n → View (BitVec w)) :
    PartyID → Option (Fin n → BitVec w)
  | .ID0 => some fun e => (contextFinal forks stream x .ID2 e).z.b
  | .ID1 => some fun e => (contextFinal forks stream x .ID0 e).z.b
  | .ID2 => none

/-- The conversion returns in every context, and its view is that of the context's streams. -/
theorem b2aView_eq {rngs : PartyID → Rep3CorrelatedRng}
    (context : ∀ p, contextRngs forks p = some (rngs p)) (p : PartyID) (x : Fin n → View (BitVec w))
    (ω : D → BitVec w) :
    b2aView rngs D p x ω = some ⟨fun e => x e p, fun d => if knows p d.val.1 then some (ω d)
      else none, contextReceived forks (streamOf ω) x p, contextOpened forks (streamOf ω) x p⟩ := by
  have rngs_eq : ∀ p, rngs p = _ :=
    fun p => (Option.some.inj ((contextRngs_eq forks p).symm.trans (context p))).symm
  have draws : maskDraws (n := n) (streamOf ω) rngs = contextDraws forks (streamOf ω) := by
    funext k q e
    rw [maskDraws, rngs_eq, contextDraws]
    simp [KeyedRng.fromSeed]
  simp only [b2aView, b2aMany, draws]
  simp only [rngs_eq, randomElements3keys, KeyedRng.fromSeed, Nat.zero_add, Option.bind_eq_bind,
    Option.bind_some]
  cases p <;> rfl

/-- The draws that a party knows are the same in both. -/
def KnownSame (p : PartyID) (ω ω' : D → BitVec w) : Prop :=
  ∀ d : D, knows p d.val.1 = true → ω d = ω' d

theorem KnownSame.stream (same : KnownSame p ω ω') {key : Key} (known : knows p key = true)
    (pos : Nat) :
    streamOf ω key pos = streamOf ω' key pos := by
  rw [streamOf, streamOf]
  split
  · exact same _ known
  · rfl

theorem KnownSame.own (same : KnownSame p ω ω') (k : Nat) :
    contextDraws (n := n) forks (streamOf ω) k p = contextDraws forks (streamOf ω') k p :=
  funext fun _ => same.stream (by simp [knows_randKey]) _

theorem KnownSame.before (same : KnownSame p ω ω') (k : Nat) :
    contextDraws (n := n) forks (streamOf ω) k p.prev = contextDraws forks (streamOf ω') k p.prev :=
  funext fun _ => same.stream (by simp [knows_randKey]) _

/-- A party other than party 1 knows `k2 + k3`. -/
theorem KnownSame.val (other : p ≠ .ID1) (same : KnownSame p ω ω') :
    contextVal (n := n) forks (streamOf ω) = contextVal forks (streamOf ω') := by
  have component : ∀ second q (e : Fin n),
      streamOf ω (bitcompKey second forks q) e = streamOf ω' (bitcompKey second forks q) e :=
        fun second q e =>
    same.stream (by simp [knows_bitcompKey, other]) _
  funext e
  simp only [contextVal, component]

/-- Equal messages and equal knowledge give the party the same final state. -/
theorem KnownSame.final (same : KnownSame p ω ω') {x x' : Fin n → View (BitVec w)}
    (shares : ∀ e, x e p = x' e p)
    (messages : contextReceived forks (streamOf ω) x p = contextReceived forks (streamOf ω') x' p) :
    contextFinal forks (streamOf ω) x p = contextFinal forks (streamOf ω') x' p := by
  refine run_congr ?_ (fun k _ => same.own k) (fun k _ => same.before k) messages
  funext e
  have values : (if p = .ID2 then contextVal forks (streamOf ω) e else 0) =
      if p = .ID2 then contextVal forks (streamOf ω') e else 0 := by
    split
    · next two => rw [same.val (by rw [two]; decide)]
    · rfl
  rw [b2aStart, b2aStart, shares, values]

/-- Party 0's view determines the inputs. -/
theorem inputs_of_view {rngs : PartyID → Rep3CorrelatedRng}
    (context : ∀ p, contextRngs forks p = some (rngs p)) {x x' : Fin n → View (BitVec w)}
    {v v' : Fin n → BitVec w} (hx : ∀ e, XorShares (x e) (v e)) (hx' : ∀ e, XorShares (x' e) (v' e))
    (views : b2aView rngs D .ID0 x ω = b2aView rngs D .ID0 x' ω') : v = v' := by
  rw [b2aView_eq context, b2aView_eq context, Option.some_inj, PartyView.mk.injEq] at views
  obtain ⟨shares, streams, messages, opened⟩ := views
  have known : KnownSame .ID0 ω ω' := by
    intro d knows
    have draw := congrFun streams d
    simpa [knows] using draw
  have final := known.final (fun e => congrFun shares e) messages
  have opens : ∀ {x : Fin n → View (BitVec w)} {v : Fin n → BitVec w} (ω : D → BitVec w),
    (∀ e, XorShares (x e) (v e)) → ∀ e,
      binaryAdd (v e) (contextVal forks (streamOf ω) e) =
        (contextFinal forks (streamOf ω) x .ID0 e).z.a ^^^
        (contextFinal forks (streamOf ω) x .ID0 e).z.b ^^^
          (contextFinal forks (streamOf ω) x .ID2 e).z.b := by
    intro x v ω hx e
    have sum :=
      b2aRounds_shares hx (contextVal forks (streamOf ω)) (contextDraws forks (streamOf ω)) e
    have first := sum.replicated .ID0
    have second := sum.replicated .ID2
    rw [← sum.opens, parity]
    simp only [PartyID.prev] at first second
    simp only [contextFinal, first, second]
    ac_rfl
  funext e
  have same : binaryAdd (v e) (contextVal forks (streamOf ω) e) =
      binaryAdd (v' e) (contextVal forks (streamOf ω') e) := by
    rw [opens ω hx, opens ω' hx', final]
    have last := congrFun (Option.some.inj opened) e
    rw [last]
  rw [known.val (by decide)] at same
  exact binaryAdd_left_injective _ same

/-! ## Hiding -/

/-- No mask is drawn at another mask's position. -/
theorem maskPos_injective (n : Nat) {k k' e e' : Nat} (inside : e < n) (inside' : e' < n)
    (same : maskPos n k e = maskPos n k' e') : k = k' ∧ e = e' := by
  have block : ∀ {q q' r r' : Nat}, r < 2 * n → r' < 2 * n → 2 * n * q + r = 2 * n * q' + r' →
      q = q' ∧ r = r' := by
    intro q q' r r' small small' eq
    have quotient := congrArg (· / (2 * n)) eq
    have remainder := congrArg (· % (2 * n)) eq
    simp only [Nat.mul_add_div (show 2 * n > 0 by omega), Nat.mul_add_mod, Nat.div_eq_of_lt,
      Nat.mod_eq_of_lt, small, small'] at quotient remainder
    exact ⟨quotient, remainder⟩
  rcases k with - | - | k <;> rcases k' with - | - | k' <;> simp only [maskPos] at same
  all_goals try exact ⟨by omega, by omega⟩
  have split : 2 * n * (k / 2) + (2 * e + k % 2) = 2 * n * (k' / 2) + (2 * e' + k' % 2) := by omega
  have parts := block (by omega) (by omega) split
  exact ⟨by omega, by omega⟩

def contextSum (forks : Nat) (stream : Key → Nat → BitVec w) (x : Fin n → View (BitVec w))
    (e : Fin n) : BitVec w :=
  parity fun q => (contextFinal forks stream x q e).z.a

/-- The draws, with what party `p` receives for the masks it does not know, and for party 1 the
opened sum for party 2's part of `k3`. -/
noncomputable def reveal (forks : Nat) (p : PartyID) (x : Fin n → View (BitVec w))
    (ω : D → BitVec w) : D → BitVec w := fun d =>
  if d.val.1 = randKey forks p.prev.prev then
    Function.extend (fun ke : Fin (b2aRounds w n).length × Fin n => maskPos n ke.1 ke.2)
      (fun ke => (contextReceived forks (streamOf ω) x p).getD ke.1 (fun _ => 0) ke.2)
        (fun _ => ω d) d.val.2
  else if p = .ID1 ∧ d.val.1 = bitcompKey true forks .ID2 then
    Function.extend (fun e : Fin n => e.val) (contextSum forks (streamOf ω) x)
      (fun _ => ω d) d.val.2
  else ω d

theorem reveal_known (x : Fin n → View (BitVec w)) (ω : D → BitVec w) {d : D}
    (known : knows p d.val.1 = true) :
    reveal forks p x ω d = ω d := by
  have other : d.val.1 ≠ randKey forks p.prev.prev := by
    intro same
    rw [same, knows_randKey] at known
    cases p <;> simp [PartyID.prev] at known
  have component : ¬ (p = .ID1 ∧ d.val.1 = bitcompKey true forks .ID2) := by
    rintro ⟨rfl, same⟩
    rw [same, knows_bitcompKey] at known
    simp at known
  rw [reveal, if_neg other, if_neg component]

theorem reveal_mask (x : Fin n → View (BitVec w)) (ω : D → BitVec w) {k : Nat}
    (round : k < (b2aRounds w n).length) (e : Fin n)
    (member : (randKey forks p.prev.prev, maskPos n k e) ∈ D) :
    reveal forks p x ω ⟨_, member⟩ =
      (contextReceived forks (streamOf ω) x p).getD k (fun _ => 0) e := by
  have injective : Function.Injective fun ke : Fin (b2aRounds w n).length × Fin n =>
      maskPos n ke.1 ke.2 := by
    rintro ⟨k, e⟩ ⟨k', e'⟩ same
    obtain ⟨rounds, elements⟩ := maskPos_injective n e.isLt e'.isLt same
    exact Prod.ext (Fin.ext rounds) (Fin.ext elements)
  rw [reveal, if_pos rfl]
  exact injective.extend_apply _ _ (⟨k, round⟩, e)

theorem reveal_sum (x : Fin n → View (BitVec w)) (ω : D → BitVec w) (e : Fin n)
    (member : (bitcompKey true forks .ID2, e.val) ∈ D) :
    reveal forks .ID1 x ω ⟨_, member⟩ = contextSum forks (streamOf ω) x e := by
  have other : bitcompKey true forks .ID2 ≠ randKey forks PartyID.ID1.prev.prev := by
    simp [bitcompKey, randKey]
  rw [reveal, if_neg other, if_pos ⟨rfl, rfl⟩]
  exact Fin.val_injective.extend_apply _ _ e

/-- A draw that is neither known nor used stays. -/
theorem reveal_unused (x : Fin n → View (BitVec w)) (ω : D → BitVec w) {d : D}
    (unused : ¬ B2aDraw w n forks d.val) :
    reveal forks p x ω d = ω d := by
  obtain ⟨⟨key, pos⟩, member⟩ := d
  rw [reveal]
  split
  · next same =>
    subst same
    refine Function.extend_apply' _ _ _ ?_
    rintro ⟨⟨k, e⟩, rfl⟩
    exact unused (.mask _ k.isLt e)
  · split
    · next same =>
      obtain ⟨-, rfl⟩ := same
      refine Function.extend_apply' _ _ _ ?_
      rintro ⟨e, rfl⟩
      exact unused (.component true .ID2 e)
    · rfl

section Reveal

variable {p : PartyID} {x x' : Fin n → View (BitVec w)} {ω ω' : D → BitVec w}
  {v v' : Fin n → BitVec w}

theorem known_of_reveal (same : reveal forks p x ω = reveal forks p x' ω') : KnownSame p ω ω' := by
  intro d known
  exact (reveal_known x ω known).symm.trans ((congrFun same d).trans (reveal_known x' ω' known))

variable (covers : ∀ d, B2aDraw w n forks d → d ∈ D)
include covers

theorem received_of_reveal (same : reveal forks p x ω = reveal forks p x' ω') :
    contextReceived forks (streamOf ω) x p = contextReceived forks (streamOf ω') x' p := by
  have lengths : ∀ (ω : D → BitVec w) (x : Fin n → View (BitVec w)),
      (contextReceived forks (streamOf ω) x p).length = (b2aRounds w n).length :=
        fun ω x => length_received ..
  refine List.ext_getElem ((lengths ω x).trans (lengths ω' x').symm) fun k inside inside' => ?_
  funext e
  have round : k < (b2aRounds w n).length := lengths ω x ▸ inside
  have member := covers _ (.mask p.prev.prev round e)
  have entry := congrFun same ⟨_, member⟩
  rw [reveal_mask x ω round e member, reveal_mask x' ω' round e member] at entry
  rwa [List.getD_eq_getElem?_getD, List.getD_eq_getElem?_getD, List.getElem?_eq_getElem inside,
    List.getElem?_eq_getElem inside'] at entry

variable (hx : ∀ e, XorShares (x e) (v e))
include hx

/-- Party 1 gets the opened sum from what replaces its unknown draws. -/
theorem opened_one_of_reveal (hx' : ∀ e, XorShares (x' e) (v' e))
    (shares : ∀ e, x e .ID1 = x' e .ID1) (same : reveal forks .ID1 x ω = reveal forks .ID1 x' ω') :
    contextOpened forks (streamOf ω) x .ID1 = contextOpened forks (streamOf ω') x' .ID1 := by
  have final := (known_of_reveal same).final shares (received_of_reveal covers same)
  -- the missing component is the sum without the two components the party holds
  have missing : ∀ {x : Fin n → View (BitVec w)} {v : Fin n → BitVec w} (ω : D → BitVec w),
    (∀ e, XorShares (x e) (v e)) →
      ∀ e, (contextFinal forks (streamOf ω) x .ID0 e).z.b = contextSum forks (streamOf ω) x e ^^^
        ((contextFinal forks (streamOf ω) x .ID1 e).z.a ^^^
          (contextFinal forks (streamOf ω) x .ID1 e).z.b) := by
    intro x v ω hx e
    have sum :=
      b2aRounds_shares hx (contextVal forks (streamOf ω)) (contextDraws forks (streamOf ω)) e
    have first := sum.replicated .ID0
    have second := sum.replicated .ID1
    simp only [PartyID.prev] at first second
    simp only [contextSum, contextFinal, parity]
    apply BitVec.eq_of_getLsbD_eq
    intro i _
    grind
  refine congrArg some (funext fun e => ?_)
  have member := covers _ (.component true .ID2 e)
  have sums : contextSum forks (streamOf ω) x e = contextSum forks (streamOf ω') x' e := by
    rw [← reveal_sum x ω e member, ← reveal_sum x' ω' e member, same]
  rw [missing ω hx, missing ω' hx', sums, final]

/-- The view of a party other than party 0 is determined by what replaces its unknown draws. -/
theorem view_of_reveal {rngs : PartyID → Rep3CorrelatedRng}
    (context : ∀ p, contextRngs forks p = some (rngs p)) (hx' : ∀ e, XorShares (x' e) (v' e))
    (shares : ∀ e, x e p = x' e p) (other : p ≠ .ID0)
    (same : reveal forks p x ω = reveal forks p x' ω') :
    b2aView rngs D p x ω = b2aView rngs D p x' ω' := by
  have opened : contextOpened forks (streamOf ω) x p = contextOpened forks (streamOf ω') x' p := by
    cases p with
    | ID0 => exact absurd rfl other
    | ID1 => exact opened_one_of_reveal covers hx hx' shares same
    | ID2 => rfl
  have streams : (fun d : D => if knows p d.val.1 then some (ω d) else none) =
      fun d : D => if knows p d.val.1 then some (ω' d) else none := by
    funext d
    split
    · next known => rw [known_of_reveal same d known]
    · rfl
  have inputs : (fun e => x e p) = fun e => x' e p := funext shares
  rw [b2aView_eq context, b2aView_eq context, inputs, streams, received_of_reveal covers same,
    opened]

/-- The sum `k2 + k3` is determined too: party 2 knows it, party 1 gets it back from the opened
sum. -/
theorem val_of_reveal (same : reveal forks p x ω = reveal forks p x ω') :
    contextVal (n := n) forks (streamOf ω) = contextVal forks (streamOf ω') := by
  by_cases one : p = .ID1
  · subst one
    funext e
    have member := covers _ (.component true .ID2 e)
    have sums := congrFun same ⟨_, member⟩
    rw [reveal_sum x ω e member, reveal_sum x ω' e member] at sums
    have opens : ∀ ω : D → BitVec w,
        contextSum forks (streamOf ω) x e = binaryAdd (v e) (contextVal forks (streamOf ω) e) :=
      fun ω =>
        (b2aRounds_shares hx (contextVal forks (streamOf ω)) (contextDraws forks (streamOf ω))
        e).opens
    rw [opens, opens] at sums
    exact binaryAdd_right_injective _ sums
  · exact (known_of_reveal same).val one

/-- Coins that are replaced by what the party sees can be computed back from it. -/
theorem reveal_injective (p : PartyID) : Function.Injective (reveal (D := D) forks p x) := by
  intro ω ω' same
  have known := known_of_reveal same
  have val := val_of_reveal covers hx same
  have messages := received_of_reveal covers same
  rw [contextReceived, contextReceived, ← val] at messages
  have masks := draws_determined (fun k _ => known.own k) (fun k _ => known.before k) messages
  have at_ : ∀ (ω : D → BitVec w) {key pos} (member : (key, pos) ∈ D),
      ω ⟨(key, pos), member⟩ = streamOf ω key pos :=
    fun ω key pos member => by rw [streamOf, dif_pos member]
  funext d
  by_cases used : B2aDraw w n forks d.val
  · obtain ⟨d, member⟩ := d
    cases used with
    | mask q round e =>
      rw [at_ ω, at_ ω']
      exact congrFun (congrFun (masks _ round) q) e
    | component second q e =>
      rw [at_ ω, at_ ω']
      by_cases knownKey : knows p (bitcompKey second forks q) = true
      · exact known.stream knownKey _
      · -- the one part that party 1 does not know, from the sum of all six
        simp only [knows_bitcompKey, Bool.not_eq_true', decide_eq_false_iff_not,
          not_not] at knownKey
        obtain ⟨rfl, rfl, rfl⟩ := knownKey
        have others : ∀ second q, ¬ (q = .ID2 ∧ second = true) →
            streamOf ω (bitcompKey second forks q) e = streamOf ω' (bitcompKey second forks q) e :=
              fun second q other =>
          known.stream (by simpa [knows_bitcompKey, imp_iff_not_or] using other) _
        have sum := congrFun val e
        simp only [contextVal, others false _ (by simp), others true .ID0 (by simp),
          others true .ID1 (by simp)] at sum
        exact add_right_cancel (add_right_cancel (add_left_cancel sum))
  · rw [← reveal_unused x ω used, same, reveal_unused x ω' used]

end Reveal

/-- The share of one party and the secret determine the sharing. -/
theorem view_eq_of_party {x x' : View (BitVec w)} {v : BitVec w} (hx : XorShares x v)
    (hx' : XorShares x' v) (share : x p = x' p) : x = x' := by
  have own : (x p).a = (x' p).a := congrArg Rep3Share.a share
  have before : (x p.prev).a = (x' p.prev).a := by rw [← hx.replicated, ← hx'.replicated, share]
  have sums := hx.opens.trans hx'.opens.symm
  have components : ∀ q, (x q).a = (x' q).a := by
    intro q
    cases p <;> cases q <;> simp only [PartyID.prev, parity] at own before sums ⊢ <;>
      first
      | assumption
      | simpa [own, before] using sums
  funext q
  have second : (x q).b = (x' q).b := by rw [hx.replicated, hx'.replicated, components]
  exact congrArg₂ Rep3Share.mk (components q) second

/-- A conversion hides the inputs from party 1 and from party 2; from party 0 it hides nothing. -/
theorem b2a_hides_iff {rngs : PartyID → Rep3CorrelatedRng}
    (context : ∀ p, contextRngs forks p = some (rngs p)) (covers : ∀ d, B2aDraw w n forks d → d ∈ D)
    {x x' : Fin n → View (BitVec w)} {v v' : Fin n → BitVec w} (hx : ∀ e, XorShares (x e) (v e))
    (hx' : ∀ e, XorShares (x' e) (v' e)) (p : PartyID) (shares : ∀ e, x e p = x' e p) :
    SameLaw (b2aView rngs D p x) (b2aView rngs D p x') ↔ p ≠ .ID0 ∨ v = v' := by
  constructor
  · intro hides
    by_cases zero : p = .ID0
    · subst zero
      obtain ⟨ω', views⟩ := hides.exists_eq fun _ => 0
      exact .inr (inputs_of_view context hx' hx views).symm
    · exact .inl zero
  · rintro (other | rfl)
    · exact SameLaw.of_injective (reveal_injective covers hx p) (reveal_injective covers hx' p)
        fun ω ω' same => view_of_reveal covers hx context hx' shares other same
    · have inputs : x = x' := funext fun e => view_eq_of_party (hx e) (hx' e) (shares e)
      rw [inputs]
      exact fun _ => rfl

def b2aDraws (w n forks : Nat) : DrawSet :=
  let parties : List PartyID := [.ID0, .ID1, .ID2]
  let masks := parties.flatMap fun p => (List.range (b2aRounds w n).length).flatMap fun k =>
    (List.range n).map fun e => (randKey forks p, maskPos n k e)
  let components := parties.flatMap fun p => [false, true].flatMap fun second =>
    (List.range n).map fun e => (bitcompKey second forks p, e)
  (masks ++ components).toFinset

theorem b2aDraws_covers (w n forks : Nat) : ∀ d, B2aDraw w n forks d → d ∈ b2aDraws w n forks := by
  intro d used
  have party : ∀ p : PartyID, p ∈ [PartyID.ID0, .ID1, .ID2] := by
    intro p
    cases p <;> simp
  rw [b2aDraws, List.mem_toFinset, List.mem_append]
  cases used with
  | mask p round e =>
    refine .inl (List.mem_flatMap.mpr ⟨p, party p,
      List.mem_flatMap.mpr ⟨_, List.mem_range.mpr round, ?_⟩⟩)
    exact List.mem_map.mpr ⟨e, List.mem_range.mpr e.isLt, rfl⟩
  | component second p e =>
    refine .inr (List.mem_flatMap.mpr ⟨p, party p,
      List.mem_flatMap.mpr ⟨second, by cases second <;> simp, ?_⟩⟩)
    exact List.mem_map.mpr ⟨e, List.mem_range.mpr e.isLt, rfl⟩

/-- The generators in a context, which always exist. -/
def rngsOf (forks : Nat) (p : PartyID) : Rep3CorrelatedRng :=
  (contextRngs forks p).get (by rw [contextRngs_eq]; rfl)

theorem rngsOf_context (forks : Nat) (p : PartyID) :
    contextRngs forks p = some (rngsOf forks p) := by
  simp [rngsOf]

def byteAt (q : PartyID) (v : BitVec 8) : Fin 1 → View (BitVec 8) :=
  fun _ => .reshare fun p => if p = q then v else 0

theorem byteAt_shares (q : PartyID) (v : BitVec 8) (e : Fin 1) :
    XorShares (byteAt q v e) (Function.const (Fin 1) v e) := by
  refine ⟨replicated_reshare _, ?_⟩
  cases q <;> simp [parity, byteAt, View.reshare]

/-- Party 1 learns nothing of a byte that differs in the component it does not hold. -/
theorem b2a_hides_byte_from_one :
    SameLaw (b2aView (rngsOf 0) (b2aDraws 8 1 0) .ID1 (byteAt .ID2 0))
      (b2aView (rngsOf 0) (b2aDraws 8 1 0) .ID1 (byteAt .ID2 1)) :=
  (b2a_hides_iff (rngsOf_context 0) (b2aDraws_covers 8 1 0) (byteAt_shares .ID2 0)
    (byteAt_shares .ID2 1) .ID1 fun _ => rfl).mpr (.inl (by decide))

/-- Party 0 tells a byte 0 from a byte 1. -/
theorem b2a_shows_byte_to_zero :
    (∀ e, byteAt .ID1 0 e .ID0 = byteAt .ID1 1 e .ID0) ∧
      ¬ SameLaw (b2aView (rngsOf 0) (b2aDraws 8 1 0) .ID0 (byteAt .ID1 0))
        (b2aView (rngsOf 0) (b2aDraws 8 1 0) .ID0 (byteAt .ID1 1)) := by
  refine ⟨fun _ => rfl, fun hides => ?_⟩
  obtain ⟨ω', views⟩ := hides.exists_eq fun _ => 0
  have same := inputs_of_view (rngsOf_context 0) (byteAt_shares .ID1 1)
    (byteAt_shares .ID1 0) views
  exact absurd (congrFun same 0) (by decide)

/-- What a party knows and receives before the sum is opened does not depend on the inputs, for
party 0 neither. -/
theorem b2a_rounds_hide (forks : Nat) (p : PartyID) {x x' : Fin n → View (BitVec w)}
    {v v' : Fin n → BitVec w} (hx : ∀ e, XorShares (x e) (v e))
    (hx' : ∀ e, XorShares (x' e) (v' e)) :
    SameLaw (fun ω => (b2aView (rngsOf forks) (b2aDraws w n forks) p x ω).map fun view =>
      (view.streams, view.received))
      fun ω => (b2aView (rngsOf forks) (b2aDraws w n forks) p x' ω).map fun view =>
        (view.streams, view.received) := by
  have covers := b2aDraws_covers w n forks
  refine SameLaw.of_injective (reveal_injective covers hx p) (reveal_injective covers hx' p)
    fun ω ω' same => ?_
  simp only [b2aView_eq (rngsOf_context forks), Option.map_some, received_of_reveal covers same]
  refine congrArg (fun s => some (s, _)) (funext fun d => ?_)
  split
  · next known => rw [known_of_reveal same d known]
  · rfl

theorem b2a_rounds_hide_byte :
    SameLaw (fun ω => (b2aView (rngsOf 0) (b2aDraws 8 1 0) .ID0 (byteAt .ID1 0) ω).map fun view =>
      (view.streams, view.received))
      fun ω => (b2aView (rngsOf 0) (b2aDraws 8 1 0) .ID0 (byteAt .ID1 1) ω).map fun view =>
        (view.streams, view.received) :=
  b2a_rounds_hide 0 .ID0 (byteAt_shares .ID1 0) (byteAt_shares .ID1 1)

end Views

end ProviaVM.Rep3
