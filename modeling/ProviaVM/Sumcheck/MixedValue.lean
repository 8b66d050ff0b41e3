import ProviaVM.Sumcheck.Batched

/-!
Arithmetic on values of mixed kinds: `provia-worker/src/utils/types/rep3_value.rs`, with
`rep3/arithmetic.rs` and `additive/mod.rs` of `mpc-core`. The workers hold values of the same kinds
and perform the same operations, so an operation is one function of what the three of them hold.
`none` is a panic.
-/
namespace ProviaVM.Rep3
open Preprocessing

variable {F : Type} [Field F] {x : View F} {c : F}

/-! ## `rep3::arithmetic` and `additive` -/

def Arithmetic.addPublic (shared : View F) (value : F) : View F
  | .ID0 => ⟨(shared .ID0).a + value, (shared .ID0).b⟩
  | .ID1 => ⟨(shared .ID1).a, (shared .ID1).b + value⟩
  | .ID2 => shared .ID2

def Arithmetic.subSharedByPublic (shared : View F) (value : F) : View F := addPublic shared (-value)

def Arithmetic.subPublicByShared (value : F) (shared : View F) : View F :=
  addPublic (shared.map (- ·)) value

def Additive.addPublic (shared : PartyID → F) (value : F) : PartyID → F
  | .ID0 => shared .ID0 + value
  | .ID1 => shared .ID1
  | .ID2 => shared .ID2

def Additive.subSharedByPublic (shared : PartyID → F) (value : F) : PartyID → F :=
  addPublic shared (-value)

def Additive.subPublicByShared (value : F) (shared : PartyID → F) : PartyID → F :=
  addPublic (fun p => -shared p) value

def Additive.promoteToTrivialShare (value : F) : PartyID → F
  | .ID0 => value
  | .ID1 => 0
  | .ID2 => 0

/-- Adding a public value is adding its trivial sharing. -/
theorem SumShares.add_value (h : SumShares x c) (value : F) :
    SumShares (Arithmetic.addPublic x value) (c + value) := by
  have trivial :
      Arithmetic.addPublic x value = x.map₂ (· + ·) (View.promoteToTrivialShare value) := by
    funext p
    cases p <;> simp [Arithmetic.addPublic, View.map₂, Rep3Share.map₂, View.promoteToTrivialShare]
  rw [trivial]
  exact h.add (.promote value)

theorem Additive.total_addPublic (x : PartyID → F) (value : F) :
    total (addPublic x value) = total x + value := by
  simp only [total, addPublic]
  ring

end ProviaVM.Rep3

namespace ProviaVM.Sumcheck
open Preprocessing Rep3

variable {F : Type} [Field F]

/-! ## `Rep3Value` -/

namespace Rep3Value

def intoAdditive : Rep3Value F → PartyID → F
  | .pub x => Additive.promoteToTrivialShare x
  | .shared x => fun p => Rep3.intoAdditive (x p)
  | .additive x => x

def asShared : Rep3Value F → Option (View F)
  | .shared x => some x
  | _ => none

def add : Rep3Value F → Rep3Value F → Rep3Value F
  | .shared x, .shared y => .shared (x.map₂ (· + ·) y)
  | .shared x, .pub y => .shared (Arithmetic.addPublic x y)
  | .pub x, .shared y => .shared (Arithmetic.addPublic y x)
  | .pub x, .pub y => .pub (x + y)
  | .additive x, .additive y => .additive fun p => x p + y p
  | .additive x, .pub y => .additive (Additive.addPublic x y)
  | .pub x, .additive y => .additive (Additive.addPublic y x)
  | .additive x, .shared y => .additive fun p => x p + Rep3.intoAdditive (y p)
  | .shared x, .additive y => .additive fun p => Rep3.intoAdditive (x p) + y p

def addPublic (v : Rep3Value F) (other : F) : Rep3Value F :=
  match v with
  | .shared x => .shared (Arithmetic.addPublic x other)
  | .pub x => .pub (x + other)
  | .additive x => .additive (Additive.addPublic x other)

def addShared (v : Rep3Value F) (other : View F) : Option (Rep3Value F) :=
  match v with
  | .shared x => some (.shared (x.map₂ (· + ·) other))
  | .pub x => some (.shared (Arithmetic.addPublic other x))
  | .additive _ => none

def sub : Rep3Value F → Rep3Value F → Rep3Value F
  | .shared x, .shared y => .shared (x.map₂ (· - ·) y)
  | .shared x, .pub y => .shared (Arithmetic.subSharedByPublic x y)
  | .pub x, .shared y => .shared (Arithmetic.subPublicByShared x y)
  | .pub x, .pub y => .pub (x - y)
  | .additive x, .additive y => .additive fun p => x p - y p
  | .additive x, .pub y => .additive (Additive.subSharedByPublic x y)
  | .pub x, .additive y => .additive (Additive.subPublicByShared x y)
  | .additive x, .shared y => .additive fun p => x p - Rep3.intoAdditive (y p)
  | .shared x, .additive y => .additive fun p => Rep3.intoAdditive (x p) - y p

def subPublic (v : Rep3Value F) (other : F) : Rep3Value F :=
  match v with
  | .shared x => .shared (Arithmetic.subSharedByPublic x other)
  | .pub x => .pub (x - other)
  -- the operands are the other way round here
  | .additive x => .additive (Additive.subPublicByShared other x)

def mul : Rep3Value F → Rep3Value F → Option (Rep3Value F)
  | .pub x, .pub y => some (.pub (x * y))
  | .shared x, .pub y => some (.shared (x.map (· * y)))
  | .pub x, .shared y => some (.shared (y.map (· * x)))
  | .shared x, .shared y => some (.additive fun p => (x p).localMul (y p))
  | .additive x, .pub y => some (.additive fun p => x p * y)
  | .pub x, .additive y => some (.additive fun p => y p * x)
  | _, _ => none

def mulPublic (v : Rep3Value F) (other : F) : Option (Rep3Value F) := v.mul (.pub other)

def mulMulPublic (v other : Rep3Value F) (c : F) : Option (Rep3Value F) :=
  match v, other with
  | .shared x, .shared y => some (.additive fun p => (x p).localMul (y p) * c)
  | .additive x, .pub y => some (.additive fun p => x p * (y * c))
  | .pub x, .additive y => some (.additive fun p => y p * (x * c))
  | .shared x, .pub y => some (.additive fun p => Rep3.intoAdditive (x p) * (y * c))
  | .pub x, .shared y => some (.additive fun p => Rep3.intoAdditive (y p) * (x * c))
  | v, other => do v.mul (← other.mul (.pub c))

def sumFor (values : List (Rep3Value F)) : Rep3Value F := values.foldl add (.pub 0)

/-! What the workers hold after each operation. -/

variable {v w r : Rep3Value F} {a b : F}

/-- A value opens to `a` when its additive shares add up to `a` and a replicated one is
consistent. -/
theorem opens_iff (two : (2 : F) ≠ 0) :
    v.Opens a ↔ total v.intoAdditive = a ∧ ∀ x, v = .shared x → Replicated x := by
  cases v with
  | pub x => simp [Opens, intoAdditive, total, Additive.promoteToTrivialShare]
  | additive x => simp [Opens, intoAdditive]
  | shared x =>
    constructor
    · intro h
      exact ⟨intoAdditive_total two h, fun y same => by cases same; exact h.replicated⟩
    · intro h
      have shares : SumShares x (total fun p => (x p).a) := ⟨h.2 x rfl, rfl⟩
      exact shares.congr ((intoAdditive_total two shares).symm.trans h.1)

theorem Opens.add (two : (2 : F) ≠ 0) (hv : v.Opens a) (hw : w.Opens b) :
    (v.add w).Opens (a + b) := by
  cases v <;> cases w <;> simp only [Opens, Rep3Value.add] at hv hw ⊢
  case shared.shared => exact SumShares.add hv hw
  case shared.pub => exact hw ▸ SumShares.add_value hv _
  case pub.shared => exact (SumShares.add_value hw _).congr (by rw [hv, add_comm])
  case pub.pub => rw [hv, hw]
  case additive.additive => rw [total_add, hv, hw]
  case additive.pub => rw [Additive.total_addPublic, hv, hw]
  case pub.additive => rw [Additive.total_addPublic, hv, hw, add_comm]
  case additive.shared => rw [total_add, hv, intoAdditive_total two hw]
  case shared.additive => rw [total_add, hw, intoAdditive_total two hv]

theorem addPublic_eq_add (v : Rep3Value F) (c : F) : v.addPublic c = v.add (.pub c) := by
  cases v <;> rfl

theorem Opens.addShared {y : View F} (hv : v.Opens a) (hy : SumShares y b)
    (ran : v.addShared y = some r) :
    r.Opens (a + b) := by
  cases v <;> cases ran
  case shared => exact SumShares.add hv hy
  case pub => exact (SumShares.add_value hy _).congr (by rw [show _ = a from hv, add_comm])

theorem Opens.sub (two : (2 : F) ≠ 0) (hv : v.Opens a) (hw : w.Opens b) :
    (v.sub w).Opens (a - b) := by
  cases v <;> cases w <;> simp only [Opens, Rep3Value.sub] at hv hw ⊢
  case shared.shared => exact SumShares.sub hv hw
  case shared.pub => exact (SumShares.add_value hv _).congr (by rw [hw, sub_eq_add_neg])
  case pub.shared => exact (SumShares.add_value (SumShares.neg hw) _).congr (by rw [hv]; ring)
  case pub.pub => rw [hv, hw]
  case additive.additive => rw [total_sub, hv, hw]
  case additive.pub => rw [Additive.subSharedByPublic, Additive.total_addPublic, hv, hw,
    sub_eq_add_neg]
  case pub.additive w v =>
    rw [Additive.subPublicByShared, Additive.total_addPublic, hv, ← hw]
    simp only [total]
    ring
  case additive.shared => rw [total_sub, hv, intoAdditive_total two hw]
  case shared.additive => rw [total_sub, hw, intoAdditive_total two hv]

theorem Opens.mul (hv : v.Opens a) (hw : w.Opens b) (ran : v.mul w = some r) : r.Opens (a * b) := by
  cases v <;> cases w <;> cases ran <;> simp only [Opens] at hv hw ⊢
  case pub.pub => rw [hv, hw]
  case shared.pub => exact hw ▸ SumShares.mulPublic hv _
  case pub.shared => exact (SumShares.mulPublic hw _).congr (by rw [hv, mul_comm])
  case shared.shared => exact total_localMul hv hw
  case additive.pub => rw [total_mul, hv, hw]
  case pub.additive => rw [total_mul, hv, hw, mul_comm]

theorem Opens.mulMulPublic (two : (2 : F) ≠ 0) {c : F} (hv : v.Opens a) (hw : w.Opens b)
    (ran : v.mulMulPublic w c = some r) : r.Opens (a * b * c) := by
  cases v <;> cases w <;> cases ran <;> simp only [Opens] at hv hw ⊢
  case pub.pub => rw [hv, hw, mul_assoc]
  case shared.pub => rw [total_mul, intoAdditive_total two hv, hw, mul_assoc]
  case pub.shared => rw [total_mul, intoAdditive_total two hw, hv]; ring
  case shared.shared => rw [total_mul, total_localMul hv hw]
  case additive.pub => rw [total_mul, hv, hw, mul_assoc]
  case pub.additive => rw [total_mul, hv, hw]; ring

end Rep3Value

inductive Kind where
  | pub
  | shared
  | additive
  deriving DecidableEq

/-- The kind of a sum or a difference. -/
def Kind.add (k l : Kind) : Kind :=
  if k = .additive ∨ l = .additive then .additive else if k = .pub then l else .shared

def Rep3Value.kind : Rep3Value F → Kind
  | .pub _ => .pub
  | .shared _ => .shared
  | .additive _ => .additive

/-! ## Expression trees -/

inductive BinaryOp (F : Type) where
  | add
  | addShared
  | sub
  | mul
  | mulMulPublic (c : F)

inductive UnaryOp (F : Type) where
  | addPublic (c : F)
  | subPublic (c : F)
  | mulPublic (c : F)

def BinaryOp.run : BinaryOp F → Rep3Value F → Rep3Value F → Option (Rep3Value F)
  | .add, v, w => some (v.add w)
  | .addShared, v, w => do v.addShared (← w.asShared)
  | .sub, v, w => some (v.sub w)
  | .mul, v, w => v.mul w
  | .mulMulPublic c, v, w => v.mulMulPublic w c

def BinaryOp.plain : BinaryOp F → F → F → F
  | .add, a, b => a + b
  | .addShared, a, b => a + b
  | .sub, a, b => a - b
  | .mul, a, b => a * b
  | .mulMulPublic c, a, b => a * b * c

/-- The kind of a result, from the kinds of the operands alone; `none` is a panic. -/
def BinaryOp.kind : BinaryOp F → Kind → Kind → Option Kind
  | .addShared, k, .shared => if k = .additive then none else some .shared
  | .addShared, _, _ => none
  | .mul, k, l =>
    match k, l with
    | .shared, .shared => some .additive
    | k, .pub => some k
    | .pub, l => some l
    | _, _ => none
  | .mulMulPublic _, k, l =>
    if k ≠ .pub ∧ l ≠ .pub ∧ ¬(k = .shared ∧ l = .shared) then none
    else some (if k = .pub ∧ l = .pub then .pub else .additive)
  | .add, k, l | .sub, k, l => some (k.add l)

def UnaryOp.run : UnaryOp F → Rep3Value F → Option (Rep3Value F)
  | .addPublic c, v => some (v.addPublic c)
  | .subPublic c, v => some (v.subPublic c)
  | .mulPublic c, v => v.mulPublic c

def UnaryOp.plain : UnaryOp F → F → F
  | .addPublic c, a => a + c
  | .subPublic c, a => a - c
  | .mulPublic c, a => a * c

/-- A public value is not taken from an additive value other than that one. -/
def UnaryOp.Fits : UnaryOp F → Kind → F → Prop
  | .subPublic c, .additive, a => a = c
  | _, _, _ => True

/-- A tree of operations. A leaf carries its plaintext value and that the workers hold it. -/
inductive Rep3Expr (F : Type) [Field F] where
  | leaf (v : Rep3Value F) (plain : F) (opens : v.Opens plain)
  | unary (op : UnaryOp F) (e : Rep3Expr F)
  | binary (op : BinaryOp F) (e f : Rep3Expr F)
  | sumFor (n : Nat) (es : Fin n → Rep3Expr F)

namespace Rep3Expr

def run : Rep3Expr F → Option (Rep3Value F)
  | .leaf v _ _ => some v
  | .unary op e => e.run.bind op.run
  | .binary op e f => e.run.bind fun v => f.run.bind (op.run v)
  | .sumFor n es => ((List.finRange n).mapM fun i => (es i).run).map Rep3Value.sumFor

def plain : Rep3Expr F → F
  | .leaf _ c _ => c
  | .unary op e => op.plain e.plain
  | .binary op e f => op.plain e.plain f.plain
  | .sumFor _ es => ∑ i, (es i).plain

/-- Unless an operation panics, the result holds the plaintext result. -/
def Homomorphic (e : Rep3Expr F) : Prop :=
  ∀ v, e.run = some v → total v.intoAdditive = e.plain ∧ ∀ x, v = .shared x → Replicated x

/-- The kind of the result, from the kinds of the leaves. -/
def kind : Rep3Expr F → Option Kind
  | .leaf v _ _ => some v.kind
  | .unary _ e => e.kind
  | .binary op e f => e.kind.bind fun k => f.kind.bind (op.kind k)
  | .sumFor n es => ((List.finRange n).mapM fun i => (es i).kind).map (·.foldl Kind.add .pub)

/-- No `sub_public` in the tree has an operand that comes out additive. -/
def SubtractsRight : Rep3Expr F → Prop
  | .leaf _ _ _ => True
  | .unary (.subPublic _) e => e.kind ≠ some .additive ∧ e.SubtractsRight
  | .unary _ e => e.SubtractsRight
  | .binary _ e f => e.SubtractsRight ∧ f.SubtractsRight
  | .sumFor _ es => ∀ i, (es i).SubtractsRight

end Rep3Expr

theorem BinaryOp.opens (two : (2 : F) ≠ 0) (op : BinaryOp F) {v w r : Rep3Value F} {a b : F}
    (hv : v.Opens a) (hw : w.Opens b) (ran : op.run v w = some r) : r.Opens (op.plain a b) := by
  cases op with
  | add =>
    cases ran
    exact hv.add two hw
  | addShared =>
    cases w <;> first | exact hv.addShared hw ran | cases ran
  | sub =>
    cases ran
    exact hv.sub two hw
  | mul => exact hv.mul hw ran
  | mulMulPublic c => exact hv.mulMulPublic two hw ran

theorem BinaryOp.kind_eq (op : BinaryOp F) {v w r : Rep3Value F} (ran : op.run v w = some r) :
    op.kind v.kind w.kind = some r.kind := by
  cases op <;> cases v <;> cases w <;> cases ran <;> rfl

theorem UnaryOp.kind_eq (op : UnaryOp F) {v r : Rep3Value F} (ran : op.run v = some r) :
    v.kind = r.kind := by
  cases op <;> cases v <;> cases ran <;> rfl

/-- On an additive operand `sub_public` gives `c - a` where `a - c` is meant. -/
theorem UnaryOp.opens_iff (two : (2 : F) ≠ 0) (op : UnaryOp F) {v r : Rep3Value F} {a : F}
    (hv : v.Opens a) (ran : op.run v = some r) : r.Opens (op.plain a) ↔ op.Fits v.kind a := by
  have constant (c : F) : (Rep3Value.pub c).Opens c := rfl
  cases op with
  | addPublic c =>
    cases ran
    refine iff_of_true ?_ trivial
    rw [Rep3Value.addPublic_eq_add]
    exact hv.add two (constant c)
  | mulPublic c => exact iff_of_true (hv.mul (constant c) ran) trivial
  | subPublic c =>
    cases ran
    cases v with
    | pub x => exact iff_of_true (hv.sub two (constant c)) trivial
    | shared x => exact iff_of_true (hv.sub two (constant c)) trivial
    | additive x =>
      have swapped := (constant c).sub two hv
      constructor
      · intro meant
        have same : c - a = a - c := swapped.unique meant
        have : 2 * (a - c) = 0 := by linear_combination -same
        exact sub_eq_zero.1 ((mul_eq_zero.1 this).resolve_left two)
      · intro same
        cases same
        exact swapped

namespace Rep3Expr

variable {e : Rep3Expr F}

/-- `Homomorphic` in terms of what the workers hold: the invariant of the induction over the
tree. -/
def Holds (e : Rep3Expr F) : Prop := ∀ v, e.run = some v → v.Opens e.plain

theorem homomorphic_iff_holds (two : (2 : F) ≠ 0) : e.Homomorphic ↔ e.Holds := by
  simp only [Homomorphic, Holds, Rep3Value.opens_iff two]

section SumFor

variable {n : Nat} {es : Fin n → Rep3Expr F} {is : List (Fin n)}

theorem run_cons {i : Fin n} {vs : List (Rep3Value F)}
    (ran : ((i :: is).mapM fun i => (es i).run) = some vs) :
    ∃ v rest, (es i).run = some v ∧ (is.mapM fun i => (es i).run) = some rest ∧ vs = v :: rest := by
  simp only [List.mapM_cons, Option.bind_eq_bind, Option.bind_eq_some_iff, Option.pure_def,
    Option.some.injEq] at ran
  obtain ⟨v, hv, rest, items, rfl⟩ := ran
  exact ⟨v, rest, hv, items, rfl⟩

/-- The accumulator of `sum_for`, over any part of the items. -/
theorem foldl_opens (two : (2 : F) ≠ 0) (each : ∀ i, (es i).Holds) :
    ∀ (acc : Rep3Value F) {a vs}, acc.Opens a → (is.mapM fun i => (es i).run) = some vs →
      (vs.foldl Rep3Value.add acc).Opens (a + (is.map fun i => (es i).plain).sum) := by
  induction is with
  | nil =>
    intro acc a vs opens ran
    cases ran
    simpa using opens
  | cons i is ih =>
    intro acc a vs opens ran
    obtain ⟨v, rest, hv, items, rfl⟩ := run_cons ran
    rw [List.map_cons, List.sum_cons, ← add_assoc]
    exact ih (acc.add v) (opens.add two (each i v hv)) items

theorem foldl_kind (kinds : ∀ i v, (es i).run = some v → (es i).kind = some v.kind) :
    ∀ (acc : Rep3Value F) {vs}, (is.mapM fun i => (es i).run) = some vs →
      (is.mapM fun i => (es i).kind).map (·.foldl Kind.add acc.kind) =
        some (vs.foldl Rep3Value.add acc).kind := by
  induction is with
  | nil =>
    intro acc vs ran
    cases ran
    rfl
  | cons i is ih =>
    intro acc vs ran
    obtain ⟨v, rest, hv, items, rfl⟩ := run_cons ran
    have later := ih (acc.add v) items
    have step : (acc.add v).kind = acc.kind.add v.kind := by cases acc <;> cases v <;> rfl
    rw [step] at later
    obtain ⟨ks, found, same⟩ := Option.map_eq_some_iff.1 later
    simp [List.mapM_cons, kinds i v hv, found, same]

end SumFor

theorem kind_eq : ∀ {v}, e.run = some v → e.kind = some v.kind := by
  induction e with
  | leaf v c opens =>
    intro r ran
    cases ran
    rfl
  | sumFor n es ih =>
    intro r ran
    obtain ⟨vs, items, rfl⟩ := Option.map_eq_some_iff.1 ran
    exact foldl_kind (fun i v => ih i) (.pub 0) items
  | binary op e f ihe ihf =>
    intro r ran
    obtain ⟨v, hv, rest⟩ := Option.bind_eq_some_iff.1 ran
    obtain ⟨w, hw, ran⟩ := Option.bind_eq_some_iff.1 rest
    rw [kind, ihe hv, ihf hw]
    exact op.kind_eq ran
  | unary op e ih =>
    intro r ran
    obtain ⟨v, hv, ran⟩ := Option.bind_eq_some_iff.1 ran
    rw [kind, ih hv, op.kind_eq ran]

/-- Every operation but `sub_public` of an additive operand is right on all kinds. -/
theorem SubtractsRight.holds (two : (2 : F) ≠ 0) : e.SubtractsRight → e.Holds := by
  induction e with
  | leaf v c opens =>
    intro _ w ran
    cases ran
    exact opens
  | sumFor n es ih =>
    intro right v ran
    obtain ⟨vs, items, rfl⟩ := Option.map_eq_some_iff.1 ran
    rw [plain, Fin.sum_univ_def, ← zero_add (List.sum _)]
    exact foldl_opens two (fun i => ih i (right i)) (.pub 0) rfl items
  | binary op e f ihe ihf =>
    intro right r ran
    obtain ⟨v, hv, rest⟩ := Option.bind_eq_some_iff.1 ran
    obtain ⟨w, hw, ran⟩ := Option.bind_eq_some_iff.1 rest
    exact op.opens two (ihe right.1 v hv) (ihf right.2 w hw) ran
  | unary op e ih =>
    intro right r ran
    obtain ⟨v, hv, ran⟩ := Option.bind_eq_some_iff.1 ran
    cases op with
    | addPublic c => exact ((UnaryOp.addPublic c).opens_iff two (ih right v hv) ran).2 trivial
    | mulPublic c => exact ((UnaryOp.mulPublic c).opens_iff two (ih right v hv) ran).2 trivial
    | subPublic c =>
      refine ((UnaryOp.subPublic c).opens_iff two (ih right.2 v hv) ran).2 ?_
      have notAdditive : v.kind ≠ .additive := fun same => right.1 (by rw [kind_eq hv, same])
      revert notAdditive
      cases v.kind <;> simp [UnaryOp.Fits]

/-- A tree in which no operand of `sub_public` comes out additive is evaluated as on the plaintext
values. One `sub_public` on top of such a tree keeps this unless its operand comes out additive with
a value other than the public one. -/
theorem rep3_expr_homomorphic (two : (2 : F) ≠ 0) (e : Rep3Expr F) (right : e.SubtractsRight) :
    e.Homomorphic ∧ ∀ c v, e.run = some v →
      ((unary (.subPublic c) e).Homomorphic ↔ (e.kind = some .additive → e.plain = c)) := by
  have holds := right.holds two
  refine ⟨(homomorphic_iff_holds two).2 holds, fun c v hv => ?_⟩
  have result := (UnaryOp.subPublic c).opens_iff two (holds v hv) rfl
  rw [homomorphic_iff_holds two, kind_eq hv]
  constructor
  · intro meant additive
    have fits := result.1 (meant _ (by rw [run, hv]; rfl))
    rw [Option.some.inj additive] at fits
    exact fits
  · intro fits r ran
    rw [run, hv] at ran
    cases ran
    refine result.2 ?_
    cases same : v.kind with
    | additive => exact fits (by rw [same])
    | pub => trivial
    | shared => trivial

def sampleProduct : Rep3Expr ℚ :=
  .binary .mul (.leaf (.shared (View.promoteToTrivialShare 1)) 1 (.promote 1))
    (.leaf (.shared (View.promoteToTrivialShare 2)) 2 (.promote 2))

/-- `(1 * 2 - 1) + (1).sub_public(1)`: `sub` on the additive operand, `sub_public` on the shared. -/
def sampleTree : Rep3Expr ℚ :=
  .binary .add (.binary .sub sampleProduct (.leaf (.pub 1) 1 rfl))
    (.unary (.subPublic 1) (.leaf (.shared (View.promoteToTrivialShare 1)) 1 (.promote 1)))

theorem rep3_expr_homomorphic_sample : (2 : ℚ) ≠ 0 ∧ sampleTree.Homomorphic :=
  ⟨two_ne_zero, (rep3_expr_homomorphic two_ne_zero sampleTree
    ⟨⟨⟨trivial, trivial⟩, trivial⟩, nofun, trivial⟩).1⟩

/-- `1 * 2 - 1` comes out as `-1`. -/
theorem sub_public_additive_reversed : ¬ (unary (.subPublic 1) sampleProduct).Homomorphic := by
  intro h
  have opened := (h _ rfl).1
  norm_num [total, Rep3Value.intoAdditive, Rep3Value.subPublic, Additive.subPublicByShared,
    Additive.addPublic, Rep3Share.localMul, View.promoteToTrivialShare, plain, UnaryOp.plain,
    BinaryOp.plain, sampleProduct] at opened

end Rep3Expr
end ProviaVM.Sumcheck
