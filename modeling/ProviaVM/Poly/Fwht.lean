import ProviaVM.Lib.WalshHadamard
import ProviaVM.Rep3.Linear

/-! # The fast Walsh-Hadamard transform and unmasking

`provia-worker/src/utils/fwht.rs`. The passes of a transform work on consecutive blocks of
the vector; a pass of radix 4 or 8 does two or three butterfly stages at once.

A secret vector is held by the three parties as vectors of shares (`VecShares`), and a
local product of two shares is an additive share (`VecSum`). -/
namespace ProviaVM.Poly
open Preprocessing Rep3 WalshHadamard List

section Passes

variable {T : Type} [Add T] [Sub T]
variable {len k j : Nat} {block l : List T}

def butterfly4 (a b c d : T) : T × T × T × T :=
  let t0 := a + b
  let t1 := a - b
  let t2 := c + d
  let t3 := c - d
  (t0 + t2, t1 + t3, t0 - t2, t1 - t3)

def butterfly8 (a b c d e f g h : T) : (T × T × T × T) × (T × T × T × T) :=
  let t0 := a + b
  let t1 := a - b
  let t2 := c + d
  let t3 := c - d
  let t4 := e + f
  let t5 := e - f
  let t6 := g + h
  let t7 := g - h
  let u0 := t0 + t2
  let u1 := t1 + t3
  let u2 := t0 - t2
  let u3 := t1 - t3
  let u4 := t4 + t6
  let u5 := t5 + t7
  let u6 := t4 - t6
  let u7 := t5 - t7
  ((u0 + u4, u1 + u5, u2 + u6, u3 + u7), (u0 - u4, u1 - u5, u2 - u6, u3 - u7))

def fourParts (out : List (T × T × T × T)) : List T :=
  out.map (·.1) ++ out.map (·.2.1) ++ (out.map (·.2.2.1) ++ out.map (·.2.2.2))

def quads (len : Nat) (block : List T) : List ((T × T) × (T × T)) :=
  let ab := block.take (len * 2)
  let cd := block.drop (len * 2)
  ((ab.take len).zip (ab.drop len)).zip ((cd.take len).zip (cd.drop len))

def block2 (len : Nat) (block : List T) : List T :=
  let pairs := (block.take len).zip (block.drop len)
  pairs.map (fun (u, v) => u + v) ++ pairs.map (fun (u, v) => u - v)

def block4 (len : Nat) (block : List T) : List T :=
  fourParts ((quads len block).map fun ((a, b), (c, d)) => butterfly4 a b c d)

def block8 (len : Nat) (block : List T) : List T :=
  let out := ((quads len (block.take (len * 4))).zip (quads len (block.drop (len * 4)))).map
    fun (((a, b), (c, d)), ((e, f), (g, h))) => butterfly8 a b c d e f g h
  fourParts (out.map (·.1)) ++ fourParts (out.map (·.2))

def chunksExactMut (size : Nat) (f : List T → List T) (a : List T) : List T :=
  mapBlocks size f (a.length / size) a

/-- `while len * radix <= n`, with fuel for the iterations; the length reached and the vector. -/
def radixLoop (radix : Nat) (stage : Nat → List T → List T) (n : Nat) :
    Nat → Nat → List T → Nat × List T
  | 0, len, a => (len, a)
  | fuel + 1, len, a =>
    if len * radix ≤ n then radixLoop radix stage n fuel (len * radix)
      (chunksExactMut (len * radix) (stage len) a)
    else (len, a)

def radix2Tail (n len : Nat) (a : List T) : List T :=
  if len < n then chunksExactMut (len * 2) (block2 len) a else a

def fwhtRadix4 (a : List T) : List T :=
  let (len, b) := radixLoop 4 block4 a.length a.length 1 a
  radix2Tail a.length len b

def fwhtRadix8 (a : List T) : List T :=
  let n := a.length
  let (len, b) := radixLoop 8 block8 n n 1 a
  if len * 4 ≤ n then radix2Tail n (len * 4) (chunksExactMut (len * 4) (block4 len) b)
  else radix2Tail n len b

inductive TargetArch where
  | x86_64
  | other

def fwhtInPlace (arch : TargetArch) (a : List T) : List T :=
  if a.length ≤ 1 then a
  else match arch with
    | .x86_64 => fwhtRadix8 a
    | .other => fwhtRadix4 a

theorem map_zip {α β γ : Type} (f : α → β → γ) (l : List α) (l' : List β) :
    (l.zip l').map (fun p => f p.1 p.2) = List.zipWith f l l' := by
  rw [List.zip, map_zipWith]

theorem zipWith_zip {α β γ : Type} (f : α → α → β) (g : α → α → β) (h : β → β → γ)
    (a b c d : List α) :
    ((a.zip b).zip (c.zip d)).map (fun q => h (f q.1.1 q.1.2) (g q.2.1 q.2.2)) =
      List.zipWith h (List.zipWith f a b) (List.zipWith g c d) := by
  simp [map_zip (fun (p q : α × α) => h (f p.1 p.2) (g q.1 q.2)), ← map_zip f, ← map_zip g]

theorem block2_eq (len : Nat) (block : List T) : block2 len block = combine len block := by
  rw [block2, combine, map_zip, map_zip]

theorem block4_eq (length : block.length = 2 * (2 * len)) :
    block4 len block = combine (2 * len) (mapBlocks (2 * len) (combine len) 2 block) := by
  have first : (combine len (block.take (2 * len))).length = 2 * len :=
    length_combine (by simp; omega)
  have stages : mapBlocks (2 * len) (combine len) 2 block =
      combine len (block.take (2 * len)) ++ combine len (block.drop (2 * len)) := by
    rw [mapBlocks, mapBlocks_one _ (by simp; omega)]
  rw [stages, combine, List.take_left' first, List.drop_left' first, block4, fourParts,
    quads, Nat.mul_comm len 2]
  simp only [List.map_map, Function.comp_def, butterfly4]
  rw [zipWith_zip (· + ·) (· + ·) (· + ·), zipWith_zip (· - ·) (· - ·) (· + ·),
    zipWith_zip (· + ·) (· + ·) (· - ·), zipWith_zip (· - ·) (· - ·) (· - ·), combine,
    combine, List.zipWith_append (by simp; omega),
    List.zipWith_append (by simp; omega)]

omit [Add T] [Sub T] in
theorem fourParts_zipWith (f : T → T → T) (l l' : List (T × T × T × T))
    (length : l.length = l'.length) :
    fourParts (List.zipWith (fun p q => (f p.1 q.1, f p.2.1 q.2.1, f p.2.2.1 q.2.2.1,
      f p.2.2.2 q.2.2.2)) l l') =
      List.zipWith f (fourParts l) (fourParts l') := by
  simp only [fourParts]
  rw [List.zipWith_append (by simp [length]), List.zipWith_append (by simp [length]),
    List.zipWith_append (by simp [length])]
  simp

omit [Add T] [Sub T] in
theorem length_quads (length : block.length = 4 * len) : (quads len block).length = len := by
  simp [quads]
  omega

theorem length_block4 (length : block.length = 4 * len) :
    (block4 len block).length = 4 * len := by
  simp [block4, fourParts, length_quads length]
  omega

/-- Radix 8 is a stage after radix 4 on both halves. -/
theorem block8_eq (length : block.length = 2 * (4 * len)) :
    block8 len block = combine (4 * len) (mapBlocks (4 * len) (block4 len) 2 block) := by
  have low : (block.take (4 * len)).length = 4 * len := by simp; omega
  have high : (block.drop (4 * len)).length = 4 * len := by simp; omega
  have stages : mapBlocks (4 * len) (block4 len) 2 block =
      block4 len (block.take (4 * len)) ++ block4 len (block.drop (4 * len)) := by
    rw [mapBlocks, mapBlocks_one _ high]
  rw [stages, combine, List.take_left' (length_block4 low), List.drop_left' (length_block4 low),
    block8, block4, block4, Nat.mul_comm len 4]
  simp only [List.map_map]
  have same :
      (quads len (block.take (4 * len))).length = (quads len (block.drop (4 * len))).length := by
    rw [length_quads low, length_quads high]
  rw [← fourParts_zipWith _ _ _ (by simpa using same),
    ← fourParts_zipWith _ _ _ (by simpa using same), List.zipWith_map, List.zipWith_map,
    ← map_zip, ← map_zip]
  rfl

/-- The vector once all blocks of length `2 ^ j` are transformed. -/
def staged (k j : Nat) (l : List T) : List T := mapBlocks (2 ^ j) (inPlace j) (2 ^ (k - j)) l

omit [Add T] [Sub T] in
theorem staged_length (length : l.length = 2 ^ k) (le : j ≤ k) :
    l.length = 2 ^ (k - j) * 2 ^ j := by
  rw [length, ← pow_add, Nat.sub_add_cancel le]

omit [Add T] [Sub T] in
/-- `chunks_exact_mut` on a vector whose length is a multiple of the chunk. -/
theorem chunksExactMut_eq {f : List T → List T} {a : List T} (length : a.length = 2 ^ k)
    (le : j ≤ k) :
    chunksExactMut (2 ^ j) f a = mapBlocks (2 ^ j) f (2 ^ (k - j)) a := by
  rw [chunksExactMut, length, Nat.pow_div le (by omega)]

theorem staged_zero (l : List T) : staged k 0 l = l := by
  have id : ∀ count (l : List T), mapBlocks 1 (inPlace 0) count l = l := by
    intro count
    induction count with
    | zero => exact fun _ => rfl
    | succ count ih =>
      intro l
      rw [mapBlocks, ih, inPlace, take_append_drop]
  exact id _ l

section Length

variable (length : l.length = 2 ^ k)
include length

theorem length_staged (le : j ≤ k) : (staged k j l).length = 2 ^ k := by
  rw [staged, length_mapBlocks (fun _ => length_inPlace) _ (staged_length length le),
    ← pow_add, Nat.sub_add_cancel le]

theorem stage2 (le : j + 1 ≤ k) :
    mapBlocks (2 ^ (j + 1)) (combine (2 ^ j)) (2 ^ (k - (j + 1))) (staged k j l) =
      staged k (j + 1) l := by
  have double : 2 * 2 ^ j = 2 ^ (j + 1) := by rw [pow_succ, Nat.mul_comm]
  have twice : 2 ^ (k - j) = 2 ^ (k - (j + 1)) * 2 := by rw [← pow_succ]; congr 1; omega
  have step := mapBlocks_comp
    (fun _ => length_inPlace) (fun _ => inPlace_succ) (2 ^ (k - (j + 1)))
      (by rw [staged_length length le, double])
  rw [double, ← twice] at step
  exact step.symm

/-- A stage after a pass `h` that reached blocks of length `2 ^ n` is a pass that reaches twice the
length. -/
theorem stage_after {n : Nat} (le : j ≤ k) (fits : n + 1 ≤ k) {f h : List T → List T}
    (same : ∀ b, b.length = 2 ^ n → (h b).length = 2 ^ n)
    (split : ∀ b, b.length = 2 * 2 ^ n → f b = combine (2 ^ n) (mapBlocks (2 ^ n) h 2 b))
    (before : mapBlocks (2 ^ n) h (2 ^ (k - n)) (staged k j l) = staged k n l) :
    mapBlocks (2 ^ (n + 1)) f (2 ^ (k - (n + 1))) (staged k j l) = staged k (n + 1) l := by
  have double : 2 * 2 ^ n = 2 ^ (n + 1) := by rw [pow_succ, Nat.mul_comm]
  have twice : 2 ^ (k - n) = 2 ^ (k - (n + 1)) * 2 := by rw [← pow_succ]; congr 1; omega
  have step := mapBlocks_comp same split (2 ^ (k - (n + 1)))
    (by rw [staged_length (length_staged length le) fits, double])
  rw [double, ← twice, before, stage2 length fits] at step
  exact step

theorem stage4 (le : j + 2 ≤ k) :
    mapBlocks (2 ^ (j + 2)) (block4 (2 ^ j)) (2 ^ (k - (j + 2))) (staged k j l) =
      staged k (j + 2) l := by
  have double : 2 ^ (j + 1) = 2 * 2 ^ j := by rw [pow_succ, Nat.mul_comm]
  refine stage_after length (by omega) le ?_ ?_ (stage2 length (by omega))
  · intro b blockLength
    rw [double] at blockLength ⊢
    exact length_combine blockLength
  · intro b blockLength
    rw [double] at blockLength ⊢
    exact block4_eq blockLength

theorem stage8 (le : j + 3 ≤ k) :
    mapBlocks (2 ^ (j + 3)) (block8 (2 ^ j)) (2 ^ (k - (j + 3))) (staged k j l) =
      staged k (j + 3) l := by
  have four : 2 ^ (j + 2) = 4 * 2 ^ j := by rw [pow_add, Nat.mul_comm]; rfl
  refine stage_after length (by omega) le ?_ ?_ (stage4 length (by omega))
  · intro b blockLength
    rw [four] at blockLength ⊢
    exact length_block4 blockLength
  · intro b blockLength
    rw [four] at blockLength ⊢
    exact block8_eq blockLength

section Loop

variable {s : Nat} (positive : 0 < s) {stage : Nat → List T → List T} (one : ∀ {j}, j + s ≤ k →
  mapBlocks (2 ^ (j + s)) (stage (2 ^ j)) (2 ^ (k - (j + s))) (staged k j l) = staged k (j + s) l)
include positive one

/-- With fuel for the remaining stages the loop stops where the next pass would not fit. -/
theorem radixLoop_spec :
    ∀ {fuel j : Nat}, j ≤ k → k ≤ j + fuel → ∃ j' ≤ k, k < j' + s ∧
      radixLoop (2 ^ s) stage (2 ^ k) fuel (2 ^ j) (staged k j l) = (2 ^ j', staged k j' l)
  | 0, j, le, enough => ⟨j, le, by omega, rfl⟩
  | fuel + 1, j, le, enough => by
    rw [radixLoop, ← pow_add]
    by_cases fits : j + s ≤ k
    · obtain ⟨j', le', stop, run⟩ := radixLoop_spec fits (show k ≤ j + s + fuel by omega)
      refine ⟨j', le', stop, ?_⟩
      rw [if_pos (Nat.pow_le_pow_right (by omega) fits),
        chunksExactMut_eq (length_staged length le) fits, one fits, run]
    · refine ⟨j, le, by omega, ?_⟩
      rw [if_neg fun small => fits ((Nat.pow_le_pow_iff_right (by omega)).mp small)]

theorem radixLoop_start :
    ∃ j ≤ k, k < j + s ∧ radixLoop (2 ^ s) stage (2 ^ k) (2 ^ k) 1 l = (2 ^ j, staged k j l) := by
  have run :=
    radixLoop_spec length positive one (Nat.zero_le k) (show k ≤
    0 + 2 ^ k by simpa using k.lt_two_pow_self.le)
  rwa [staged_zero] at run

end Loop

theorem staged_all : staged k k l = inPlace k l := by
  simp [staged, mapBlocks_one _ length]

theorem radix2Tail_eq (le : j ≤ k) (last : k ≤ j + 1) :
    radix2Tail (2 ^ k) (2 ^ j) (staged k j l) = inPlace k l := by
  rw [radix2Tail]
  rcases Nat.eq_or_lt_of_le le with rfl | small
  · simp [staged_all length]
  · obtain rfl : k = j + 1 := by omega
    rw [if_pos (Nat.pow_lt_pow_right (by omega) small), ← pow_succ,
      chunksExactMut_eq (length_staged length le) le_rfl, funext (block2_eq _),
      stage2 length le_rfl, staged_all length]

theorem fwhtRadix4_eq : fwhtRadix4 l = inPlace k l := by
  obtain ⟨j, le, stop, run⟩ := radixLoop_start length (by omega) (stage4 length)
  rw [fwhtRadix4, length, show 4 = 2 ^ 2 from rfl, run]
  exact radix2Tail_eq length le (by omega)

theorem fwhtRadix8_eq : fwhtRadix8 l = inPlace k l := by
  obtain ⟨j, le, stop, run⟩ := radixLoop_start length (by omega) (stage8 length)
  have four : 2 ^ j * 4 = 2 ^ (j + 2) := by rw [pow_add]; rfl
  simp only [fwhtRadix8, length]
  rw [show 8 = 2 ^ 3 from rfl, run]
  by_cases fits : j + 2 ≤ k
  · simp only [four]
    rw [if_pos (Nat.pow_le_pow_right (by omega) fits),
      chunksExactMut_eq (length_staged length le) fits, stage4 length fits]
    exact radix2Tail_eq length fits (by omega)
  · simp only [four]
    rw [if_neg fun small => fits ((Nat.pow_le_pow_iff_right (by omega)).mp small)]
    exact radix2Tail_eq length le (by omega)

end Length

theorem fwhtInPlace_eq (arch : TargetArch) (length : l.length = 2 ^ k) :
    fwhtInPlace arch l = inPlace k l := by
  unfold fwhtInPlace
  by_cases single : l.length ≤ 1
  · rw [if_pos single]
    obtain rfl : k = 0 := by
      by_contra positive
      have := Nat.one_lt_two_pow positive
      omega
    rfl
  · rw [if_neg single]
    cases arch
    · exact fwhtRadix8_eq length
    · exact fwhtRadix4_eq length

end Passes

theorem getD_zipWith {α β γ : Type} (f : α → β → γ) {l : List α} {l' : List β} {i : Nat}
    (left : i < l.length) (right : i < l'.length) (a : α) (b : β) (c : γ) :
    (List.zipWith f l l').getD i c = f (l.getD i a) (l'.getD i b) := by
  rw [List.getD_eq_getElem _ _ (by simp; omega), List.getD_eq_getElem _ _ left,
    List.getD_eq_getElem _ _ right, getElem_zipWith]

variable {k : Nat}

theorem getD_fwht {G : Type} [AddCommGroup G] (arch : TargetArch) {l : List G}
    (length : l.length = 2 ^ k) {i : Nat} (inside : i < 2 ^ k) :
    (fwhtInPlace arch l).getD i 0 = transform k (l.getD · 0) i := by
  rw [fwhtInPlace_eq arch length, getD_inPlace length inside]

theorem length_fwht {T : Type} [Add T] [Sub T] (arch : TargetArch) {l : List T}
    (length : l.length = 2 ^ k) :
    (fwhtInPlace arch l).length = 2 ^ k := by
  rw [fwhtInPlace_eq arch length, length_inPlace length]

/-- The transform undoes itself up to the length, whatever code the two machines run. -/
theorem fwht_fwht {G : Type} [AddCommGroup G] (arch arch' : TargetArch) (a : Fin (2 ^ k) → G) :
    fwhtInPlace arch' (fwhtInPlace arch (List.ofFn a)) = List.ofFn fun i => (2 ^ k : ℤ) • a i := by
  have length : (List.ofFn a).length = 2 ^ k := List.length_ofFn
  have once := length_fwht arch length
  refine List.ext_getElem (by rw [length_fwht arch' once, List.length_ofFn]) fun i inside _ => ?_
  have inside' : i < 2 ^ k := by rwa [length_fwht arch' once] at inside
  rw [← List.getD_eq_getElem _ 0 inside, getD_fwht arch' once inside',
    transform_congr fun j small => getD_fwht arch length small, transform_transform inside',
    List.getD_eq_getElem _ _ (by rwa [length]), List.getElem_ofFn, List.getElem_ofFn]

theorem fwht_map {T U : Type} [Add T] [Sub T] [Add U] [Sub U] (arch : TargetArch) {l : List T}
    (length : l.length = 2 ^ k) (f : T → U) (add : ∀ a b, f (a + b) = f a + f b)
    (sub : ∀ a b, f (a - b) = f a - f b) :
    fwhtInPlace arch (l.map f) = (fwhtInPlace arch l).map f := by
  rw [fwhtInPlace_eq arch length, fwhtInPlace_eq arch (by rwa [length_map]), inPlace_map f add sub]

section Vectors

variable {G : Type} [AddCommGroup G]

structure VecSum (x : PartyID → List G) (v : List G) : Prop where
  length : ∀ p, (x p).length = v.length
  opens : ∀ i < v.length, total (fun p => (x p).getD i 0) = v.getD i 0

structure VecShares (x : PartyID → List (Rep3Share G)) (v : List G) : Prop where
  own : VecSum (fun p => (x p).map (·.a)) v
  replicated : ∀ p, (x p).map (·.b) = (x p.prev).map (·.a)

variable {x : PartyID → List (Rep3Share G)} {v : List G}

theorem VecShares.length (h : VecShares x v) (p : PartyID) : (x p).length = v.length := by
  simpa using h.own.length p

/-- The entries of a shared vector are shared. -/
theorem VecShares.entry (h : VecShares x v) {i : Nat} (inside : i < v.length) :
    SumShares (fun p => (x p).getD i ⟨0, 0⟩) (v.getD i 0) := by
  have component : ∀ (p : PartyID) (f : Rep3Share G → G),
      ((x p).map f).getD i 0 = f ((x p).getD i ⟨0, 0⟩) := by
    intro p f
    have bound : i < (x p).length := by rw [h.length]; exact inside
    rw [List.getD_eq_getElem _ _ (by simpa using bound), List.getD_eq_getElem _ _ bound,
      getElem_map]
  refine ⟨fun p => ?_, ?_⟩
  · rw [← component p (·.b), ← component p.prev (·.a), h.replicated p]
  · have sum := h.own.opens i inside
    simpa only [component] using sum

theorem VecSum.fwht (arch : TargetArch) {k : Nat} {x : PartyID → List G} (h : VecSum x v)
    (length : v.length = 2 ^ k) :
    VecSum (fun p => fwhtInPlace arch (x p)) (fwhtInPlace arch v) := by
  have own : ∀ p, (x p).length = 2 ^ k := fun p => (h.length p).trans length
  refine ⟨fun p => by rw [length_fwht arch (own p), length_fwht arch length], fun i inside => ?_⟩
  rw [length_fwht arch length] at inside
  simp only [getD_fwht arch (own _) inside, getD_fwht arch length inside, total, ← transform_add]
  refine transform_congr (fun j small => ?_) i
  exact h.opens j (by omega)

theorem VecShares.fwht (arch : TargetArch) {k : Nat} (h : VecShares x v)
    (length : v.length = 2 ^ k) :
    VecShares (fun p => fwhtInPlace arch (x p)) (fwhtInPlace arch v) := by
  have own : ∀ p, (x p).length = 2 ^ k := fun p => (h.length p).trans length
  have first : ∀ p, (fwhtInPlace arch (x p)).map (·.a) = fwhtInPlace arch ((x p).map (·.a)) :=
    fun p =>
    (fwht_map arch (own p) _ (fun _ _ => rfl) fun _ _ => rfl).symm
  have second : ∀ p, (fwhtInPlace arch (x p)).map (·.b) = fwhtInPlace arch ((x p).map (·.b)) :=
    fun p =>
    (fwht_map arch (own p) _ (fun _ _ => rfl) fun _ _ => rfl).symm
  refine ⟨?_, fun p => ?_⟩
  · simp only [first]
    exact h.own.fwht arch length
  · rw [first, second, h.replicated p]

/-- An additive operation that depends on a public entry acts on the components. -/
theorem VecShares.zipPublic {β : Type} {f : G → β → G} (add : ∀ a b c, f (a + b) c = f a c + f b c)
    (h : VecShares x v) {cs : List β} (length : cs.length = v.length) :
    VecShares (fun p => List.zipWith (fun e c => e.map (f · c)) (x p) cs)
      (List.zipWith f v cs) := by
  have component : ∀ (g : Rep3Share G → G), (∀ e c, g (e.map (f · c)) = f (g e) c) → ∀ p,
      (List.zipWith (fun e c => e.map (f · c)) (x p) cs).map g =
        List.zipWith f ((x p).map g) cs := by
    intro g commutes p
    rw [map_zipWith, zipWith_map_left]
    simp only [commutes]
  refine ⟨⟨fun p => ?_, fun i inside => ?_⟩, fun p => ?_⟩
  · simp [h.length p]
  · simp only [length_zipWith, length, Nat.min_self] at inside
    obtain ⟨c, at_⟩ : ∃ c, cs[i]? = some c := ⟨_, getElem?_eq_getElem (by omega)⟩
    have entry : ∀ {l : List G}, i < l.length →
        (List.zipWith f l cs).getD i 0 = f (l.getD i 0) c := by
      intro l bound
      rw [getD_zipWith f bound (by omega) 0 c, getD_eq_getElem?_getD (l := cs), at_]
      rfl
    simp only [component (·.a) fun _ _ => rfl]
    rw [entry inside, ← h.own.opens i inside]
    simp only [total, add]
    rw [entry, entry, entry] <;> simp [h.length, inside]
  · rw [component (·.b) fun _ _ => rfl, component (·.a) fun _ _ => rfl, h.replicated p]

theorem VecShares.map (f : G → G) (add : ∀ a b, f (a + b) = f a + f b) (h : VecShares x v) :
    VecShares (fun p => (x p).map (·.map f)) (v.map f) := by
  have same := h.zipPublic (f := fun a (_ : Unit) => f a) (fun a b _ => add a b)
    (show (List.replicate v.length ()).length = v.length by simp)
  have constant : ∀ {α β : Type} (g : α → β) (l : List α) {n : Nat}, l.length = n →
      List.zipWith (fun a (_ : Unit) => g a) l (List.replicate n ()) = l.map g := by
    rintro α β g l _ rfl
    induction l with
    | nil => rfl
    | cons a l ih => simp [replicate_succ, ih]
  simpa only [constant _ _ (h.length _), constant f v rfl] using same

/-- A list of shared entries is a shared vector. -/
theorem vecShares_iff {e : List (View G)} {v : List G} :
    VecShares (fun p => e.map (· p)) v ↔ Forall₂ SumShares e v := by
  constructor
  · intro h
    have length : e.length = v.length := by simpa using h.length .ID0
    refine forall₂_iff_get.mpr ⟨length, fun i left right => ?_⟩
    have entry := h.entry right
    rw [List.getD_eq_getElem _ _ right] at entry
    refine ⟨fun p => ?_, ?_⟩
    · have same := entry.replicated p
      simpa [left] using same
    · have sum := entry.opens
      simpa [left] using sum
  · intro h
    obtain ⟨length, entries⟩ := forall₂_iff_get.mp h
    refine ⟨⟨fun p => by simpa using length, fun i inside => ?_⟩, fun p => ?_⟩
    · have sum := (entries i (by omega) inside).opens
      have left : i < e.length := by omega
      simpa [left, inside] using sum
    · refine ext_getElem (by simp) fun i left _ => ?_
      simp only [length_map] at left
      have same := (entries i left (by omega)).replicated p
      simpa using same

def promoted (v : List G) : List (View G) := v.map View.promoteToTrivialShare

theorem promoted_shares (v : List G) : Forall₂ SumShares (promoted v) v := by
  induction v with
  | nil => exact .nil
  | cons c v ih => exact .cons (SumShares.promote c) ih

def promotedAt (v : List G) (p : PartyID) : List (Rep3Share G) := (promoted v).map (· p)

theorem promotedAt_shares (v : List G) : VecShares (promotedAt v) v :=
  vecShares_iff.mpr (promoted_shares v)

end Vectors

section Unmask

variable {F : Type} [Field F]

def oneHot (m r : Nat) : List F := (List.range m).map fun i => if i = r then 1 else 0

def xorShifted {G : Type} [Zero G] (r : Nat) (h : List G) : List G :=
  (List.range h.length).map fun i => h.getD (i ^^^ r) 0

theorem length_oneHot (m r : Nat) : (oneHot m r : List F).length = m := by simp [oneHot]

theorem length_xorShifted {G : Type} [Zero G] (r : Nat) (h : List G) :
    (xorShifted r h).length = h.length := by
  simp [xorShifted]

theorem getD_oneHot {m i : Nat} (r : Nat) (inside : i < m) :
    (oneHot m r : List F).getD i 0 = if i = r then 1 else 0 := by
  rw [List.getD_eq_getElem _ _ (by rw [length_oneHot]; exact inside)]
  simp [oneHot]

theorem getD_xorShifted {G : Type} [Zero G] (r : Nat) {h : List G} {i : Nat}
    (inside : i < h.length) :
    (xorShifted r h).getD i 0 = h.getD (i ^^^ r) 0 := by
  rw [List.getD_eq_getElem _ _ (by rw [length_xorShifted]; exact inside)]
  simp [xorShifted]

section Convolution

variable {G : Type} [AddCommGroup G] [Module F G] (arch : TargetArch) {k : Nat} {h prod : List G}

section

variable {g : List F} (glen : g.length = 2 ^ k) (hlen : h.length = 2 ^ k)
  (plen : prod.length = 2 ^ k) {i : Nat} (inside : i < 2 ^ k)
include glen hlen plen inside

/-- A product of transforms, scaled and transformed, is a multiple of the XOR convolution. -/
theorem getD_fwht_mul {s : F} (entries : ∀ c < 2 ^ k, prod.getD c 0 =
      (s * (fwhtInPlace arch g).getD c 0) • (fwhtInPlace arch h).getD c 0) :
    (fwhtInPlace arch prod).getD i 0 = (s * 2 ^ k) • ∑ a ∈ Finset.range (2 ^ k),
      g.getD a 0 • h.getD (i ^^^ a) 0 := by
  have product : ∀ c < 2 ^ k, prod.getD c 0 =
      s • (transform k (g.getD · 0) c • transform k (h.getD · 0) c) := by
    intro c small
    rw [entries c small, getD_fwht arch glen small, getD_fwht arch hlen small, mul_smul]
  rw [getD_fwht arch plen inside, transform_congr product, transform_smul, transform_mul inside,
    smul_smul]

/-- Divided by the length, it is the convolution. -/
theorem smul_getD_fwht (invertible : (2 ^ k : F) ≠ 0)
    (entries : ∀ c < 2 ^ k, prod.getD c 0 =
      (fwhtInPlace arch g).getD c 0 • (fwhtInPlace arch h).getD c 0) :
    (2 ^ k : F)⁻¹ • (fwhtInPlace arch prod).getD i 0 = ∑ a ∈ Finset.range (2 ^ k),
      g.getD a 0 • h.getD (i ^^^ a) 0 := by
  rw [getD_fwht_mul arch glen hlen plen inside (s := 1) (by simpa using entries), one_mul,
    smul_smul, inv_mul_cancel₀ invertible, one_smul]

end

/-- With the transform of a one-hot vector the entries move. -/
theorem fwht_mul_oneHot {r : Nat} (rIn : r < 2 ^ k) (hlen : h.length = 2 ^ k)
    (invertible : (2 ^ k : F) ≠ 0) (plen : prod.length = 2 ^ k)
    (entries : ∀ c < 2 ^ k, prod.getD c 0 =
      ((2 ^ k : F)⁻¹ * (fwhtInPlace arch (oneHot (2 ^ k) r : List F)).getD c 0) •
      (fwhtInPlace arch h).getD c 0) :
    fwhtInPlace arch prod = xorShifted r h := by
  have plen' := length_fwht arch plen
  refine ext_getElem (by rw [plen', length_xorShifted, hlen]) fun i inside inside' => ?_
  rw [plen'] at inside
  have value := getD_fwht_mul arch (length_oneHot _ r) hlen plen inside entries
  rw [inv_mul_cancel₀ invertible, one_smul,
    Finset.sum_congr rfl fun a small => by
    rw [getD_oneHot r (Finset.mem_range.mp small)], sum_oneHot_smul rIn (h.getD · 0),
    ← getD_xorShifted r (by omega)] at value
  rwa [List.getD_eq_getElem _ _ (by omega), List.getD_eq_getElem _ _ inside'] at value

end Convolution

variable {arch : TargetArch} {k r : Nat} {e : PartyID → List (Rep3Share F)} {h : List F}
  (invertible : (2 ^ k : F) ≠ 0)
include invertible

/-- A transform of pointwise products with the shared transform of a one-hot vector. -/
theorem vecSum_unmask (hlen : h.length = 2 ^ k) (rIn : r < 2 ^ k) {prod : PartyID → List F}
    (length : ∀ p, (prod p).length = 2 ^ k)
    (entries : ∀ c < 2 ^ k, total (fun p => (prod p).getD c 0) =
      (fwhtInPlace arch h).getD c 0 * (2 ^ k : F)⁻¹ * (fwhtInPlace arch (oneHot (2 ^ k) r)).getD
      c 0) :
    VecSum (fun p => fwhtInPlace arch (prod p)) (xorShifted r h) := by
  let all : List F := (List.range (2 ^ k)).map fun c => total fun p => (prod p).getD c 0
  have alen : all.length = 2 ^ k := by simp [all]
  have entry : ∀ c < 2 ^ k, all.getD c 0 = total fun p => (prod p).getD c 0 := by
    intro c small
    rw [List.getD_eq_getElem _ _ (by omega)]
    simp [all]
  have sum : VecSum prod all :=
    ⟨fun p => (length p).trans alen.symm, fun i inside => (entry i (alen ▸ inside)).symm⟩
  have opened := sum.fwht arch alen
  rwa [fwht_mul_oneHot arch rIn hlen invertible alen] at opened
  intro c small
  rw [entry c small, entries c small]
  ring

/-- `fwht_unmask_rep3_to_additive` of `read_raf_checking.rs`. -/
def fwhtUnmaskRep3ToAdditive (arch : TargetArch) (h ehat : List (Rep3Share F)) (invM : F) :
    List F :=
  fwhtInPlace arch (List.zipWith (fun a b => (a.map (· * invM)).localMul b) (fwhtInPlace arch h)
    ehat)

/-- The transformed product with the one-hot vector of the mask undoes the mask, as an additive
sharing. -/
theorem fwhtUnmaskRep3ToAdditive_spec (hlen : h.length = 2 ^ k) (rIn : r < 2 ^ k)
    {x : PartyID → List (Rep3Share F)} (hist : VecShares x h)
    (shares : VecShares e (oneHot (2 ^ k) r)) :
    VecSum (fun p => fwhtUnmaskRep3ToAdditive arch (x p) (fwhtInPlace arch (e p)) (2 ^ k : F)⁻¹)
      (xorShifted r h) := by
  have hat := shares.fwht arch (length_oneHot _ _)
  have histHat := hist.fwht arch hlen
  have elen : ∀ p, (fwhtInPlace arch (e p)).length = 2 ^ k := fun p => by
    rw [hat.length p, length_fwht arch (length_oneHot _ _)]
  have xlen : ∀ p, (fwhtInPlace arch (x p)).length = 2 ^ k := fun p => by
    rw [histHat.length p, length_fwht arch hlen]
  refine vecSum_unmask invertible hlen rIn ?_ fun c small => ?_
  · intro p
    simp [elen, xlen]
  · have entry := hat.entry (by rw [length_fwht arch (length_oneHot _ _)]; exact small)
    have histEntry := histHat.entry (by rw [length_fwht arch hlen]; exact small)
    rw [← total_localMul (histEntry.mulPublic (2 ^ k : F)⁻¹) entry]
    refine congrArg total (funext fun p => ?_)
    rw [getD_zipWith _ (by rw [xlen]; exact small) (by rw [elen]; exact small) ⟨0, 0⟩ ⟨0, 0⟩]
    rfl

def xorConvolution (a b : List F) : List F :=
  (List.range a.length).map fun i => ∑ c ∈ Finset.range a.length, a.getD c 0 * b.getD (i ^^^ c) 0

theorem fwht_mul_scaled {v w : List F} (vlen : v.length = 2 ^ k) (wlen : w.length = 2 ^ k) :
    (fwhtInPlace arch (List.zipWith (· * ·) (fwhtInPlace arch v) (fwhtInPlace arch w))).map
      (· * (2 ^ k : F)⁻¹) =
      xorConvolution v w := by
  have vHat := length_fwht arch vlen
  have wHat := length_fwht arch wlen
  have plen : (List.zipWith (· * ·) (fwhtInPlace arch v) (fwhtInPlace arch w)).length = 2 ^ k := by
    simp [vHat, wHat]
  refine ext_getElem (by simp [length_fwht arch plen, xorConvolution, vlen]) fun i inside _ => ?_
  rw [length_map, length_fwht arch plen] at inside
  have sum := smul_getD_fwht arch vlen wlen plen inside invertible
    fun c small => by rw [getD_zipWith _ (by omega) (by omega) 0 0, smul_eq_mul]
  rw [List.getD_eq_getElem _ _ (by rw [length_fwht arch plen]; exact inside), smul_eq_mul,
    mul_comm] at sum
  simp [xorConvolution, sum, vlen]

omit invertible in
theorem xorConvolution_oneHot (rIn : r < 2 ^ k) (hlen : h.length = 2 ^ k) :
    xorConvolution (oneHot (2 ^ k) r) h = xorShifted r h := by
  rw [xorConvolution, xorShifted, length_oneHot, hlen]
  refine List.map_congr_left fun i _ => ?_
  rw [← sum_oneHot_smul (R := F) rIn (h.getD · 0)]
  refine Finset.sum_congr rfl fun c small => ?_
  rw [getD_oneHot r (Finset.mem_range.mp small), smul_eq_mul]

variable [DecidableEq F]

/-- `F::from(m as u64).inverse().expect(..)`; `none` is the panic. -/
def inverse (m : Nat) : Option F := if (m : F) = 0 then none else some (m : F)⁻¹

theorem inverse_two_pow : inverse (2 ^ k) = some (2 ^ k : F)⁻¹ := by
  rw [inverse, if_neg] <;> push_cast
  · rfl
  · exact invertible

def unmaskHistogramPublic (arch : TargetArch) (h : List F) (ehat : List (Rep3Share F))
    (p : PartyID) : Option (List F) := do
  let m := h.length
  let hHat := fwhtInPlace arch h
  let invM ← inverse m
  let result := match p with
    | .ID0 => List.zipWith (fun f e => f * invM * (e.a + e.b)) hHat ehat
    | .ID1 => List.zipWith (fun f e => f * invM * e.a) hHat ehat
    | .ID2 => List.replicate m 0
  return fwhtInPlace arch result

/-- `xor_convolve_rep3_with_mul` of the three parties in step, with the product they compute
together. -/
def xorConvolveRep3WithMul (arch : TargetArch) (a b : PartyID → List (Rep3Share F))
    (mulFn : (PartyID → List (Rep3Share F)) → (PartyID → List (Rep3Share F)) → PartyID →
      List (Rep3Share F))
    (p : PartyID) :
    Option (List (Rep3Share F)) := do
  let n := (a p).length
  let result := mulFn (fun q => fwhtInPlace arch (a q)) fun q => fwhtInPlace arch (b q)
  let invN ← inverse n
  return (fwhtInPlace arch (result p)).map fun r => r.map (· * invN)

def shiftEqTableWithMask (arch : TargetArch) (eqTable : List F) (ehat : List (Rep3Share F)) :
    Option (List (Rep3Share F)) := do
  let m := eqTable.length
  let eqHat := fwhtInPlace arch eqTable
  let invM ← inverse m
  return fwhtInPlace arch (List.zipWith (fun e eq => e.map (· * (eq * invM))) ehat eqHat)

/-- A public histogram is unmasked in the same way, by P0 and P1; the part of P2 is zero. -/
theorem unmaskHistogramPublic_spec (hlen : h.length = 2 ^ k) (rIn : r < 2 ^ k)
    (shares : VecShares e (oneHot (2 ^ k) r)) :
    ∃ out : PartyID → List F, (∀ p, unmaskHistogramPublic arch h (fwhtInPlace arch (e p)) p =
      some (out p)) ∧
      VecSum out (xorShifted r h) := by
  have hat := shares.fwht arch (length_oneHot _ _)
  have elen : ∀ p, (fwhtInPlace arch (e p)).length = 2 ^ k := fun p => by
    rw [hat.length p, length_fwht arch (length_oneHot _ _)]
  let prod : PartyID → List F := PartyID.rec
    (List.zipWith (fun f e => f * (2 ^ k : F)⁻¹ * (e.a + e.b)) (fwhtInPlace arch h)
      (fwhtInPlace arch (e .ID0)))
    (List.zipWith (fun f e => f * (2 ^ k : F)⁻¹ * e.a) (fwhtInPlace arch h)
      (fwhtInPlace arch (e .ID1)))
    (List.replicate (2 ^ k) 0)
  refine ⟨fun p => fwhtInPlace arch (prod p), fun p => ?_,
    vecSum_unmask invertible hlen rIn ?_ fun c small => ?_⟩
  · rw [unmaskHistogramPublic, hlen, inverse_two_pow invertible]
    cases p <;> rfl
  · intro p
    cases p <;> simp [prod, length_fwht arch hlen, elen]
  · have entry := hat.entry (by rw [length_fwht arch (length_oneHot _ _)]; exact small)
    have bound : c < (fwhtInPlace arch h).length := by rw [length_fwht arch hlen]; exact small
    simp only [total]
    rw [getD_zipWith _ bound (by rw [elen]; exact small) 0 ⟨0, 0⟩,
      getD_zipWith _ bound (by rw [elen]; exact small) 0 ⟨0, 0⟩, ← entry.opens, total,
      entry.replicated .ID0, PartyID.prev, getD_eq_getElem?_getD (l := List.replicate _ _),
      getElem?_replicate, if_pos small, Option.getD_some]
    ring

/-- A public table is shifted by the shared mask, as a replicated sharing. -/
theorem shiftEqTableWithMask_spec {table : List F} (tlen : table.length = 2 ^ k)
    (rIn : r < 2 ^ k) (shares : VecShares e (oneHot (2 ^ k) r)) :
    ∃ out : PartyID → List (Rep3Share F),
      (∀ p, shiftEqTableWithMask arch table (fwhtInPlace arch (e p)) = some (out p)) ∧
      VecShares out (xorShifted r table) := by
  have olen := length_oneHot (F := F) (2 ^ k) r
  have hatLength := length_fwht arch olen
  have tableLength := length_fwht arch tlen
  have products := (shares.fwht arch olen).zipPublic (f := fun a eq => a * (eq * (2 ^ k : F)⁻¹))
    (fun _ _ _ => add_mul ..) (tableLength.trans hatLength.symm)
  have plen :
    (List.zipWith (fun a eq => a * (eq * (2 ^ k : F)⁻¹)) (fwhtInPlace arch (oneHot (2 ^ k) r))
      (fwhtInPlace arch table)).length = 2 ^ k := by simp [hatLength, tableLength]
  have opened := products.fwht arch plen
  rw [fwht_mul_oneHot arch rIn tlen invertible plen] at opened
  · refine ⟨_, fun p => ?_, opened⟩
    rw [shiftEqTableWithMask, tlen, inverse_two_pow invertible]
    rfl
  · intro c small
    rw [getD_zipWith _ (by omega) (by omega) 0 0]
    ring

/-- With any product of shared vectors in the middle, the transforms compute the XOR convolution. -/
theorem xorConvolveRep3WithMul_spec {x y : PartyID → List (Rep3Share F)} {v w : List F}
    (vlen : v.length = 2 ^ k) (wlen : w.length = 2 ^ k) (hx : VecShares x v) (hy : VecShares y w)
    {mulFn : (PartyID → List (Rep3Share F)) → (PartyID → List (Rep3Share F)) → PartyID →
      List (Rep3Share F)}
    (multiplies : ∀ {x y v w}, VecShares x v → VecShares y w →
      VecShares (mulFn x y) (List.zipWith (· * ·) v w)) :
    ∃ out : PartyID → List (Rep3Share F),
      (∀ p, xorConvolveRep3WithMul arch x y mulFn p = some (out p)) ∧
      VecShares out (xorConvolution v w) := by
  have vHat := length_fwht arch vlen
  have wHat := length_fwht arch wlen
  have plen : (List.zipWith (· * ·) (fwhtInPlace arch v) (fwhtInPlace arch w)).length = 2 ^ k := by
    simp [vHat, wHat]
  have opened :=
    ((multiplies (hx.fwht arch vlen) (hy.fwht arch wlen)).fwht arch plen).map (· * (2 ^ k : F)⁻¹)
    fun _ _ => add_mul ..
  rw [fwht_mul_scaled invertible vlen wlen] at opened
  refine ⟨_, fun p => ?_, opened⟩
  rw [xorConvolveRep3WithMul, hx.length p, vlen, inverse_two_pow invertible]
  rfl

end Unmask

end ProviaVM.Poly
