import ProviaVM.Lib.Run

/-! # Streams cut into frames and sent over lanes

A sender cuts ranges of a stream into frames and puts each on a lane; a receiver asks
the lanes for frames of given lengths. Lanes deliver in order, and a request fails
when the next frame has another length. When the two sides cut the same ranges, in
whatever pieces, a receiver that succeeds has received the stream, each element at its
own position, and has emptied the lanes. -/
namespace Framed
open List Function

structure Piece (ι : Type) where
  lane : ι
  start : Nat
  len : Nat
  deriving DecidableEq, Repr

variable {ι α σ ε : Type}

namespace Piece

def data (f : Nat → α) (p : Piece ι) : List α := (List.range p.len).map fun i => f (p.start + i)

variable {p : Piece ι} {step : Nat} {q : Piece ι}

@[simp] theorem length_data (f : Nat → α) (p : Piece ι) : (p.data f).length = p.len := by
  simp [data]

theorem mem_data_id {e : Nat} : e ∈ p.data id ↔ p.start ≤ e ∧ e < p.start + p.len := by
  simp only [data, mem_map, mem_range, id]
  constructor
  · rintro ⟨i, inside, rfl⟩
    omega
  · rintro ⟨lower, upper⟩
    exact ⟨e - p.start, by omega, by omega⟩

theorem data_append (f : Nat → α) (l : ι) (start m n : Nat) :
    (mk l start m).data f ++ (mk l (start + m) n).data f = (mk l start (m + n)).data f := by
  simp [data, range_add, Nat.add_assoc]

/-- Cut a range into consecutive ranges of at most `step` positions. -/
def splitFrom (l : ι) (step : Nat) : Nat → Nat → Nat → List (Piece ι)
  | 0, _, _ => []
  | fuel + 1, start, len =>
    if len = 0 then []
    else ⟨l, start, min len step⟩ :: splitFrom l step fuel (start + min len step)
      (len - min len step)

def split (step : Nat) (p : Piece ι) : List (Piece ι) := splitFrom p.lane step p.len p.start p.len

theorem data_splitFrom (f : Nat → α) (l : ι) (positive : 0 < step) {fuel start len : Nat}
    (enough : len ≤ fuel) :
    (splitFrom l step fuel start len).flatMap (data f) = (mk l start len).data f := by
  induction fuel generalizing start len with
  | zero =>
    obtain rfl : len = 0 := by omega
    rfl
  | succ fuel ih =>
    unfold splitFrom
    split
    · rename_i zero
      subst zero
      rfl
    · have smaller : len - min len step ≤ fuel := by omega
      have whole : min len step + (len - min len step) = len := by omega
      simp [ih smaller, data_append, whole]

theorem data_split (f : Nat → α) (positive : 0 < step) (p : Piece ι) :
    (p.split step).flatMap (data f) = p.data f :=
  data_splitFrom f p.lane positive (Nat.le_refl _)

theorem mem_splitFrom {l : ι} {fuel start len : Nat}
    (member : q ∈ splitFrom l step fuel start len) :
    q.lane = l ∧ (0 < step → 0 < q.len) := by
  induction fuel generalizing start len with
  | zero => cases member
  | succ fuel ih =>
    unfold splitFrom at member
    split at member
    · cases member
    rcases mem_cons.mp member with rfl | later
    · exact ⟨rfl, fun positive => by dsimp only; omega⟩
    · exact ih later

theorem lane_of_mem_split (member : q ∈ p.split step) : q.lane = p.lane :=
  (mem_splitFrom member).1

theorem len_pos_of_mem_split (positive : 0 < step) (member : q ∈ p.split step) : 0 < q.len :=
  (mem_splitFrom member).2 positive

/-- A range of items as a range of elements, `k` per item. -/
def scale (k : Nat) (p : Piece ι) : Piece ι := ⟨p.lane, p.start * k, p.len * k⟩

/-- The elements of a scaled range are those of its items, block after block. -/
theorem data_scale (f : Nat → α) (k : Nat) (p : Piece ι) :
    (p.scale k).data f =
      (p.data fun i => (List.range k).map fun j => f (i * k + j)).flatten := by
  obtain ⟨l, start, len⟩ := p
  induction len with
  | zero => simp [scale, data]
  | succ len ih =>
    have grow : (mk l start (len + 1)).scale k = mk l (start * k) (len * k + k) := by
      simp [scale, Nat.add_mul]
    have head : (mk l (start * k) (len * k)).data f = ((mk l start len).scale k).data f := rfl
    rw [grow, ← data_append, head, ih]
    simp [data, range_succ, Nat.add_mul]

end Piece

/-- Two lists of ranges carry the same stream on every lane. -/
def SameStreams [DecidableEq ι] (ps qs : List (Piece ι)) : Prop :=
  ∀ (l : ι) (β : Type) (f : Nat → β),
    (ps.filter (·.lane = l)).flatMap (Piece.data f) =
      (qs.filter (·.lane = l)).flatMap (Piece.data f)

section Net

variable [DecidableEq ι] {ps qs : List (Piece ι)}

theorem SameStreams.symm (h : SameStreams ps qs) : SameStreams qs ps :=
  fun l β f => (h l β f).symm

theorem SameStreams.trans {rs : List (Piece ι)} (h : SameStreams ps qs) (k : SameStreams qs rs) :
    SameStreams ps rs :=
  fun l β f => (h l β f).trans (k l β f)

/-- Cutting every range of a list keeps the streams. -/
theorem sameStreams_split {step : Nat} (positive : 0 < step) (ps : List (Piece ι)) :
    SameStreams (ps.flatMap (Piece.split step)) ps := by
  intro l β f
  induction ps with
  | nil => rfl
  | cons p ps ih =>
    have cut : ((p.split step).filter (·.lane = l)).flatMap (Piece.data f) =
        ([p].filter (·.lane = l)).flatMap (Piece.data f) := by
      by_cases here : p.lane = l
      · have all : (p.split step).filter (·.lane = l) = p.split step :=
          filter_eq_self.mpr fun q member => by
            simpa [Piece.lane_of_mem_split member] using here
        simp [all, here, Piece.data_split f positive]
      · have none : (p.split step).filter (·.lane = l) = [] :=
          filter_eq_nil_iff.mpr fun q member => by
            simpa [Piece.lane_of_mem_split member] using here
        simp [none, here]
    have split : p :: ps = [p] ++ ps := rfl
    rw [flatMap_cons, filter_append, flatMap_append, cut, ih, split, filter_append,
      flatMap_append]

/-- Ranges of items that carry the same streams do so element by element. -/
theorem SameStreams.scale (h : SameStreams ps qs) (k : Nat) :
    SameStreams (ps.map (Piece.scale k)) (qs.map (Piece.scale k)) := by
  have blocks : ∀ (rs : List (Piece ι)) (l : ι) (β : Type) (f : Nat → β),
      ((rs.map (Piece.scale k)).filter (·.lane = l)).flatMap (Piece.data f) =
        ((rs.filter (·.lane = l)).flatMap
          (Piece.data fun i => (List.range k).map fun j => f (i * k + j))).flatten := by
    intro rs l β f
    rw [filter_map, flatMap_map, ← flatMap_id, flatMap_assoc]
    apply flatMap_congr
    intro p _
    rw [flatMap_id]
    exact Piece.data_scale f k p
  intro l β f
  rw [blocks, blocks, h l _ _]

/-- Positions covered by one list are covered by the other. -/
theorem SameStreams.covers (h : SameStreams ps qs) {e : Nat} {p : Piece ι} (member : p ∈ ps)
    (inside : p.start ≤ e ∧ e < p.start + p.len) : ∃ q ∈ qs, q.start ≤ e ∧ e < q.start + q.len := by
  have here : e ∈ (ps.filter (·.lane = p.lane)).flatMap (Piece.data id) :=
    mem_flatMap.mpr ⟨p, mem_filter.mpr ⟨member, by simp⟩, Piece.mem_data_id.mpr inside⟩
  rw [h p.lane Nat id] at here
  obtain ⟨q, inQs, contains⟩ := mem_flatMap.mp here
  exact ⟨q, (mem_filter.mp inQs).1, Piece.mem_data_id.mp contains⟩

abbrev Net (ι α : Type) : Type := ι → List (List α)

namespace Net

def send (net : Net ι α) (l : ι) (frame : List α) : Net ι α :=
  Function.update net l (net l ++ [frame])

/-- Take the next frame of the lane if it has the requested length. -/
def recv (net : Net ι α) (l : ι) (len : Nat) : Option (List α × Net ι α) :=
  match net l with
  | frame :: rest => if frame.length = len then some (frame, Function.update net l rest) else none
  | [] => none

/-- Send the elements of the stream `f` piece by piece. -/
def sendAll (f : Nat → α) (net : Net ι α) (ps : List (Piece ι)) : Net ι α :=
  ps.foldl (fun net p => net.send p.lane (p.data f)) net

theorem sendAll_apply (f : Nat → α) (net : Net ι α) (ps : List (Piece ι)) (l : ι) :
    sendAll f net ps l = net l ++ (ps.filter (·.lane = l)).map (Piece.data f) := by
  induction ps generalizing net with
  | nil => simp [sendAll]
  | cons p ps ih =>
    have step : sendAll f net (p :: ps) = sendAll f (net.send p.lane (p.data f)) ps := rfl
    rw [step, ih]
    rcases eq_or_ne p.lane l with rfl | different
    · simp [send]
    · simp [send, different, update_of_ne different.symm]

theorem recv_some {net net' : Net ι α} {l : ι} {len : Nat} {frame : List α}
    (h : net.recv l len = some (frame, net')) :
    frame.length = len ∧ ∃ rest, net l = frame :: rest ∧ net' = Function.update net l rest := by
  unfold recv at h
  split at h
  · rename_i first rest found
    split at h
    · rename_i sized
      cases h
      exact ⟨sized, rest, found, rfl⟩
    · cases h
  · cases h

end Net

/-- Receive the pieces in order and hand each to `write`. -/
def recvInto (write : σ → Piece ι → List α → Except ε σ) (fail : ε) :
    List (Piece ι) → Net ι α × σ → Except ε (Net ι α × σ)
  | [], s => .ok s
  | p :: ps, (net, s) =>
    match net.recv p.lane p.len with
    | none => .error fail
    | some (frame, net') => do
      let s' ← write s p frame
      recvInto write fail ps (net', s')

/-- A receiver that succeeds on frames of the same streams has written the stream itself, and
what was sent behind these frames is left. -/
theorem recvInto_eq_of_streams {write : σ → Piece ι → List α → Except ε σ} {fail : ε} {f : Nat → α}
    {net net' : Net ι α} {s s' : σ} {frames rest : ι → List (List α)}
    (inFlight : ∀ l, net l = frames l ++ rest l) (nonempty : ∀ l, ∀ fr ∈ frames l, fr ≠ [])
    (stream : ∀ l, (frames l).flatten = (ps.filter (·.lane = l)).flatMap (Piece.data f))
    (positive : ∀ p ∈ ps, 0 < p.len) (h : recvInto write fail ps (net, s) = .ok (net', s')) :
    net' = rest ∧ ps.foldlM (fun s p => write s p (p.data f)) s = .ok s' := by
  induction ps generalizing net s frames with
  | nil =>
    cases h
    refine ⟨funext fun l => ?_, rfl⟩
    have empty : frames l = [] := by
      rcases framesEq : frames l with _ | ⟨fr, frs⟩
      · rfl
      · have nothing := stream l
        rw [framesEq] at nothing
        simp only [flatten_cons, filter_nil, flatMap_nil, append_eq_nil_iff] at nothing
        exact absurd nothing.1 (nonempty l fr (by rw [framesEq]; exact mem_cons_self))
    simp [inFlight l, empty]
  | cons p ps ih =>
    simp only [recvInto] at h
    split at h
    · cases h
    rename_i frame net₁ received
    obtain ⟨s₁, written, h⟩ := Run.bind_ok.mp h
    obtain ⟨sized, tail, found, rfl⟩ := Net.recv_some received
    have mine := stream p.lane
    rw [filter_cons_of_pos (by simp), flatMap_cons] at mine
    -- the lane still holds frames of this stream, so the frame received is the first of them
    obtain ⟨frs, framesEq⟩ : ∃ frs, frames p.lane = frame :: frs := by
      rcases framesEq : frames p.lane with _ | ⟨fr, frs⟩
      · rw [framesEq, flatten_nil] at mine
        have lengths := congrArg List.length mine
        have big := positive p mem_cons_self
        simp only [length_nil, length_append, Piece.length_data] at lengths
        omega
      · have whole := inFlight p.lane
        rw [found, framesEq] at whole
        obtain ⟨rfl, -⟩ := List.cons.inj whole
        exact ⟨frs, rfl⟩
    rw [framesEq] at mine
    obtain ⟨same, later⟩ := append_inj mine (by rw [sized, Piece.length_data])
    have tailEq : tail = frs ++ rest p.lane := by
      have whole := inFlight p.lane
      rw [found, framesEq] at whole
      exact (List.cons.inj whole).2
    have inFlight' :
        ∀ l, Function.update net p.lane tail l = Function.update frames p.lane frs l ++ rest l := by
      intro l
      rcases eq_or_ne l p.lane with rfl | different
      · simp [tailEq]
      · simp [different, inFlight l]
    have nonempty' : ∀ l, ∀ fr ∈ Function.update frames p.lane frs l, fr ≠ [] := by
      intro l fr member
      rcases eq_or_ne l p.lane with rfl | different
      · rw [update_self] at member
        exact nonempty p.lane fr (by rw [framesEq]; exact mem_cons_of_mem _ member)
      · rw [update_of_ne different] at member
        exact nonempty l fr member
    have stream' : ∀ l, (Function.update frames p.lane frs l).flatten =
        (ps.filter (·.lane = l)).flatMap (Piece.data f) := by
      intro l
      rcases eq_or_ne l p.lane with rfl | different
      · simp [later]
      · have others := stream l
        rw [filter_cons_of_neg (by simp [different.symm])] at others
        rw [update_of_ne different, others]
    obtain ⟨left, writes⟩ := ih inFlight' nonempty' stream'
      (fun q member => positive q (mem_cons_of_mem _ member)) h
    refine ⟨left, ?_⟩
    rw [foldlM_cons]
    exact Run.bind_ok.mpr ⟨s₁, by rw [← same]; exact written, writes⟩

/-- Sender and receiver that cut the same streams: success means the stream was written. -/
theorem recvInto_sendAll {write : σ → Piece ι → List α → Except ε σ} {fail : ε} {f : Nat → α}
    {sent asked : List (Piece ι)} {rest net' : Net ι α} {s s' : σ} {net : Net ι α}
    (same : SameStreams sent asked) (sentPos : ∀ p ∈ sent, 0 < p.len)
    (askedPos : ∀ p ∈ asked, 0 < p.len)
    (inFlight : ∀ l, net l = (sent.filter (·.lane = l)).map (Piece.data f) ++ rest l)
    (h : recvInto write fail asked (net, s) = .ok (net', s')) :
    net' = rest ∧ asked.foldlM (fun s p => write s p (p.data f)) s = .ok s' := by
  refine recvInto_eq_of_streams inFlight ?_ ?_ askedPos h
  · intro l fr member
    obtain ⟨p, inSent, rfl⟩ := mem_map.mp member
    have big := sentPos p (mem_filter.mp inSent).1
    intro empty
    have none := congrArg List.length empty
    rw [Piece.length_data, length_nil] at none
    omega
  · intro l
    rw [← same l α f, flatMap_def]

end Net

end Framed
