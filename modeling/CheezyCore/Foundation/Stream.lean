import Mathlib.Algebra.Order.Ring.Int
import Mathlib.Data.List.Basic

/-!
# Streams in chunks and in frames

A stream is a list of elements. Whoever transports it cuts it into chunks at places
of its own choice; `takeChunk` takes at most `room` elements from the first of the
chunks that wait in a queue, and `cutAt` cuts at given offsets. Its format cuts it into
frames: a `Framing` reads a frame off the front of a stream exactly where a valid one
was written, so a stream has one reading, however it was cut on the way.
-/

/-! ## Chunks -/

namespace Chunks

variable {α : Type*} {cuts : List Nat} {size start room : Nat} {s : List α}

/-- Take at most `room` elements from the first chunk. What is left of it stays. -/
def takeChunk (room : Nat) : List (List α) → List α × List (List α)
  | [] => ([], [])
  | chunk :: rest =>
    if chunk.length ≤ room then (chunk, rest) else (chunk.take room, chunk.drop room :: rest)

theorem takeChunk_of_le {chunk : List α} (h : chunk.length ≤ room) (rest : List (List α)) :
    takeChunk room (chunk :: rest) = (chunk, rest) := if_pos h

theorem takeChunk_of_lt {chunk : List α} (h : room < chunk.length) (rest : List (List α)) :
    takeChunk room (chunk :: rest) = (chunk.take room, chunk.drop room :: rest) :=
  if_neg (Nat.not_le.mpr h)

/-- Nothing is lost, added or reordered. -/
theorem takeChunk_append_flatten (room : Nat) (chunks : List (List α)) :
    (takeChunk room chunks).1 ++ (takeChunk room chunks).2.flatten = chunks.flatten := by
  cases chunks with
  | nil => rfl
  | cons chunk rest =>
    rcases Nat.lt_or_ge room chunk.length with hlt | hle
    · rw [takeChunk_of_lt hlt, List.flatten_cons, List.flatten_cons, ← List.append_assoc,
        List.take_append_drop]
    · rw [takeChunk_of_le hle, List.flatten_cons]

/-- The remaining chunks are not empty if there was none before. -/
theorem takeChunk_ne_nil {chunks : List (List α)} (h : ∀ chunk ∈ chunks, chunk ≠ []) :
    ∀ chunk ∈ (takeChunk room chunks).2, chunk ≠ [] := by
  cases chunks with
  | nil => exact h
  | cons first rest =>
    intro chunk hchunk
    rcases Nat.lt_or_ge room first.length with hlt | hle
    · rw [takeChunk_of_lt hlt] at hchunk
      rcases List.mem_cons.mp hchunk with rfl | hrest
      · intro hnil
        rw [List.drop_eq_nil_iff] at hnil
        omega
      · exact h chunk (List.mem_cons_of_mem first hrest)
    · rw [takeChunk_of_le hle] at hchunk
      exact h chunk (List.mem_cons_of_mem first hchunk)

/-- The loop of a writer that takes at most `size` elements at a time. -/
def piecesLoop (size : Nat) : Nat → List α → List (List α)
  | 0, _ => []
  | _, [] => []
  | fuel + 1, s => s.take size :: piecesLoop size fuel (s.drop size)

/-- A string in pieces of at most `size` elements. -/
def pieces (size : Nat) (s : List α) : List (List α) := piecesLoop size s.length s

section

variable (hsize : 0 < size)
include hsize

theorem flatten_pieces (s : List α) : (pieces size s).flatten = s := by
  have hloop (fuel : Nat) (s : List α) (hs : s.length ≤ fuel) :
      (piecesLoop size fuel s).flatten = s := by
    fun_induction piecesLoop size fuel s with
    | case1 s => exact (List.eq_nil_of_length_eq_zero (Nat.le_zero.mp hs)).symm
    | case2 => rfl
    | case3 fuel s hne ih =>
      rw [List.flatten_cons, ih, List.take_append_drop]
      rw [List.length_drop]
      omega
  exact hloop s.length s (Nat.le_refl _)

/-- The number of pieces is the length divided by the size of a piece, rounded up. -/
theorem length_piecesLoop {fuel : Nat} (hfuel : s.length ≤ fuel) :
    (piecesLoop size fuel s).length = (s.length + size - 1) / size := by
  fun_induction piecesLoop size fuel s with
  | case1 s =>
    rw [List.eq_nil_of_length_eq_zero (Nat.le_zero.mp hfuel)]
    exact (Nat.div_eq_of_lt (by simp only [List.length_nil]; omega)).symm
  | case2 => exact (Nat.div_eq_of_lt (by simp only [List.length_nil]; omega)).symm
  | case3 fuel s hne ih =>
    have hpos := List.length_pos_iff.mpr hne
    rw [List.length_cons, ih (by rw [List.length_drop]; omega), List.length_drop,
      ← Nat.add_div_right _ hsize]
    rcases Nat.le_total size s.length with hle | hle
    · congr 1
      omega
    · rw [Nat.div_eq_of_lt_le (k := 1) (by omega) (by omega),
        Nat.div_eq_of_lt_le (k := 1) (by omega) (by omega)]

theorem flatten_flatMap_pieces (strings : List (List α)) :
    (strings.flatMap (pieces size)).flatten = strings.flatten := by
  induction strings with
  | nil => rfl
  | cons s strings ih =>
    rw [List.flatMap_cons, List.flatten_append, flatten_pieces hsize, ih, List.flatten_cons]

theorem mem_pieces {piece : List α} (h : piece ∈ pieces size s) :
    piece ≠ [] ∧ piece.length ≤ size := by
  unfold pieces at h
  generalize s.length = fuel at h
  fun_induction piecesLoop size fuel s with
  | case1 | case2 => cases h
  | case3 fuel s hne ih =>
    obtain rfl | h := List.mem_cons.mp h
    · refine ⟨?_, List.length_take_le _ _⟩
      rw [Ne, List.take_eq_nil_iff]
      exact not_or.mpr ⟨Nat.ne_of_gt hsize, hne⟩
    · exact ih h

end

/-- The pieces of a stream between an offset and each of the following ones. -/
def cutAt (s : List α) : Nat → List Nat → List (List α)
  | _, [] => []
  | start, stop :: rest => (s.take stop).drop start :: cutAt s stop rest

/-- The offsets ascend from `start` and stay below `stop`. -/
def Cuts (start stop : Nat) : List Nat → Prop
  | [] => start < stop
  | cut :: rest => start < cut ∧ Cuts cut stop rest

theorem Cuts.lt {stop : Nat} (h : Cuts start stop cuts) : start < stop := by
  induction cuts generalizing start with
  | nil => exact h
  | cons cut rest ih => exact Nat.lt_trans h.1 (ih h.2)

theorem Cuts.mono {stop start' stop' : Nat} (h : Cuts start stop cuts) (lower : start' ≤ start)
    (upper : stop ≤ stop') : Cuts start' stop' cuts := by
  induction cuts generalizing start start' with
  | nil =>
    have hlt : start < stop := h
    exact show start' < stop' by omega
  | cons cut rest ih => exact ⟨Nat.lt_of_le_of_lt lower h.1, ih h.2 (Nat.le_refl cut)⟩

/-- The same cuts in a stream without its first `k` elements. -/
theorem Cuts.map_sub {stop : Nat} (h : Cuts start stop cuts) {k : Nat} (hk : k ≤ start) :
    Cuts (start - k) (stop - k) (cuts.map (· - k)) := by
  induction cuts generalizing start with
  | nil => exact Nat.sub_lt_sub_right hk h
  | cons cut rest ih =>
    exact ⟨Nat.sub_lt_sub_right hk h.1, ih h.2 (Nat.le_trans hk (Nat.le_of_lt h.1))⟩

/-- Cut at ascending offsets, a stream is the sequence of its pieces. -/
theorem flatten_cutAt (h : Cuts start s.length cuts) :
    (cutAt s start (cuts ++ [s.length])).flatten = s.drop start := by
  induction cuts generalizing start with
  | nil => simp [cutAt]
  | cons cut rest ih =>
    have hdrop : (s.take cut).drop start ++ s.drop cut = s.drop start := by
      rw [← List.drop_append_of_le_length, List.take_append_drop]
      rw [List.length_take]
      exact Nat.le_min.mpr ⟨Nat.le_of_lt h.1, Nat.le_of_lt (Nat.lt_trans h.1 h.2.lt)⟩
    rw [List.cons_append, cutAt, List.flatten_cons, ih h.2, hdrop]

theorem cutAt_ne_nil (h : Cuts start s.length cuts) :
    ∀ piece ∈ cutAt s start (cuts ++ [s.length]), piece ≠ [] := by
  induction cuts generalizing start with
  | nil =>
    intro piece hpiece hnil
    have hlt : start < s.length := h
    simp only [List.nil_append, cutAt, List.mem_singleton, List.take_length] at hpiece
    rw [hpiece, List.drop_eq_nil_iff] at hnil
    omega
  | cons cut rest ih =>
    intro piece hpiece
    rcases List.mem_cons.mp hpiece with rfl | hrest
    · intro hnil
      have hlen := h.2.lt
      have hcut := h.1
      rw [List.drop_eq_nil_iff, List.length_take] at hnil
      omega
    · exact ih h.2 piece hrest

end Chunks

/-! ## Frames -/

/-- A self-delimiting format: `read` takes a frame off the front of a stream exactly
where the encoding of a valid one stands. -/
structure Framing (α β : Type*) where
  Valid : β → Prop
  wire : β → List α
  read : List α → Option (β × List α)
  read_eq_some : ∀ {r rest : List α} {x : β},
    read r = some (x, rest) ↔ Valid x ∧ r = wire x ++ rest

namespace Framing

variable {α β : Type*} (F : Framing α β) {xs ys : List β} {a b : List α}

/-- The stream of a list of frames. -/
def stream (xs : List β) : List α := xs.flatMap F.wire

/-- The beginning of a frame that is not yet complete. -/
def Incomplete (b : List α) : Prop := ∃ x more, F.Valid x ∧ more ≠ [] ∧ F.wire x = b ++ more

@[simp] theorem stream_nil : F.stream [] = [] := rfl

@[simp] theorem stream_cons (x : β) (xs : List β) :
    F.stream (x :: xs) = F.wire x ++ F.stream xs := List.flatMap_cons

theorem stream_concat (xs : List β) (x : β) : F.stream (xs ++ [x]) = F.stream xs ++ F.wire x := by
  rw [stream, List.flatMap_append, List.flatMap_singleton]
  rfl

theorem read_wire_append {x : β} (h : F.Valid x) (rest : List α) :
    F.read (F.wire x ++ rest) = some (x, rest) := F.read_eq_some.mpr ⟨h, rfl⟩

/-- An incomplete frame has no frame at its front. -/
theorem Incomplete.read_eq_none {F : Framing α β} (h : F.Incomplete b) : F.read b = none := by
  obtain ⟨x, more, hx, hmore, hwire⟩ := h
  cases hread : F.read b with
  | none => rfl
  | some result =>
    obtain ⟨y, rest⟩ := result
    obtain ⟨hy, rfl⟩ := F.read_eq_some.mp hread
    have htwo : F.read (F.wire x) = some (y, rest ++ more) := by
      rw [hwire, List.append_assoc]
      exact F.read_wire_append hy _
    have hone : F.read (F.wire x) = some (x, []) := F.read_eq_some.mpr ⟨hx, by simp⟩
    rw [hone] at htwo
    have hnil : rest ++ more = [] := (Prod.mk.inj (Option.some.inj htwo)).2.symm
    exact absurd (List.append_eq_nil_iff.mp hnil).2 hmore

/-- Of two readings of one stream, one that leaves no frame behind extends the other,
and they leave the same. -/
theorem exists_append_of_stream_append (hxs : ∀ x ∈ xs, F.Valid x) (hys : ∀ y ∈ ys, F.Valid y)
    (h : F.stream xs ++ a = F.stream ys ++ b) (hb : F.read b = none) :
    ∃ zs, ys = xs ++ zs ∧ a = F.stream zs ++ b := by
  induction xs generalizing ys with
  | nil => exact ⟨ys, rfl, h⟩
  | cons x xs ih =>
    have hx : F.Valid x := hxs x List.mem_cons_self
    rw [stream_cons, List.append_assoc] at h
    cases ys with
    | nil =>
      rw [stream_nil, List.nil_append] at h
      rw [← h, F.read_wire_append hx] at hb
      cases hb
    | cons y ys =>
      have hy : F.Valid y := hys y List.mem_cons_self
      rw [stream_cons, List.append_assoc] at h
      have hread := F.read_wire_append hx (F.stream xs ++ a)
      rw [h, F.read_wire_append hy] at hread
      obtain ⟨rfl, hrest⟩ := Prod.mk.inj (Option.some.inj hread)
      obtain ⟨zs, rfl, ha⟩ := ih (fun z hz => hxs z (List.mem_cons_of_mem _ hz))
        (fun z hz => hys z (List.mem_cons_of_mem _ hz)) hrest.symm
      exact ⟨zs, rfl, ha⟩

/-- A stream has one reading. -/
theorem eq_of_stream_append (hxs : ∀ x ∈ xs, F.Valid x) (hys : ∀ y ∈ ys, F.Valid y)
    (h : F.stream xs ++ a = F.stream ys ++ b) (ha : F.read a = none) (hb : F.read b = none) :
    ys = xs := by
  obtain ⟨zs, rfl, hrest⟩ := F.exists_append_of_stream_append hxs hys h hb
  cases zs with
  | nil => exact List.append_nil xs
  | cons z zs =>
    have hz : F.Valid z := hys z (List.mem_append_right xs List.mem_cons_self)
    rw [hrest, stream_cons, List.append_assoc, F.read_wire_append hz] at ha
    cases ha

/-- Read frames off the front of a stream, as long as there is one. What is left over is
returned too. -/
def readAllLoop : Nat → List α → List β × List α
  | 0, r => ([], r)
  | fuel + 1, r =>
    match F.read r with
    | none => ([], r)
    | some (x, rest) =>
      let (xs, left) := readAllLoop fuel rest
      (x :: xs, left)

/-- Every frame takes an element of the stream, so its length is enough fuel. -/
def readAll (r : List α) : List β × List α := F.readAllLoop r.length r

/-- Reading a stream yields its frames and leaves what follows them. -/
theorem readAll_stream_append (hxs : ∀ x ∈ xs, F.Valid x) (hne : ∀ x ∈ xs, F.wire x ≠ [])
    (hb : F.read b = none) : F.readAll (F.stream xs ++ b) = (xs, b) := by
  have hloop : ∀ fuel, (F.stream xs).length ≤ fuel →
      F.readAllLoop fuel (F.stream xs ++ b) = (xs, b) := by
    induction xs with
    | nil =>
      intro fuel _
      cases fuel <;> simp [readAllLoop, hb]
    | cons x xs ih =>
      rw [List.forall_mem_cons] at hxs hne
      intro fuel hfuel
      have hx := List.length_pos_iff.mpr hne.1
      rw [stream_cons, List.length_append] at hfuel
      obtain ⟨fuel, rfl⟩ : ∃ k, fuel = k + 1 := Nat.exists_eq_add_of_le' (by omega)
      have hread := F.read_wire_append hxs.1 (F.stream xs ++ b)
      simp [readAllLoop, hread, ih hxs.2 hne.2 fuel (by omega)]
  refine hloop _ ?_
  rw [List.length_append]
  exact Nat.le_add_right _ _

/-- A front part of a stream that has no frame at its front is the beginning of one. -/
theorem Incomplete.of_append {F : Framing α β} (hb : F.Incomplete b) {later : List α}
    (hxs : ∀ x ∈ xs, F.Valid x) (h : a ++ later = F.stream xs ++ b) (ha : F.read a = none) :
    F.Incomplete a := by
  cases xs with
  | nil =>
    obtain ⟨y, more, hy, hmore, hwire⟩ := hb
    rw [stream_nil, List.nil_append] at h
    rw [← h, List.append_assoc] at hwire
    exact ⟨y, later ++ more, hy, fun hnil => hmore (List.append_eq_nil_iff.mp hnil).2, hwire⟩
  | cons x xs =>
    have hx : F.Valid x := hxs x List.mem_cons_self
    rw [stream_cons, List.append_assoc] at h
    rcases List.append_eq_append_iff.mp h with ⟨rest, hrest, -⟩ | ⟨rest, rfl, -⟩
    · refine ⟨x, rest, hx, fun hnil => ?_, hrest⟩
      rw [hnil, List.append_nil] at hrest
      rw [← hrest, ← List.append_nil (F.wire x), F.read_wire_append hx] at ha
      cases ha
    · rw [F.read_wire_append hx] at ha
      cases ha

end Framing

/-! ## Up to a last element -/

namespace Chunks

variable {β : Type*} {p : β → Bool} {xs : List β}

/-- The elements up to and including the first one with the property. -/
def through (p : β → Bool) : List β → List β
  | [] => []
  | x :: xs => if p x then [x] else x :: through p xs

theorem through_append_of_forall (h : ∀ x ∈ xs, p x = false) (ys : List β) :
    through p (xs ++ ys) = xs ++ through p ys := by
  induction xs with
  | nil => rfl
  | cons x xs ih =>
    rw [List.forall_mem_cons] at h
    have hx : p x = false := h.1
    rw [List.cons_append, through, hx, if_neg Bool.false_ne_true,
      ih h.2, List.cons_append]

/-- What follows the last element does not count. -/
theorem through_append_of_exists (h : ∃ x ∈ xs, p x = true) (ys : List β) :
    through p (xs ++ ys) = through p xs := by
  induction xs with
  | nil =>
    obtain ⟨x, ⟨⟩, -⟩ := h
  | cons x xs ih =>
    rw [List.cons_append, through, through]
    split
    · rfl
    · next hx =>
      obtain ⟨y, hy, hpy⟩ := h
      rcases List.mem_cons.mp hy with rfl | hy
      · exact absurd hpy hx
      · rw [ih ⟨y, hy, hpy⟩]

theorem through_isPrefix_append (p : β → Bool) (xs ys : List β) :
    through p xs <+: through p (xs ++ ys) := by
  by_cases h : ∃ x ∈ xs, p x = true
  · exact ⟨[], by rw [List.append_nil, through_append_of_exists h]⟩
  · have hnone : ∀ x ∈ xs, p x = false := by
      intro x hx
      rw [← Bool.not_eq_true]
      exact fun hp => h ⟨x, hx, hp⟩
    rw [through_append_of_forall hnone]
    have hself := through_append_of_forall hnone []
    rw [through, List.append_nil] at hself
    rw [hself]
    exact List.prefix_append xs _

end Chunks
