import Mathlib.Algebra.Order.Ring.Int
import Mathlib.Data.List.Basic

/-!
# Decoding a stream in chunks

A decoder is given by what it does with one symbol; `feed` extends this to streams. A reader
has the symbols that arrived and are not yet decoded, decodes as much of them as fits into
the caller's buffer and fetches the next chunk only when there is nothing left. Whatever the
chunks and the sizes of the buffers are, it returns what `feed` returns for the whole stream.
-/

namespace Decoding

variable {α β σ ε : Type*}

/-! ## Symbol by symbol -/

/-- Feed the symbols one after the other. A step fails at an invalid stream. -/
def feed (step : σ → α → Option (σ × List β)) : σ → List α → Option (σ × List β)
  | s, [] => some (s, [])
  | s, a :: rest =>
    match step s a with
    | none => none
    | some (s', out) => (feed step s' rest).map fun next => (next.1, out ++ next.2)

section Feed

variable {step : σ → α → Option (σ × List β)} {s s' s'' : σ} {first second : List α}
  {out : List β}

@[simp] theorem feed_nil : feed step s [] = some (s, []) := rfl

theorem feed_cons {a : α} {rest : List α} (h : step s a = some (s', out)) :
    feed step s (a :: rest) = (feed step s' rest).map fun next => (next.1, out ++ next.2) := by
  rw [feed, h]

theorem feed_append (s : σ) (first second : List α) :
    feed step s (first ++ second) = (feed step s first).bind fun middle =>
      (feed step middle.1 second).map fun next => (next.1, middle.2 ++ next.2) := by
  induction first generalizing s with
  | nil =>
    rw [List.nil_append, feed_nil, Option.bind_some]
    cases feed step s second with
    | none | some next => rfl
  | cons a rest ih =>
    rw [List.cons_append]
    cases hstep : step s a with
    | none => rw [feed, feed, hstep, Option.bind_none]
    | some next =>
      rw [feed_cons hstep, feed_cons hstep, ih]
      cases feed step next.1 rest with
      | none => rfl
      | some middle =>
        rw [Option.map_some, Option.bind_some, Option.map_map]
        congr 1
        funext last
        simp

theorem feed_append_of_some (h : feed step s first = some (s', out)) :
    feed step s (first ++ second) =
      (feed step s' second).map fun next => (next.1, out ++ next.2) := by
  rw [feed_append, h, Option.bind_some]

/-- A stream that is valid as a whole is valid in parts. -/
theorem exists_of_feed_append (h : feed step s (first ++ second) = some (s'', out)) :
    ∃ s' out₁ out₂, feed step s first = some (s', out₁) ∧ feed step s' second = some (s'', out₂) ∧
      out = out₁ ++ out₂ := by
  rw [feed_append, Option.bind_eq_some_iff] at h
  obtain ⟨⟨s', out₁⟩, hfirst, hrest⟩ := h
  obtain ⟨⟨last, out₂⟩, hsecond, heq⟩ := Option.map_eq_some_iff.mp hrest
  obtain ⟨rfl, rfl⟩ := Prod.mk.inj heq
  exact ⟨s', out₁, out₂, hfirst, hsecond, rfl⟩

end Feed

/-! ## Reading -/

/-- The symbols that arrived and are not yet decoded, and the chunks that arrive later. The
stream ends behind them. -/
structure Source (α : Type*) where
  pending : List α
  chunks : List (List α)

namespace Source

/-- Everything that is still to be decoded. -/
def unread (source : Source α) : List α := source.pending ++ source.chunks.flatten

/-- The chunk to decode, which is not empty. An empty chunk is followed by the next one. -/
def peek (source : Source α) : Option (List α × List (List α)) :=
  if source.pending ≠ [] then some (source.pending, source.chunks)
  else
    match source.chunks.dropWhile List.isEmpty with
    | [] => none
    | chunk :: rest => some (chunk, rest)

variable {source : Source α}

theorem flatten_dropWhile_isEmpty (chunks : List (List α)) :
    (chunks.dropWhile List.isEmpty).flatten = chunks.flatten := by
  induction chunks with
  | nil => rfl
  | cons chunk rest ih =>
    rw [List.dropWhile_cons]
    split
    next hempty => rw [ih, List.flatten_cons, List.isEmpty_iff.mp hempty, List.nil_append]
    next => rfl

theorem unread_of_peek {chunk : List α} {rest : List (List α)}
    (h : source.peek = some (chunk, rest)) :
    chunk ≠ [] ∧ source.unread = chunk ++ rest.flatten := by
  rw [peek] at h
  split at h
  next hpending =>
    cases h
    exact ⟨hpending, rfl⟩
  next hpending =>
    have hpending : source.pending = [] := not_not.mp hpending
    split at h <;> cases h
    next hchunks =>
      have hfirst := List.head_dropWhile_not List.isEmpty (l := source.chunks)
      refine ⟨?_, ?_⟩
      · rintro rfl
        have hne : source.chunks.dropWhile List.isEmpty ≠ [] := by
          rw [hchunks]
          exact List.cons_ne_nil _ _
        have hhead := hfirst hne
        simp [hchunks] at hhead
      · rw [unread, hpending, List.nil_append, ← flatten_dropWhile_isEmpty, hchunks,
          List.flatten_cons]

theorem unread_of_peek_none (h : source.peek = none) : source.unread = [] := by
  rw [peek] at h
  split at h
  · cases h
  next hpending =>
    split at h
    next hchunks =>
      rw [unread, not_not.mp hpending, List.nil_append, ← flatten_dropWhile_isEmpty, hchunks,
        List.flatten_nil]
    · cases h

end Source

/-- What a decoder does with a chunk. -/
structure Decoded (σ α β ε : Type*) where
  out : List β
  state : σ
  rest : List α
  error : Option ε

/-- What a read returns. -/
inductive Result (β ε : Type*) where
  | data (out : List β)
  | eof
  | failed (error : ε)
  deriving DecidableEq, Repr

def Result.values : Result β ε → List β
  | .data out => out
  | _ => []

section Read

variable (decode : σ → Nat → List α → Decoded σ α β ε) (atEof : σ → σ)

/-- The loop of a read: until a chunk yields something, an error occurs or the stream ends.
The first argument bounds the number of chunks. -/
def readLoop (size : Nat) : Nat → σ → Source α → Option (Result β ε × σ × Source α)
  | 0, _, _ => none
  | fuel + 1, s, source =>
    match source.peek with
    | none => some (.eof, atEof s, ⟨[], []⟩)
    | some (chunk, rest) =>
      let decoded := decode s size chunk
      match decoded.error with
      | some e => some (.failed e, decoded.state, ⟨decoded.rest, rest⟩)
      | none =>
        if decoded.out ≠ [] then some (.data decoded.out, decoded.state, ⟨decoded.rest, rest⟩)
        else readLoop size fuel decoded.state ⟨decoded.rest, rest⟩

def read (size : Nat) (s : σ) (source : Source α) : Option (Result β ε × σ × Source α) :=
  if size = 0 then some (.data [], s, source)
  else readLoop decode atEof size (source.unread.length + 1) s source

/-- One read after the other, each with a buffer of its own size. -/
def reads : List Nat → σ → Source α → Option (List (Result β ε) × σ × Source α)
  | [], s, source => some ([], s, source)
  | size :: sizes, s, source =>
    match read decode atEof size s source with
    | none => none
    | some (result, s', source') =>
      (reads sizes s' source').map fun next => (result :: next.1, next.2)

end Read

/-- A decoder of chunks follows the meaning of the single symbols: on a valid stream it takes
a front part of the chunk, stays within the room, and stops early only when the room is used
up. -/
def Implements (decode : σ → Nat → List α → Decoded σ α β ε)
    (step : σ → α → Option (σ × List β)) : Prop :=
  ∀ {s s' : σ} {room : Nat} {chunk : List α} {out : List β}, 0 < room →
    feed step s chunk = some (s', out) →
    ∃ consumed, chunk = consumed ++ (decode s room chunk).rest ∧
      feed step s consumed = some ((decode s room chunk).state, (decode s room chunk).out) ∧
      (decode s room chunk).out.length ≤ room ∧
      ((decode s room chunk).rest = [] ∨ (decode s room chunk).out.length = room) ∧
      (decode s room chunk).error = none

/-- A read fits into its buffer and yields something as long as there is room. -/
def Result.Fits (size : Nat) : Result β ε → Prop
  | .data out => out.length ≤ size ∧ (0 < size → out ≠ [])
  | .eof => 0 < size
  | .failed _ => False

section Correctness

variable {decode : σ → Nat → List α → Decoded σ α β ε} (atEof : σ → σ)
  {step : σ → α → Option (σ × List β)} {source : Source α} {all : List β} {size : Nat}

/-- What one read does with a valid stream. -/
inductive ReadSpec (step : σ → α → Option (σ × List β)) (size : Nat) (s : σ) (source : Source α) :
    Result β ε × σ × Source α → Prop
  | eof {s' source'} (last : σ) : 0 < size →
      feed step s source.unread = some (last, []) → source'.unread = [] →
      ReadSpec step size s source (.eof, s', source')
  | data {s' source' out} (consumed : List α) :
      source.unread = consumed ++ source'.unread → feed step s consumed = some (s', out) →
      out.length ≤ size → (0 < size → out ≠ []) →
      ReadSpec step size s source (.data out, s', source')

/-- A chunk that yields nothing is decoded before a read. -/
theorem ReadSpec.of_silent {s middle : σ} {source' : Source α} {chunk : List α}
    {r : Result β ε × σ × Source α} (hunread : source.unread = chunk ++ source'.unread)
    (hfeed : feed step s chunk = some (middle, [])) (h : ReadSpec step size middle source' r) :
    ReadSpec step size s source r := by
  cases h with
  | eof last hsize hlast hnil =>
    refine .eof last hsize ?_ hnil
    rw [hunread, feed_append_of_some hfeed, hlast, Option.map_some, List.append_nil]
  | data consumed hrest hout hlength hne =>
    refine .data (chunk ++ consumed) ?_ ?_ hlength hne
    · rw [hunread, hrest, List.append_assoc]
    · rw [feed_append_of_some hfeed, hout, Option.map_some, List.nil_append]

theorem readLoop_spec (himpl : Implements decode step) {fuel : Nat} (hsize : 0 < size) {s last : σ}
    (hfuel : source.unread.length < fuel) (h : feed step s source.unread = some (last, all)) :
    ∃ r, readLoop decode atEof size fuel s source = some r ∧ ReadSpec step size s source r := by
  induction fuel generalizing s source all with
  | zero => exact absurd hfuel (Nat.not_lt_zero _)
  | succ fuel ih =>
    rw [readLoop]
    cases hpeek : source.peek with
    | none =>
      have hunread := Source.unread_of_peek_none hpeek
      refine ⟨_, rfl, .eof s hsize ?_ rfl⟩
      rw [hunread, feed_nil]
    | some front =>
      obtain ⟨chunk, rest⟩ := front
      obtain ⟨hchunk, hunread⟩ := Source.unread_of_peek hpeek
      rw [hunread] at h
      obtain ⟨middle, out₁, out₂, hfirst, -, -⟩ := exists_of_feed_append h
      obtain ⟨consumed, hsplit, hfeed, hlength, hstop, herror⟩ := himpl hsize hfirst
      simp only [herror]
      have hleft : source.unread =
          consumed ++ Source.unread ⟨(decode s size chunk).rest, rest⟩ := by
        rw [hunread, Source.unread, ← List.append_assoc, ← hsplit]
      split
      next hne => exact ⟨_, rfl, .data consumed hleft hfeed hlength fun _ => hne⟩
      next hnil =>
        have hnil := not_not.mp hnil
        rw [hnil] at hfeed hstop
        have hall : (decode s size chunk).rest = [] := by
          obtain hrest | hfull := hstop
          · exact hrest
          · exact absurd hfull (Nat.ne_of_lt hsize)
        rw [hall, List.append_nil] at hsplit
        have hpos : 0 < chunk.length := List.length_pos_of_ne_nil hchunk
        rw [← hunread, hleft] at h
        obtain ⟨middle', out₁, out₂, hfirst, hlast, -⟩ := exists_of_feed_append h
        cases hfeed.symm.trans hfirst
        obtain ⟨r, hloop, hr⟩ := ih (by
          rw [hleft, ← hsplit, List.length_append] at hfuel
          omega) hlast
        exact ⟨r, hloop, hr.of_silent hleft hfeed⟩

theorem read_spec (himpl : Implements decode step) (size : Nat) {s last : σ}
    (h : feed step s source.unread = some (last, all)) :
    ∃ r, read decode atEof size s source = some r ∧ ReadSpec step size s source r := by
  rw [read]
  split
  next hsize =>
    subst hsize
    exact ⟨_, rfl, .data [] rfl feed_nil (Nat.le_refl 0) nofun⟩
  next hsize => exact readLoop_spec atEof himpl (Nat.pos_of_ne_zero hsize) (Nat.lt_succ_self _) h

/-- Reads with buffers of any sizes return a valid stream's values in order: each read fits
into its buffer, the end of the stream is reported behind all values, and as many reads with
room as there are values return all of them. -/
structure Delivers (sizes : List Nat) (results : List (Result β ε)) (all : List β) : Prop where
  fits : List.Forall₂ Result.Fits sizes results
  values : results.flatMap Result.values <+: all
  eof : ∀ before after, results = before ++ .eof :: after → before.flatMap Result.values = all
  complete : all.length ≤ (sizes.filter (0 < ·)).length → results.flatMap Result.values = all

theorem Delivers.cons {sizes : List Nat} {out : List β} {results : List (Result β ε)}
    (hfits : Result.Fits (ε := ε) size (.data out)) (h : Delivers sizes results all) :
    Delivers (size :: sizes) (.data out :: results) (out ++ all) where
  fits := .cons hfits h.fits
  values := by
    exact (List.prefix_append_right_inj out).mpr h.values
  eof := by
    intro before after heq
    cases before with
    | nil => cases heq
    | cons first before =>
      obtain ⟨rfl, hrest⟩ := List.cons_eq_cons.mp heq
      rw [List.flatMap_cons, h.eof before after hrest, Result.values]
  complete := by
    intro hlength
    rw [List.flatMap_cons, h.complete, Result.values]
    rw [List.length_append, List.filter_cons] at hlength
    split at hlength
    next hsize =>
      have hpos := List.length_pos_of_ne_nil (hfits.2 (of_decide_eq_true hsize))
      rw [List.length_cons] at hlength
      omega
    next => omega

/-- Behind the end of the stream there is nothing more. -/
theorem Delivers.cons_eof {sizes : List Nat} {results : List (Result β ε)} (hsize : 0 < size)
    (h : Delivers sizes results []) : Delivers (size :: sizes) (.eof :: results) [] where
  fits := .cons hsize h.fits
  values := h.values
  eof := by
    intro before after heq
    cases before with
    | nil => rfl
    | cons first before =>
      obtain ⟨rfl, hrest⟩ := List.cons_eq_cons.mp heq
      exact h.eof before after hrest
  complete := fun _ => List.prefix_nil.mp h.values

theorem reads_delivers (himpl : Implements decode step) (sizes : List Nat) {s last : σ}
    (h : feed step s source.unread = some (last, all)) :
    ∃ results s' source', reads decode atEof sizes s source = some (results, s', source') ∧
      Delivers sizes results all := by
  induction sizes generalizing s source last all with
  | nil =>
    refine ⟨[], s, source, rfl, .nil, List.nil_prefix, ?_, ?_⟩
    · intro before after heq
      simp at heq
    · intro hlength
      exact (List.eq_nil_of_length_eq_zero (Nat.le_zero.mp hlength)).symm
  | cons size sizes ih =>
    obtain ⟨r, hread, hr⟩ := read_spec atEof himpl size h
    simp only [reads, hread]
    cases hr with
    | @eof s' source' last' hsize hlast hnil =>
      cases h.symm.trans hlast
      have hrest : feed step s' source'.unread = some (s', []) := by rw [hnil, feed_nil]
      obtain ⟨results, s'', source'', hreads, hdelivers⟩ := ih hrest
      exact ⟨.eof :: results, s'', source'', by rw [hreads]; rfl, hdelivers.cons_eof hsize⟩
    | @data s' source' out consumed hunread hout hlength hne =>
      rw [hunread] at h
      obtain ⟨middle, out₁, rest, hfirst, hrest, rfl⟩ := exists_of_feed_append h
      cases hout.symm.trans hfirst
      obtain ⟨results, s'', source'', hreads, hdelivers⟩ := ih hrest
      exact ⟨.data out :: results, s'', source'', by rw [hreads]; rfl,
        hdelivers.cons ⟨hlength, hne⟩⟩

end Correctness

end Decoding
