import CheezyCore.XrayMux.DownlinkSteps

/-!
# From the frames of a session to its reader

`Delivered` compares the inbox of one session with the frames that `readLoop` has
handled for it. Each lemma is a step that concerns the session: of its own goroutines,
of its reader, or of `readLoop`.
-/

namespace XrayMux

open BigEndian Chunks

namespace DataFrame

/-- The frame is for the session with this id. The id of a KeepAlive frame means nothing. -/
def isFor (id : UInt16) (x : DataFrame) : Bool :=
  x.header.id = id && x.header.status ≠ statusKeepAlive

/-- An End frame, or one with the Error option. -/
def terminal (x : DataFrame) : Bool :=
  x.header.status = statusEnd || x.header.option &&& optionError ≠ 0

end DataFrame

/-- The payloads up to and including the terminal frame. -/
def payloadBytes (frames : List DataFrame) : List UInt8 :=
  (through DataFrame.terminal frames).flatMap DataFrame.payload

/-- What a stream of frames has for the session with this id. -/
def bytesFor (id : UInt16) (frames : List DataFrame) : List UInt8 :=
  payloadBytes (frames.filter (DataFrame.isFor id))

section payloadBytes

variable {frames : List DataFrame}

theorem payloadBytes_concat (h : ∀ x ∈ frames, x.terminal = false) (x : DataFrame) :
    payloadBytes (frames ++ [x]) = payloadBytes frames ++ x.payload := by
  have hone : through DataFrame.terminal [x] = [x] := by
    unfold through
    split
    · rfl
    · rfl
  have hself : through DataFrame.terminal frames = frames := by
    have happend := through_append_of_forall h []
    rwa [through, List.append_nil] at happend
  rw [payloadBytes, payloadBytes, through_append_of_forall h, hone, hself, List.flatMap_append,
    List.flatMap_singleton]

theorem payloadBytes_append (h : ∃ x ∈ frames, x.terminal = true) (more : List DataFrame) :
    payloadBytes (frames ++ more) = payloadBytes frames := by
  rw [payloadBytes, through_append_of_exists h]
  rfl

theorem payloadBytes_isPrefix (frames more : List DataFrame) :
    payloadBytes frames <+: payloadBytes (frames ++ more) := by
  obtain ⟨rest, hrest⟩ := through_isPrefix_append DataFrame.terminal frames more
  rw [payloadBytes, payloadBytes, ← hrest, List.flatMap_append]
  exact List.prefix_append _ _

theorem remoteEnding_isSome (x : DataFrame) :
    (Uplink.remoteEnding x.header).isSome = x.terminal := by
  unfold Uplink.remoteEnding DataFrame.terminal
  split
  · next herror => simp [herror]
  · next herror =>
    split
    · next hend => simp [hend]
    · next hend => simp [herror, hend]

end payloadBytes

/-- What `readLoop` is doing with a session: nothing, pushing the payload of a frame, done
with that, or waiting for the session's end. -/
inductive Engagement where
  | away
  | pushing (x : DataFrame)
  | pushed (x : DataFrame)
  | finishing

def Engagement.undelivered : Engagement → List UInt8
  | .pushing x => x.payload
  | _ => []

/-- The bytes that went into a session's pipe. -/
def Inbox.poured (b : Inbox) : List UInt8 := b.returned ++ (b.reader.held ++ b.pipe.contents)

/-- The inbox of a stream session against the frames that were handled for it. `mapped`
tells whether the session is in the map, `ended` whether the stream is at its end.

The pipe has a prefix of the frames' bytes. As long as it is open and frames are
delivered to it nothing is missing, and nothing is when the session was ended by the
peer or by the end of the stream. -/
structure Delivered (f : Flow) (b : Inbox) (mine : List DataFrame) (mapped ended : Prop)
    (e : Engagement) : Prop where
  pipe : b.pipe.Valid sessionPipeLimit
  closed : b.pipe.closed = f.finish.pastCause
  poured : b.poured <+: payloadBytes mine
  whole : b.pipe.closed = false → mapped ∨ e ≠ .away →
    b.poured ++ e.undelivered = payloadBytes mine
  calm : b.pipe.closed = false → mapped → e = .away → ∀ x ∈ mine, x.terminal = false
  current : b.pipe.closed = false → ∀ x, e = .pushing x ∨ e = .pushed x →
    ∃ before, mine = before ++ [x] ∧ ∀ y ∈ before, y.terminal = false
  remote : f.ender = some .remoteEnd →
    b.poured = payloadBytes mine ∧ ∃ x ∈ mine, x.terminal = true
  last : ended → f.opening = .reserved ∨ f.opening = .started →
    b.pipe.closed = false ∨ f.ender = some .workerClose → b.poured = payloadBytes mine
  lost : f.ender = some .failedOpen → f.opening ≠ .reserved ∧ f.opening ≠ .started
  reported : b.reported ≠ none →
    f.opening = .started ∧ b.pipe.closed = true ∧ b.pipe.chunks = [] ∧ b.reader = .idle

namespace Delivered

variable {f f' : Flow} {b b' : Inbox} {mine : List DataFrame} {mapped mapped' ended : Prop}
variable {e : Engagement} {x : DataFrame}

theorem fresh (s : SessionRef) (since : Nat) (mapped ended : Prop) :
    Delivered { toSessionRef := s } { since } [] mapped ended .away where
  pipe := SessionPipe.valid_new (by decide)
  closed := rfl
  poured := List.prefix_refl _
  whole _ _ := rfl
  calm _ _ _ := nofun
  current _ _ h := h.elim nofun nofun
  remote := nofun
  last _ _ _ := rfl
  lost := nofun
  reported h := absurd rfl h

@[simp] theorem poured_follow (f : Flow) (b : Inbox) : (b.follow f).poured = b.poured := by
  unfold Inbox.follow
  split
  · simp [Inbox.poured]
  · rfl

theorem follow_closed (h : b.pipe.closed = true → f.finish.pastCause = true) :
    (b.follow f).pipe.closed = f.finish.pastCause := by
  unfold Inbox.follow
  split
  · next hpast => rw [SessionPipe.close_closed, hpast]
  · next hpast =>
    rw [Bool.eq_false_iff.mpr hpast]
    exact Bool.eq_false_iff.mpr fun hclosed => hpast (h hclosed)

section

variable (h : Delivered f b mine mapped ended e)
include h

/-- The session goes on; its pipe is closed with its terminal cause. -/
theorem follow (honward : f.Onward f') (hmapped : mapped' → mapped)
    (hremote : f'.ender = some .remoteEnd → f.ender = some .remoteEnd)
    (hworker : f'.ender = some .workerClose → f.ender = some .workerClose ∨ f.finish = .idle)
    (hlost : f'.ender = some .failedOpen → f'.opening ≠ .reserved ∧ f'.opening ≠ .started) :
    Delivered f' (b.follow f') mine mapped' ended e := by
  have hclosed : (b.follow f').pipe.closed = f'.finish.pastCause :=
    follow_closed fun hc => honward.cause (h.closed ▸ hc)
  have hopen : (b.follow f').pipe.closed = false → b.pipe.closed = false := by
    intro hfalse
    rw [h.closed, ← Bool.not_eq_true]
    intro htrue
    rw [hclosed, honward.cause htrue] at hfalse
    cases hfalse
  refine ⟨?_, hclosed, ?_, ?_, ?_, ?_, ?_, ?_, hlost, ?_⟩
  · unfold Inbox.follow
    split
    · exact h.pipe.close _
    · exact h.pipe
  · rw [poured_follow]
    exact h.poured
  · rw [poured_follow]
    exact fun hc hm => h.whole (hopen hc) (hm.imp_left hmapped)
  · exact fun hc hm => h.calm (hopen hc) (hmapped hm)
  · exact fun hc => h.current (hopen hc)
  · rw [poured_follow]
    exact fun hr => h.remote (hremote hr)
  · rw [poured_follow]
    intro hended hopening hor
    refine h.last hended (honward.opening hopening) ?_
    rcases hor with hc | hw
    · exact .inl (hopen hc)
    · rcases hworker hw with hsame | hidle
      · exact .inr hsame
      · refine .inl ?_
        rw [h.closed, hidle]
        rfl
  · intro hreported
    have hb : b.reported ≠ none := by
      unfold Inbox.follow at hreported
      split at hreported
      · exact hreported
      · exact hreported
    obtain ⟨hstarted, hc, hchunks, hidle⟩ := h.reported hb
    refine ⟨honward.started hstarted, ?_⟩
    unfold Inbox.follow
    split
    · exact ⟨SessionPipe.close_closed _ _, by rw [SessionPipe.close_chunks, hchunks], hidle⟩
    · exact ⟨hc, hchunks, hidle⟩

/-- Leaving the map changes nothing else. -/
theorem unmap (hmapped : mapped' → mapped) : Delivered f b mine mapped' ended e where
  __ := h
  whole hc hm := h.whole hc (hm.imp_left hmapped)
  calm hc hm := h.calm hc (hmapped hm)

/-- A reader moves bytes; it neither adds nor loses one. -/
theorem inbox (hmove : InboxMove b b') : Delivered f b' mine mapped ended e := by
  have hpoured : b'.poured = b.poured := by
    cases hmove with
    | @read room _ hidle _ hheld =>
      simp only [Inbox.poured, hidle, hheld]
      rw [SessionPipe.readLocked_contents]
      rfl
    | @more room _ bytes hreader =>
      simp only [Inbox.poured, hreader, Reader.held, List.append_assoc]
      rw [SessionPipe.readLocked_contents]
    | finish hreader => simp [Inbox.poured, hreader, Reader.held]
    | packets => rfl
  have hclosed : b'.pipe.closed = b.pipe.closed := by cases hmove <;> rfl
  have hpipe : b'.pipe.Valid sessionPipeLimit := by
    cases hmove with
    | read | more => exact h.pipe.readLocked _
    | finish | packets => exact h.pipe
  refine ⟨hpipe, hclosed.trans h.closed, hpoured ▸ h.poured, ?_, ?_, ?_, hpoured ▸ h.remote, ?_,
    h.lost, ?_⟩
  · rw [hclosed, hpoured]
    exact h.whole
  · rw [hclosed]
    exact h.calm
  · rw [hclosed]
    exact h.current
  · rw [hclosed, hpoured]
    exact h.last
  · intro hreported
    cases hmove with
    | read _ hne => exact absurd (h.reported hreported).2.2.1 hne
    | more hreader =>
      have hidle := (h.reported hreported).2.2.2
      rw [hreader] at hidle
      cases hidle
    | finish =>
      obtain ⟨hstarted, hc, hchunks, -⟩ := h.reported hreported
      exact ⟨hstarted, hc, hchunks, rfl⟩
    | packets => exact h.reported hreported

theorem report (hstarted : f.opening = .started) (hidle : b.reader = .idle)
    (hchunks : b.pipe.chunks = []) (hclosed : b.pipe.closed = true) (err : Err) :
    Delivered f { b with reported := some err } mine mapped ended e where
  __ := h
  reported _ := ⟨hstarted, hclosed, hchunks, hidle⟩

end

/-- `readLoop` finds the session for a frame. -/
theorem found (h : Delivered f b mine mapped ended .away) (hended : ¬ ended) (hmapped : mapped)
    (x : DataFrame) : Delivered f b (mine ++ [x]) mapped ended (.pushing x) where
  __ := h
  poured := h.poured.trans (payloadBytes_isPrefix mine [x])
  whole hc _ := by
    have hwhole : b.poured = payloadBytes mine :=
      (List.append_nil _).symm.trans (h.whole hc (.inl hmapped))
    rw [payloadBytes_concat (h.calm hc hmapped rfl), ← hwhole]
    rfl
  calm _ _ := nofun
  current hc y hy := by
    rcases hy with hy | hy
    · cases hy
      exact ⟨mine, rfl, h.calm hc hmapped rfl⟩
    · cases hy
  remote hr := by
    obtain ⟨hpoured, hterminal⟩ := h.remote hr
    rw [payloadBytes_append hterminal]
    obtain ⟨y, hy, hty⟩ := hterminal
    exact ⟨hpoured, y, List.mem_append_left _ hy, hty⟩
  last he := absurd he hended

/-- A frame for a session that is not in the map any more. -/
theorem missed (h : Delivered f b mine mapped ended .away) (hended : ¬ ended)
    (hmapped : ¬ mapped) (x : DataFrame) : Delivered f b (mine ++ [x]) mapped ended .away where
  __ := h
  poured := h.poured.trans (payloadBytes_isPrefix mine [x])
  whole _ hm := absurd rfl (hm.resolve_left hmapped)
  calm _ hm := absurd hm hmapped
  current _ _ hy := hy.elim nofun nofun
  remote hr := by
    obtain ⟨hpoured, hterminal⟩ := h.remote hr
    rw [payloadBytes_append hterminal]
    obtain ⟨y, hy, hty⟩ := hterminal
    exact ⟨hpoured, y, List.mem_append_left _ hy, hty⟩
  last he := absurd he hended

section

variable (h : Delivered f b mine mapped ended (.pushing x))
include h

/-- The payload is in the pipe. -/
theorem push (hended : ¬ ended) {p : SessionPipe} (hne : x.payload ≠ [])
    (hwrite : b.pipe.write x.payload = some (.ok p)) :
    Delivered f { b with pipe := p } mine mapped ended (.pushed x) := by
  obtain ⟨hopen, -, hp⟩ := SessionPipe.write_ok hwrite
  have hclosed : p.closed = b.pipe.closed := by rw [hp]
  have hpoured : Inbox.poured { b with pipe := p } = b.poured ++ x.payload := by
    simp [Inbox.poured, SessionPipe.write_contents hwrite]
  have hwhole : b.poured ++ x.payload = payloadBytes mine := h.whole hopen (.inr nofun)
  refine ⟨h.pipe.write hwrite hne, hclosed.trans h.closed, ?_, ?_, fun _ _ => nofun, ?_, ?_,
    fun he => absurd he hended, h.lost, ?_⟩
  · exact ⟨[], by rw [List.append_nil, hpoured, hwhole]⟩
  · intro _ _
    rw [hpoured, hwhole]
    exact List.append_nil _
  · intro _ y hy
    refine h.current hopen y ?_
    rcases hy with hy | hy
    · cases hy
    · cases hy
      exact .inl rfl
  · intro hr
    exact ⟨hpoured.trans hwhole, (h.remote hr).2⟩
  · intro hreported
    have hshut := (h.reported hreported).2.1
    rw [hopen] at hshut
    cases hshut

/-- An empty payload needs no push. -/
theorem skip (hnil : x.payload = []) : Delivered f b mine mapped ended (.pushed x) where
  __ := h
  whole hc _ := by
    have hwhole := h.whole hc (.inr nofun)
    rwa [Engagement.undelivered, hnil] at hwhole
  calm _ _ := nofun
  current hc y hy := by
    refine h.current hc y ?_
    rcases hy with hy | hy
    · cases hy
    · cases hy
      exact .inl rfl

end

/-- `readLoop` turns away from a session whose pipe is closed. -/
theorem leave (h : Delivered f b mine mapped ended e) (hclosed : b.pipe.closed = true) :
    Delivered f b mine mapped ended .away where
  __ := h
  whole hc := absurd (hc.symm.trans hclosed) Bool.false_ne_true
  calm hc := absurd (hc.symm.trans hclosed) Bool.false_ne_true
  current hc := absurd (hc.symm.trans hclosed) Bool.false_ne_true

section

variable (h : Delivered f b mine mapped ended (.pushed x))
include h

/-- A frame that does not end the session is dealt with. -/
theorem settle (hx : x.terminal = false) : Delivered f b mine mapped ended .away where
  __ := h
  whole hc _ := h.whole hc (.inr nofun)
  calm hc _ _ := by
    obtain ⟨before, rfl, hbefore⟩ := h.current hc x (.inr rfl)
    exact Table.forall_concat hbefore hx
  current _ _ hy := hy.elim nofun nofun

/-- `readLoop` waits for an end that another goroutine runs. -/
theorem await : Delivered f b mine mapped ended .finishing where
  __ := h
  whole hc _ := h.whole hc (.inr nofun)
  calm _ _ := nofun
  current _ _ hy := hy.elim nofun nofun

/-- A terminal frame ends the session. All of its bytes are in the pipe. -/
theorem finish (hx : x.terminal = true) (hidle : f.finish = .idle) (ending : Ending) :
    Delivered (f.beginFinish .remoteEnd ending) b mine mapped ended .finishing := by
  have hopen : b.pipe.closed = false := by
    rw [h.closed, hidle]
    rfl
  have hwhole : b.poured = payloadBytes mine :=
    (List.append_nil _).symm.trans (h.whole hopen (.inr nofun))
  refine ⟨h.pipe, hopen, h.poured, ?_, fun _ _ => nofun, fun _ _ hy => hy.elim nofun nofun, ?_,
    ?_, nofun, h.reported⟩
  · intro _ _
    exact (List.append_nil _).trans hwhole
  · intro _
    obtain ⟨before, rfl, -⟩ := h.current hopen x (.inr rfl)
    exact ⟨hwhole, x, List.mem_concat_self, hx⟩
  · exact fun _ _ _ => hwhole

end

end Delivered

end XrayMux
