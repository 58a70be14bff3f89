import CheezyCore.XrayMux.PoolSteps

/-!
# Independence of concurrent calls

A soft-full dial is made once for all calls that need a carrier under one key at the
same time. It is made with the context of the first of them, its leader, and whatever
it returns, other than the two limit errors, is returned by every call that joined.
When the leader's context ends, calls with live contexts fail with its cancellation.

`unshared` excludes that on a step: no call shares a dial that its leader's context
ended. Then every failed call is explained: by its own context, by its closed pool, or
by a physical dial made for it that failed by itself.
-/

namespace XrayMux

/-- The error that a call carries out of a dial path. -/
def Pc.error : Pc → Option Err
  | .undo _ err => some err
  | .rollBack _ err => some err
  | .unlock _ (.error err) => some err
  | .land _ (.error err) => some err
  | _ => none

def Path.leads : Path → Option Nat
  | .grow => none
  | .flight f => some f

/-- The flight that a call leads. -/
def Pc.leads : Pc → Option Nat
  | .lock path => path.leads
  | .check path => path.leads
  | .dial d => d.path.leads
  | .undo d _ => d.path.leads
  | .rollBack d _ => d.path.leads
  | .install d _ => d.path.leads
  | .discard d _ => d.path.leads
  | .unlock path _ => path.leads
  | .land f _ => some f
  | _ => none

namespace System

def Closed (s : System) (p : Nat) : Prop := ∃ pool, s.pools[p]? = some pool ∧ pool.closed = true

/-- The call joined a flight whose physical dial failed with this error. -/
def SharedDial (s : System) (c : Nat) (err : Err) : Prop :=
  ∃ (f : Nat) (fl : Flight), s.flights[f]? = some fl ∧ c ∈ fl.joiners ∧
    fl.result = some (.error err) ∧ (fl.leader, err) ∈ s.dialErrors

/-- Why a call of `dialSession` may fail: its own context ended, its pool was closed, or
a physical dial made for it failed, and no context's end was the reason. -/
inductive Explained (s : System) (c : Nat) (caller : Caller) (err : Err) : Prop
  | context (own : err.context = some c) (ended : caller.done = true)
  | closed (isClosed : err = .netClosed) (pool : s.Closed caller.pool)
  | dial (made : (c, err) ∈ s.dialErrors) (reason : err.context = none)
  | sharedDial (shared : s.SharedDial c err) (reason : err.context = none)

def Independent (s : System) : Prop :=
  ∀ (c : Nat) (caller : Caller) (err : Err), s.callers[c]? = some caller →
    caller.pc = .failed err → Explained s c caller err

/-- Nobody joined the flight of this path. -/
def alone (s : System) (path : Path) : Bool :=
  path.leads.all fun f => (s.flights[f]?).all fun fl => fl.joiners.isEmpty

/-- The end of its leader's context is what the flight is about to return. -/
def leaderCancelled (s : System) (f : Nat) : Bool :=
  (s.flights[f]?).any fun fl => (s.callers[fl.leader]?).any fun leader =>
    leader.pc.error.any fun err => err.context.isSome

/-- The condition on a step: a dial ended by its leader's context is not shared, by
calls that joined before or after its end, and an immediate New frame does not fail. -/
def unshared (s : System) : Action → Bool
  | .advance c answer =>
    (s.callers[c]?).all fun caller =>
      match caller.pc with
      | .dial d => answer.dial.all fun err => err.context = none || s.alone d.path
      | .dialGroup =>
        (s.flying caller.pool (endpointKey answer.key)).all fun f => !s.leaderCancelled f
      | .openSession _ _ =>
        answer.newFrame = none ||
          (s.pools[caller.pool]?).all fun pool => !immediate caller pool
      | _ => true
  | _ => true

variable {s s' : System} {c : Nat} {caller caller' : Caller} {pool pool' : Pool}
variable {answer : Answer} {t : Turn} {a : Action} {err : Err} {fl : Flight} {f : Nat}

/-! ## What later states keep -/

/-- A flight over time. -/
structure Prolongs (fl fl' : Flight) : Prop where
  leader : fl'.leader = fl.leader
  pool : fl'.pool = fl.pool
  joiners : ∀ i ∈ fl.joiners, i ∈ fl'.joiners
  result : ∀ result, fl.result = some result → fl'.result = some result

theorem Prolongs.refl (fl : Flight) : Prolongs fl fl := ⟨rfl, rfl, fun _ h => h, fun _ h => h⟩

structure Later (s s' : System) : Prop where
  closed : ∀ p, s.Closed p → s'.Closed p
  dialErrors : ∀ e ∈ s.dialErrors, e ∈ s'.dialErrors
  flights : ∀ (f : Nat) (fl : Flight), s.flights[f]? = some fl →
    ∃ fl', s'.flights[f]? = some fl' ∧ Prolongs fl fl'

theorem Explained.later (h : Explained s c caller err) (later : Later s s')
    (hpool : caller'.pool = caller.pool) (hdone : caller.done = true → caller'.done = true) :
    Explained s' c caller' err := by
  cases h with
  | context own ended => exact .context own (hdone ended)
  | closed isClosed pool => exact .closed isClosed (hpool ▸ later.closed _ pool)
  | dial made reason => exact .dial (later.dialErrors _ made) reason
  | sharedDial shared reason =>
    obtain ⟨f, fl, hfl, hjoined, hresult, hdial⟩ := shared
    obtain ⟨fl', hfl', hprolongs⟩ := later.flights f fl hfl
    refine .sharedDial ⟨f, fl', hfl', hprolongs.joiners c hjoined,
      hprolongs.result _ hresult, ?_⟩ reason
    rw [hprolongs.leader]
    exact later.dialErrors _ hdial

theorem commit_flights (s : System) (c : Nat) (caller : Caller) (t : Turn) :
    (s.commit c caller t).flights =
      match t.effect with
      | .fly key => s.flights ++ [{ pool := caller.pool, key, leader := c }]
      | .join f => s.flights.modify f fun fl => { fl with joiners := fl.joiners ++ [c] }
      | .land f result => s.flights.modify f fun fl => { fl with result }
      | _ => s.flights := by
  unfold commit
  cases t.effect <;> rfl

/-- Old flights go on, unless one that has a result were to land again. -/
theorem flights_later
    (landing : ∀ f result, t.effect = .land f result →
      ∀ fl, s.flights[f]? = some fl → fl.result = none)
    (f : Nat) (fl : Flight) (hfl : s.flights[f]? = some fl) :
    ∃ fl', (s.commit c caller t).flights[f]? = some fl' ∧ Prolongs fl fl' := by
  rw [commit_flights]
  cases heffect : t.effect with
  | fly key =>
    refine ⟨fl, ?_, .refl fl⟩
    exact Table.getElem?_append hfl _
  | join g =>
    refine ⟨_, Table.getElem?_modify_some g _ hfl, ?_⟩
    split
    · exact ⟨rfl, rfl, fun _ h => List.mem_append_left _ h, fun _ h => h⟩
    · exact .refl fl
  | land g result =>
    refine ⟨_, Table.getElem?_modify_some g _ hfl, ?_⟩
    split
    · next hg =>
      have hnone := landing g result heffect fl (hg ▸ hfl)
      refine ⟨rfl, rfl, fun _ h => h, fun _ h => ?_⟩
      rw [hnone] at h
      cases h
    · exact .refl fl
  | _ => exact ⟨fl, hfl, .refl fl⟩

section

variable {pc : Pc} (h : Turns s c caller pool answer pc t)
include h

theorem Turns.later (home : s.pools[caller.pool]? = some pool)
    (landing : ∀ f result, t.effect = .land f result →
      ∀ fl, s.flights[f]? = some fl → fl.result = none) : Later s (s.commit c caller t) where
  closed p hp := by
    obtain ⟨old, hold, hclosed⟩ := hp
    rw [Closed, commit_pools]
    by_cases hpool : caller.pool = p
    · subst hpool
      rw [home] at hold
      cases hold
      exact ⟨t.pool, List.getElem?_set_self (Table.lt_length home),
        h.closed.trans hclosed⟩
    · exact ⟨old, by rw [List.getElem?_set_ne hpool]; exact hold, hclosed⟩
  dialErrors e he := by
    unfold commit
    cases t.effect with
    | dialError err => exact List.mem_append_left _ he
    | _ => exact he
  flights f fl hfl := flights_later landing f fl hfl

end

/-! ## Calls and flights -/

/-- Why a call may carry an error out of a dial path that it runs itself. -/
def Carries (s : System) (c : Nat) (caller : Caller) (err : Err) : Prop :=
  err.isLimit = true ∨ (err.context = some c ∧ caller.done = true) ∨
    (err = .netClosed ∧ s.Closed caller.pool) ∨ ((c, err) ∈ s.dialErrors ∧ err.context = none)

/-- The invariant of one call. -/
structure CallOk (s : System) (c : Nat) (caller : Caller) : Prop where
  carried : ∀ err, caller.pc.error = some err → Carries s c caller err
  leading : ∀ f, caller.pc.leads = some f →
    ∃ fl, s.flights[f]? = some fl ∧ fl.leader = c ∧ fl.pool = caller.pool ∧ fl.result = none ∧
      ∀ err, caller.pc.error = some err → err.context ≠ none → fl.joiners = []
  joined : ∀ f, caller.pc = .joined f →
    ∃ fl, s.flights[f]? = some fl ∧ c ∈ fl.joiners ∧ fl.pool = caller.pool
  discards : ∀ d w, caller.pc = .discard d w → s.Closed caller.pool
  failed : ∀ err, caller.pc = .failed err → Explained s c caller err

/-- The invariant of one flight: an error that others share is a limit, a closed pool or
the leader's dial failing by itself. -/
def FlightOk (s : System) (fl : Flight) : Prop :=
  ∀ err, fl.result = some (.error err) →
    err.isLimit = true ∨ fl.joiners = [] ∨ (err = .netClosed ∧ s.Closed fl.pool) ∨
      ((fl.leader, err) ∈ s.dialErrors ∧ err.context = none)

structure Accountable (s : System) : Prop where
  calls : ∀ (c : Nat) (caller : Caller), s.callers[c]? = some caller → CallOk s c caller
  flights : ∀ (f : Nat) (fl : Flight), s.flights[f]? = some fl → FlightOk s fl

theorem Carries.later (h : Carries s c caller err) (later : Later s s')
    (hpool : caller'.pool = caller.pool) (hdone : caller.done = true → caller'.done = true) :
    Carries s' c caller' err := by
  rcases h with hlimit | ⟨hown, hended⟩ | ⟨herr, hclosed⟩ | ⟨hdial, hreason⟩
  · exact .inl hlimit
  · exact .inr (.inl ⟨hown, hdone hended⟩)
  · exact .inr (.inr (.inl ⟨herr, hpool ▸ later.closed _ hclosed⟩))
  · exact .inr (.inr (.inr ⟨later.dialErrors _ hdial, hreason⟩))

theorem Carries.explained (h : Carries s c caller err) (hlimit : err.isLimit = false) :
    Explained s c caller err := by
  rcases h with h | ⟨hown, hended⟩ | ⟨herr, hclosed⟩ | ⟨hdial, hreason⟩
  · rw [hlimit] at h
    cases h
  · exact .context hown hended
  · exact .closed herr hclosed
  · exact .dial hdial hreason

theorem FlightOk.later (h : FlightOk s fl) (later : Later s s') : FlightOk s' fl := by
  intro err herr
  rcases h err herr with hlimit | hnone | ⟨hclosedErr, hclosed⟩ | ⟨hdial, hreason⟩
  · exact .inl hlimit
  · exact .inr (.inl hnone)
  · exact .inr (.inr (.inl ⟨hclosedErr, later.closed _ hclosed⟩))
  · exact .inr (.inr (.inr ⟨later.dialErrors _ hdial, hreason⟩))

theorem callOk_of_plain (h : caller.pc.plain = true) : CallOk s c caller := by
  obtain ⟨p, entry, done, pc⟩ := caller
  cases pc with
  | lock path =>
    cases path with
    | grow => exact ⟨nofun, nofun, nofun, nofun, nofun⟩
    | flight f => cases h
  | top | wantGrow | dialGroup | tryReserve | reserve | openSession | waitForSlot | asleep
  | opened => exact ⟨nofun, nofun, nofun, nofun, nofun⟩
  | _ => cases h

theorem callOk_of_failed (hpc : caller.pc = .failed err) (h : Explained s c caller err) :
    CallOk s c caller := by
  obtain ⟨p, entry, done, pc⟩ := caller
  cases hpc
  refine ⟨nofun, nofun, nofun, nofun, fun err' herr => ?_⟩
  cases herr
  exact h

/-- A call after a dial path of its own or of another call. -/
theorem callOk_after {result : Dialed}
    (h : ∀ err, result = .error err → err.isLimit = false →
      Explained s c { caller with pc := .failed err } err) :
    CallOk s c { caller with pc := afterGrow result } ∧
      CallOk s c { caller with pc := afterSoftFull result } :=
  afterDial (P := fun pc => CallOk s c { caller with pc }) (fun _ _ => callOk_of_plain rfl)
    (fun _ => callOk_of_plain rfl) fun err herr hlimit => callOk_of_failed rfl (h err herr hlimit)

/-! ## One turn, seen by the other calls -/

/-- What a turn does to flights, as far as their other members depend on it. -/
structure Tactful (s : System) (c : Nat) (t : Turn) : Prop where
  join : ∀ f, t.effect = .join f → s.leaderCancelled f = false
  land : ∀ f result, t.effect = .land f result →
    ∃ fl, s.flights[f]? = some fl ∧ fl.leader = c ∧ fl.result = none

theorem Tactful.landing (h : Tactful s c t) :
    ∀ f result, t.effect = .land f result → ∀ fl, s.flights[f]? = some fl → fl.result = none := by
  intro f result heffect fl hfl
  obtain ⟨fl', hfl', -, hnone⟩ := h.land f result heffect
  rw [hfl] at hfl'
  cases hfl'
  exact hnone

/-- A call goes on leading its flight while another call takes a turn. -/
theorem CallOk.leading_other {i : Nat} {other : Caller} (h : CallOk s i other)
    (hcall : s.callers[i]? = some other) (hne : c ≠ i) (tactful : Tactful s c t)
    (hleads : other.pc.leads = some f) :
    ∃ fl, (s.commit c caller t).flights[f]? = some fl ∧ fl.leader = i ∧ fl.pool = other.pool ∧
      fl.result = none ∧ ∀ err, other.pc.error = some err → err.context ≠ none →
        fl.joiners = [] := by
  obtain ⟨fl, hfl, hleader, hpool, hresult, halone⟩ := h.leading f hleads
  rw [commit_flights]
  cases heffect : t.effect with
  | fly key =>
    refine ⟨fl, ?_, hleader, hpool, hresult, halone⟩
    exact Table.getElem?_append hfl _
  | join g =>
    refine ⟨_, Table.getElem?_modify_some g _ hfl, ?_⟩
    split
    · next hg =>
      refine ⟨hleader, hpool, hresult, fun err herr hctx => ?_⟩
      have hcancelled : s.leaderCancelled f = true := by
        simp [leaderCancelled, hfl, hleader, hcall, herr, Option.isSome_iff_ne_none.mpr hctx]
      rw [← hg, tactful.join g heffect] at hcancelled
      cases hcancelled
    · exact ⟨hleader, hpool, hresult, halone⟩
  | land g result =>
    obtain ⟨landed, hlanded, hmine, -⟩ := tactful.land g result heffect
    have hg : g ≠ f := by
      rintro rfl
      rw [hfl] at hlanded
      cases hlanded
      exact hne (hmine.symm.trans hleader)
    refine ⟨fl, ?_, hleader, hpool, hresult, halone⟩
    rw [Table.getElem?_modify_some g _ hfl, if_neg hg]
  | _ => exact ⟨fl, hfl, hleader, hpool, hresult, halone⟩

theorem CallOk.other {i : Nat} {other : Caller} (h : CallOk s i other)
    (hcall : s.callers[i]? = some other) (hne : c ≠ i) (tactful : Tactful s c t)
    (later : Later s (s.commit c caller t)) : CallOk (s.commit c caller t) i other where
  carried err herr := (h.carried err herr).later later rfl id
  leading f hf := h.leading_other hcall hne tactful hf
  joined f hf := by
    obtain ⟨fl, hfl, hmem, hpool⟩ := h.joined f hf
    obtain ⟨fl', hfl', hprolongs⟩ := later.flights f fl hfl
    exact ⟨fl', hfl', hprolongs.joiners i hmem, hprolongs.pool.trans hpool⟩
  discards d w hd := later.closed _ (h.discards d w hd)
  failed err herr := (h.failed err herr).later later rfl id

section Along

variable {pc : Pc} (h : CallOk s c caller) (later : Later s s') (hflights : s'.flights = s.flights)
  (hleads : pc.leads = caller.pc.leads) (hjoined : ∀ f, pc ≠ .joined f)
  (hdiscards : ∀ d w, pc = .discard d w → s.Closed caller.pool) (hfailed : ∀ err, pc ≠ .failed err)
include h later hflights hleads hjoined hdiscards hfailed

/-- A call that stays in its dial path and leaves the flights alone. -/
theorem CallOk.along
    (carried : ∀ err, pc.error = some err → Carries s' c { caller with pc } err ∧
      (err.context ≠ none → caller.pc.error = some err ∨
        ∀ f fl, caller.pc.leads = some f → s.flights[f]? = some fl → fl.joiners = [])) :
    CallOk s' c { caller with pc } where
  carried err herr := (carried err herr).1
  leading f hf := by
    have hf' : caller.pc.leads = some f := hleads.symm.trans hf
    obtain ⟨fl, hfl, hleader, hpool, hresult, halone⟩ := h.leading f hf'
    refine ⟨fl, hflights ▸ hfl, hleader, hpool, hresult, fun err herr hctx => ?_⟩
    rcases (carried err herr).2 hctx with hbefore | hnobody
    · exact halone err hbefore hctx
    · exact hnobody f fl hf' hfl
  joined f hf := absurd hf (hjoined f)
  discards d w hd := later.closed _ (hdiscards d w hd)
  failed err herr := absurd herr (hfailed err)

theorem CallOk.along_quiet (herror : pc.error = none) : CallOk s' c { caller with pc } := by
  refine h.along later hflights hleads hjoined hdiscards hfailed fun err herr => ?_
  rw [herror] at herr
  cases herr

theorem CallOk.along_same (herror : pc.error = caller.pc.error) :
    CallOk s' c { caller with pc } := by
  refine h.along later hflights hleads hjoined hdiscards hfailed fun err herr => ?_
  rw [herror] at herr
  exact ⟨(h.carried err herr).later later rfl id, fun _ => .inl herr⟩

end Along

/-! ## One turn, seen by the call that takes it -/

theorem flying_eq_some {p : Nat} {key : String} (h : s.flying p key = some f) :
    ∃ fl, s.flights[f]? = some fl ∧ fl.pool = p ∧ fl.result = none := by
  obtain ⟨hlt, hfl, -⟩ := List.findIdx?_eq_some_iff_getElem.mp h
  simp only [decide_eq_true_eq] at hfl
  exact ⟨_, List.getElem?_eq_getElem hlt, hfl.1, hfl.2.2⟩

theorem Ended.explained (h : Ended c caller pool err) (home : s.pools[caller.pool]? = some pool) :
    Explained s c caller err := by
  rcases h with ⟨hown, hended⟩ | ⟨herr, hclosed⟩
  · exact .context hown hended
  · exact .closed herr ⟨pool, home, hclosed⟩

/-- The failed physical dial of this turn is one that the call made. -/
theorem carries_dialError {d : Dial} (hmay : dialable c caller err = true) :
    Carries (s.commit c caller { pool, pc := .undo d err, effect := .dialError err }) c
      { caller with pc := .undo d err } err := by
  simp only [dialable, Bool.and_eq_true, Bool.or_eq_true, decide_eq_true_eq] at hmay
  rcases hmay.2 with hnone | ⟨hown, hdone⟩
  · exact .inr (.inr (.inr ⟨List.mem_concat_self, hnone⟩))
  · exact .inr (.inl ⟨hown, hdone⟩)

theorem CallOk.received (h : CallOk s c caller) (hpc : caller.pc = .joined f)
    (hfl : s.flights[f]? = some fl) (hok : FlightOk s fl) (hresult : fl.result = some (.error err))
    (hlimit : err.isLimit = false) : Explained s c caller err := by
  obtain ⟨fl', hfl', hmem, hpool⟩ := h.joined f hpc
  rw [hfl] at hfl'
  cases hfl'
  rcases hok err hresult with h | hnobody | ⟨herr, hclosed⟩ | ⟨hdial, hreason⟩
  · rw [hlimit] at h
    cases h
  · rw [hnobody] at hmem
    cases hmem
  · exact .closed herr (hpool ▸ hclosed)
  · exact .sharedDial ⟨f, fl, hfl, hmem, hresult, hdial⟩ hreason

theorem CallOk.self (h : CallOk s c caller)
    (hflights : ∀ (f : Nat) (fl : Flight), s.flights[f]? = some fl → FlightOk s fl)
    (call : s.callers[c]? = some caller) (home : s.pools[caller.pool]? = some pool)
    (ok : s.unshared (.advance c answer) = true)
    (turns : Turns s c caller pool answer caller.pc t) (later : Later s (s.commit c caller t)) :
    CallOk (s.commit c caller t) c { caller with pc := t.pc } := by
  generalize hpc : caller.pc = pc at turns
  have hleads : pc.leads = caller.pc.leads := (congrArg Pc.leads hpc).symm
  have herror : pc.error = caller.pc.error := (congrArg Pc.error hpc).symm
  cases turns with
  | wander _ there => exact callOk_of_plain there
  | giveUp _ _ why => exact callOk_of_failed rfl ((why.explained home).later later rfl id)
  | reserve => exact callOk_of_plain rfl
  | abandon _ himmediate hfailed =>
    have hsent : answer.newFrame = none := by simpa [unshared, call, hpc, home, himmediate] using ok
    rw [hsent] at hfailed
    cases hfailed
  | @refuse path pool' err _ why reason =>
    refine h.along later rfl hleads nofun nofun nofun fun err' herr => ?_
    cases herr
    refine ⟨?_, absurd reason⟩
    rcases why with hlimit | ⟨herr, hclosed⟩
    · exact .inl hlimit
    · exact .inr (.inr (.inl ⟨herr, later.closed _ ⟨pool, home, hclosed⟩⟩))
  | @dialError d err hdial hmay =>
    refine h.along later rfl hleads nofun nofun nofun fun err' herr => ?_
    cases herr
    refine ⟨carries_dialError hmay, fun hctx => .inr fun f fl hleads hfl => ?_⟩
    have halone : s.alone d.path = true := by simpa [unshared, call, hpc, hdial, hctx] using ok
    rw [hpc] at hleads
    have hpath : d.path.leads = some f := hleads
    simpa [alone, hpath, hfl] using halone
  | undo | skipUndo | rollBack => exact h.along_same later rfl hleads nofun nofun nofun herror
  | late hclosed =>
    exact h.along_quiet later rfl hleads nofun (fun _ _ _ => ⟨pool, home, hclosed⟩) nofun rfl
  | discard =>
    exact h.along_quiet later rfl hleads nofun (fun _ _ _ => h.discards _ _ hpc) nofun rfl
  | discarded =>
    refine h.along later rfl hleads nofun nofun nofun fun err' herr => ?_
    cases herr
    have hclosed := later.closed _ (h.discards _ _ hpc)
    exact ⟨.inr (.inr (.inl ⟨rfl, hclosed⟩)), absurd rfl⟩
  | unlock =>
    refine (callOk_after fun err herr hlimit => ?_).1
    subst herr
    exact ((h.carried err herror.symm).explained hlimit).later later rfl id
  | @leave f result =>
    refine h.along_same later rfl hleads nofun nofun nofun (Eq.trans ?_ herror)
    cases result with
    | worker w | error err => rfl
  | land =>
    refine (callOk_after fun err herr hlimit => ?_).2
    subst herr
    exact ((h.carried err herror.symm).explained hlimit).later later rfl id
  | @join f hflying =>
    obtain ⟨fl, hfl, hpool, -⟩ := flying_eq_some hflying
    refine ⟨nofun, nofun, fun g hg => ?_, nofun, nofun⟩
    cases hg
    refine ⟨_, Table.getElem?_modify_some f _ hfl, ?_⟩
    rw [if_pos rfl]
    exact ⟨List.mem_concat_self, hpool⟩
  | fly =>
    refine ⟨nofun, fun g hg => ?_, nofun, nofun, nofun⟩
    cases hg
    refine ⟨_, List.getElem?_concat_length, rfl, rfl, rfl, nofun⟩
  | receive hfl hresult =>
    refine (callOk_after fun err herr hlimit => ?_).2
    subst herr
    exact (h.received hpc hfl (hflights _ _ hfl) hresult hlimit).later later rfl id
  | _ => exact h.along_quiet later rfl hleads nofun nofun nofun rfl

/-! ## Runs -/

theorem Accountable.tactful (h : Accountable s) (call : s.callers[c]? = some caller)
    (ok : s.unshared (.advance c answer) = true)
    (turns : Turns s c caller pool answer caller.pc t) : Tactful s c t := by
  generalize hpc : caller.pc = pc at turns
  cases turns with
  | join hflying =>
    refine ⟨fun f hf => ?_, nofun⟩
    cases hf
    simpa [unshared, call, hpc, hflying] using ok
  | land =>
    refine ⟨nofun, fun f result hf => ?_⟩
    cases hf
    obtain ⟨fl, hfl, hleader, -, hresult, -⟩ := (h.calls c caller call).leading _ (by rw [hpc]; rfl)
    exact ⟨fl, hfl, hleader, hresult⟩
  | _ => exact ⟨nofun, nofun⟩

theorem FlightOk.landed {result : Dialed} (h : CallOk s c caller) (hpc : caller.pc = .land f result)
    (hfl : s.flights[f]? = some fl) (later : Later s s') :
    FlightOk s' { fl with result := some result } := by
  obtain ⟨fl', hfl', hleader, hpool, -, halone⟩ := h.leading f (by rw [hpc]; rfl)
  rw [hfl] at hfl'
  cases hfl'
  rintro err ⟨⟩
  have herror : caller.pc.error = some err := by rw [hpc]; rfl
  rcases h.carried err herror with hlimit | ⟨hown, -⟩ | ⟨herr, hclosed⟩ | ⟨hdial, hreason⟩
  · exact .inl hlimit
  · exact .inr (.inl (halone err herror (by rw [hown]; nofun)))
  · exact .inr (.inr (.inl ⟨herr, later.closed _ (hpool ▸ hclosed)⟩))
  · refine .inr (.inr (.inr ⟨later.dialErrors _ ?_, hreason⟩))
    rw [hleader]
    exact hdial

theorem Accountable.flights_turn (h : Accountable s) (call : s.callers[c]? = some caller)
    (turns : Turns s c caller pool answer caller.pc t) (later : Later s (s.commit c caller t))
    (f : Nat) (fl : Flight) (hfl : (s.commit c caller t).flights[f]? = some fl) :
    FlightOk (s.commit c caller t) fl := by
  have same : ∀ {fl}, s.flights[f]? = some fl → FlightOk (s.commit c caller t) fl :=
    fun hold => (h.flights f _ hold).later later
  generalize hpc : caller.pc = pc at turns
  cases turns with
  | join hflying =>
    obtain ⟨old, hold, ⟨-, rfl⟩ | ⟨rfl, rfl⟩⟩ := Table.getElem?_modify_cases hfl
    · exact same hold
    · obtain ⟨fl, hfl, -, hnone⟩ := flying_eq_some hflying
      rw [hold] at hfl
      cases hfl
      intro err herr
      rw [show old.result = none from hnone] at herr
      cases herr
  | fly =>
    rcases Table.getElem?_concat_cases hfl with hold | ⟨-, rfl⟩
    · exact same hold
    · exact nofun
  | land =>
    obtain ⟨old, hold, ⟨-, rfl⟩ | ⟨rfl, rfl⟩⟩ := Table.getElem?_modify_cases hfl
    · exact same hold
    · exact FlightOk.landed (h.calls c caller call) hpc hold later
  | _ => exact same hfl

theorem Stirs.closed (h : Stirs pool pool') (hclosed : pool.closed = true) :
    pool'.closed = true := by
  cases h with
  | signal => exact hclosed
  | close =>
    rw [Pool.close, if_pos hclosed]
    exact hclosed

theorem Passes.later (h : Passes s s') : Later s s' where
  closed p hp := by
    obtain ⟨pool, hpool, hclosed⟩ := hp
    have hlt : p < s'.pools.length := h.count ▸ (Table.lt_length hpool)
    obtain ⟨old, hold, hcases⟩ := h.pools p _ (List.getElem?_eq_getElem hlt)
    rw [hpool] at hold
    cases hold
    refine ⟨_, List.getElem?_eq_getElem hlt, ?_⟩
    rcases hcases with heq | hstirs
    · rw [heq]
      exact hclosed
    · exact hstirs.closed hclosed
  dialErrors e he := by
    rw [h.dialErrors]
    exact he
  flights f fl hfl := ⟨fl, by rw [h.flights]; exact hfl, .refl fl⟩

theorem Accountable.turn (h : Accountable s) (call : s.callers[c]? = some caller)
    (home : s.pools[caller.pool]? = some pool) (ok : s.unshared (.advance c answer) = true)
    (turns : Turns s c caller pool answer caller.pc t) : Accountable (s.commit c caller t) := by
  have tactful := h.tactful call ok turns
  have later := turns.later home tactful.landing
  refine ⟨fun i other hother => ?_, h.flights_turn call turns later⟩
  rw [commit_callers] at hother
  rcases Table.getElem?_set_cases hother with ⟨hne, hold⟩ | ⟨rfl, rfl⟩
  · exact (h.calls i other hold).other hold hne tactful later
  · exact (h.calls c caller call).self h.flights call home ok turns later

theorem CallOk.passes (h : CallOk s c caller) (hpasses : Passes s s') (later : Later s s')
    (hpool : caller'.pool = caller.pool) (hpc : caller'.pc = caller.pc)
    (hdone : caller.done = true → caller'.done = true) : CallOk s' c caller' where
  carried err herr := (h.carried err (hpc ▸ herr)).later later hpool hdone
  leading f hf := by
    rw [hpasses.flights, hpool, hpc]
    exact h.leading f (hpc ▸ hf)
  joined f hf := by
    rw [hpasses.flights, hpool]
    exact h.joined f (hpc ▸ hf)
  discards d w hd := hpool ▸ later.closed _ (h.discards d w (hpc ▸ hd))
  failed err herr := (h.failed err (hpc ▸ herr)).later later hpool hdone

theorem Accountable.passes (h : Accountable s) (hpasses : Passes s s') : Accountable s' := by
  have later := hpasses.later
  refine ⟨fun c caller' hcall => ?_, fun f fl hfl => ?_⟩
  · rcases hpasses.callers c caller' hcall with htop | ⟨caller, hold, hpool, hpc, hdone, -⟩
    · exact callOk_of_plain (by rw [htop]; rfl)
    · exact (h.calls c caller hold).passes hpasses later hpool hpc hdone
  · rw [hpasses.flights] at hfl
    exact (h.flights f fl hfl).later later

theorem Accountable.next (h : Accountable s) (ok : s.unshared a = true)
    (hstep : s.next a = some s') : Accountable s' := by
  rcases (next_moves hstep).turn_or_passes with
    ⟨c, answer, caller, pool, t, rfl, call, home, turns, rfl⟩ | hpasses
  · exact h.turn call home ok turns
  · exact h.passes hpasses

theorem accountable_start (options : List Options) : Accountable (start options) where
  calls c caller h := by simp [start] at h
  flights f fl h := by simp [start] at h

/-- In every run in which no call shares a dial that its leader's context ended, every
call that fails does so for a reason of its own. -/
theorem independent_of_unshared (options : List Options) (actions : List Action)
    (alone : Transition.Guarded next (fun s a => s.unshared a = true) (start options) actions)
    (h : Transition.run next (start options) actions = some s) : Independent s :=
  fun c caller err call hfailed =>
    ((Transition.guarded_invariant
      (fun _ _ _ haccountable ok hstep => haccountable.next ok hstep)
      (accountable_start options) alone h).calls c caller call).failed err hfailed

/-- Two calls need a carrier. The first dials, the second joins it, and then the dial
returns the given error. -/
def joinedDial (err : Err) : List Action :=
  [Action.call 0 .dialContext (some .TCP), .call 0 .dialContext (some .TCP)] ++
  List.replicate 6 (Action.advance 0 { key := "203.0.113.1:443" }) ++
  List.replicate 4 (Action.advance 1 { key := "203.0.113.1:443" }) ++
  [Action.cancel 0, .advance 0 { dial := some err }] ++
  List.replicate 4 (Action.advance 0 {}) ++ [Action.advance 1 {}]

/-- A refused connection is every call's own failure. -/
theorem independent_joinedDial :
    ∃ s, Transition.run next (start [{}]) (joinedDial (.conn 111)) = some s ∧
      s.callers.map Caller.pc = [.failed (.conn 111), .failed (.conn 111)] ∧ Independent s := by
  refine Transition.exists_of_map (f := fun s => s.callers.map Caller.pc)
    rfl fun s hrun hcallers => ?_
  exact ⟨hcallers, independent_of_unshared [{}] _ (by decide) hrun⟩

/-- When the first call's context ends, the second fails with its cancellation though
its own context is alive and the pool is open. -/
theorem not_independent_joinedDial :
    ∃ s, Transition.run next (start [{}]) (joinedDial (.ctx 0)) = some s ∧ ¬ Independent s := by
  refine Transition.exists_of_map (f := fun s => s.callers[1]?)
    rfl fun s hrun hcall hindependent => ?_
  cases hindependent 1 _ (.ctx 0) hcall rfl with
  | context own => cases own
  | closed isClosed => cases isClosed
  | dial _ reason | sharedDial _ reason => cases reason

end System

end XrayMux
