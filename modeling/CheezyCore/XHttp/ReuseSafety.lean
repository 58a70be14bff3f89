import CheezyCore.Foundation.Table
import CheezyCore.Foundation.Transition
import CheezyCore.XHttp.Reuse

/-!
# What limits the use of a transport

The number of users of an entry, the hand-outs that are left and the number of its reuses are
balanced against the uses on record and the call that holds the lock. A release that saw the
last user leave decides to shut the transport down in several steps; nothing keeps the manager
from handing the transport out between them. `Orderly` excludes this, and the hand-out of an
entry that has expired while it was in use or after the call read the clock.
-/

namespace XHttp

open Transition State

/-- The use is part of `openUsage`. -/
def UsePhase.counted : UsePhase → Bool
  | active | decrement => true
  | _ => false

/-- The release has seen the last user leave, and is not done. -/
def UsePhase.sawZero : UsePhase → Bool
  | active | decrement | done => false
  | _ => true

namespace Phase

/-- The holder of the lock is part of `openUsage`. -/
def pend : Phase → Nat → Nat
  | requests j, i | hand j, i => if j = i then 1 else 0
  | _, _ => 0

/-- It has taken a request. -/
def given : Phase → Nat → Nat
  | hand j, i => if j = i then 1 else 0
  | _, _ => 0

/-- It has made or reused the entry. -/
def taken : Phase → Nat → Nat
  | usage j, i | requests j, i | hand j, i => if j = i then 1 else 0
  | _, _ => 0

end Phase

namespace State

def users (s : State) (i : Nat) : Nat := s.uses.countP fun u => u.entry == i && u.phase.counted

/-- How often the entry was handed out. -/
def handed (s : State) (i : Nat) : Nat := s.uses.countP (·.entry == i)

theorem users_le_handed (s : State) (i : Nat) : s.users i ≤ s.handed i :=
  List.countP_mono_left fun _ _ h => (Bool.and_eq_true_iff.mp h).1

def pend (s : State) (i : Nat) : Nat := s.crit.elim 0 (·.phase.pend i)

def given (s : State) (i : Nat) : Nat := s.crit.elim 0 (·.phase.given i)

def taken (s : State) (i : Nat) : Nat := s.crit.elim 0 (·.phase.taken i)

end State

/-! ## The condition on the steps -/

/-- The lock holder's step is taken in an orderly state. -/
def Phase.Orderly (s : State) (now : Int) (draw : Draw) : Phase → Prop
  -- an entry that has expired is not in use
  | cleanup (i :: _) _ .expiry => ∀ e ∈ s.entries[i]?, e.Expired now → e.openUsage = 0
  -- a new entry has a request and does not expire before it is made
  | create => (0 < s.cfg.hMaxRequestTimes.max → 0 < wrap 32 draw.requests) ∧
      (0 < s.cfg.hMaxReusableSecs.max → 0 ≤ lifetime draw)
  -- the entry is not shut down, and no release that saw its last user leave is under way
  | usage i => (∀ e ∈ s.entries[i]?, e.shut = none) ∧
      ∀ u ∈ s.uses, u.entry = i → u.phase.sawZero = false
  -- the entry has not expired since the call read the clock
  | hand i => ∀ e ∈ s.entries[i]?, ∀ d ∈ e.unreusableAt, ¬ (now ≤ d ∧ d < s.clock)
  | _ => True

def Orderly (s : State) : Action → Prop
  | .step draw => ∀ c ∈ s.crit, c.phase.Orderly s c.now draw
  | _ => True

instance (s : State) (now : Int) (draw : Draw) : (phase : Phase) →
    Decidable (phase.Orderly s now draw)
  | .cleanup (_ :: _) _ .expiry => inferInstanceAs (Decidable (∀ _ ∈ _, _ → _))
  | .create => inferInstanceAs (Decidable (_ ∧ _))
  | .usage _ => inferInstanceAs (Decidable ((∀ _ ∈ _, _) ∧ ∀ _ ∈ _, _ → _))
  | .hand _ => inferInstanceAs (Decidable (∀ _ ∈ _, ∀ _ ∈ _, ¬ (_ ∧ _)))
  | .cleanup [] _ _ | .cleanup (_ :: _) _ .closed | .cleanup (_ :: _) _ .requests
  | .cleanup (_ :: _) _ .usage | .cleanup (_ :: _) _ .expiredUsage | .cleanup (_ :: _) _ .shut
  | .pick .. | .reuse _ | .requests _ | .closing _ => isTrue trivial

instance (s : State) : (a : Action) → Decidable (Orderly s a)
  | .step _ => inferInstanceAs (Decidable (∀ _ ∈ _, Phase.Orderly ..))
  | .tick _ | .call | .enter _ | .closeManager | .closeUse _ | .release _ => isTrue trivial

/-! ## What is true of entries and uses -/

structure Balance (cfg : Config) (inUse given taken : Nat) (e : Entry) : Prop where
  usage : e.openUsage = inUse
  bound : e.openUsage < 2 ^ 31
  limit : e.limit < 2 ^ 31
  requests : given + e.leftRequests = e.limit
  left : 0 ≤ e.leftRequests
  reuses : (taken : Int) = e.reuseCount + 1
  reuseLimit : 0 < e.maxReuseTimes → e.reuseCount ≤ e.maxReuseTimes
  concurrency : 0 < cfg.maxConcurrency → e.openUsage ≤ cfg.maxConcurrency

variable {e : Entry} {cfg : Config}

theorem Balance.close {inUse given taken : Nat} {closer : Closer}
    (h : Balance cfg inUse given taken e) : Balance cfg inUse given taken (e.close closer) :=
  { h with }

theorem Entry.close_manager (h : e.shut ≠ some .other) : (e.close .manager).shut ≠ some .other := by
  rw [Entry.close]
  cases hshut : e.shut with
  | none => nofun
  | some closer => rwa [hshut] at h

/-- The entry has the property. -/
def At (entries : List Entry) (i : Nat) (P : Entry → Prop) : Prop := ∃ e, entries[i]? = some e ∧ P e

structure UseSound (u : Use) (e : Entry) : Prop where
  zero : u.phase.sawZero = true → e.openUsage = 0
  alive : u.phase = .active → e.shut ≠ some .other
  inTime : ∀ d, e.unreusableAt = some d → u.since ≤ d

/-- The entry has not expired when the call reads the clock. -/
def Fresh (now : Int) (e : Entry) : Prop := ∀ d, e.unreusableAt = some d → now ≤ d

def HasRoom (cfg : Config) (e : Entry) : Prop :=
  0 < cfg.maxConcurrency → e.openUsage < cfg.maxConcurrency

structure Pickable (cfg : Config) (now : Int) (e : Entry) : Prop where
  fresh : Fresh now e
  left : 0 < e.leftRequests
  reusable : ¬ e.ReusedUp
  room : HasRoom cfg e

def Check.Knows (e : Entry) : Check → Prop
  | expiredUsage | shut => e.openUsage = 0
  | _ => True

def Test.Knows (cfg : Config) (e : Entry) : Test → Prop
  | closed | requests => True
  | reuses => 0 < e.leftRequests
  | concurrency => 0 < e.leftRequests ∧ ¬ e.ReusedUp
  | compare | against _ => 0 < e.leftRequests ∧ ¬ e.ReusedUp ∧ HasRoom cfg e

/-- What the holder of the lock may rely on. -/
def Knows (cfg : Config) (entries : List Entry) (now : Int) : Phase → Prop
  | .cleanup todo kept check => (∀ i ∈ todo, i < entries.length) ∧
      (∀ i ∈ kept, At entries i (Fresh now)) ∧ ∀ i ∈ todo.head?, At entries i check.Knows
  | .pick todo best test => (∀ i ∈ todo, At entries i (Fresh now)) ∧
      (∀ i ∈ best, At entries i (Pickable cfg now)) ∧
        ∀ i ∈ todo.head?, At entries i fun e => test.Knows cfg e
  | .create => True
  | .reuse i => At entries i (Pickable cfg now)
  | .usage i => At entries i fun e => Fresh now e ∧ 0 < e.leftRequests ∧ HasRoom cfg e
  | .requests i => At entries i fun e => Fresh now e ∧ 0 < e.leftRequests ∧ e.shut = none
  | .hand i => At entries i fun e => Fresh now e ∧ e.shut = none
  | .closing todo => ∀ i ∈ todo, i < entries.length

structure Inv (s : State) : Prop where
  balance : ∀ (i : Nat) (e : Entry), s.entries[i]? = some e →
    Balance s.cfg (s.users i + s.pend i) (s.handed i + s.given i) (s.handed i + s.taken i) e
  uses : ∀ u ∈ s.uses, At s.entries u.entry (UseSound u)
  pool : ∀ i ∈ s.pool, i < s.entries.length
  knows : ∀ c, s.crit = some c → Knows s.cfg s.entries c.now c.phase

/-! ## Changes of one entry -/

section Entries

variable {entries : List Entry} {i : Nat} {P Q : Entry → Prop} {f : Entry → Entry}

theorem At.imp (h : At entries i P) (imp : ∀ e, P e → Q e) : At entries i Q := by
  obtain ⟨e, he, hP⟩ := h
  exact ⟨e, he, imp e hP⟩

theorem At.get (h : At entries i P) (he : entries[i]? = some e) : P e := by
  obtain ⟨e', he', hP⟩ := h
  cases he.symm.trans he'
  exact hP

theorem At.lt (h : At entries i P) : i < entries.length := by
  obtain ⟨e, he, -⟩ := h
  exact Table.lt_length he

theorem At.of_lt (h : i < entries.length) (hP : ∀ e, P e) : At entries i P :=
  ⟨entries[i], List.getElem?_eq_getElem h, hP _⟩

section

variable (h : At entries i P)
include h

/-- A property that the change of entry `j` keeps. -/
theorem At.modify {j : Nat} (hf : j = i → ∀ e, entries[i]? = some e → P e → P (f e)) :
    At (entries.modify j f) i P := by
  obtain ⟨e, he, hP⟩ := h
  refine ⟨_, Table.getElem?_modify_some j f he, ?_⟩
  split
  · next hji => exact hf hji e he hP
  · exact hP

theorem At.modify_self (hf : ∀ e, P e → Q (f e)) : At (entries.modify i f) i Q := by
  obtain ⟨e, he, hP⟩ := h
  refine ⟨_, Table.getElem?_modify_some i f he, ?_⟩
  rw [if_pos rfl]
  exact hf e hP

theorem At.set {j : Nat} {e' : Entry} (he : entries[j]? = some e) (hP : j = i → P e → P e') :
    At (entries.set j e') i P := by
  obtain ⟨old, hold, hPold⟩ := h
  by_cases hji : j = i
  · subst hji
    cases he.symm.trans hold
    exact ⟨e', List.getElem?_set_self (Table.lt_length he), hP rfl hPold⟩
  · exact ⟨old, by rw [List.getElem?_set_ne hji, hold], hPold⟩

theorem At.concat (new : Entry) : At (entries ++ [new]) i P := by
  obtain ⟨e, he, hP⟩ := h
  exact ⟨e, Table.getElem?_append he _, hP⟩

end

end Entries

/-! ## What the holder of the lock finds out -/

def CheckResult.Sound (now : Int) (e : Entry) : CheckResult → Prop
  | goto check => check.Knows e
  | keep => Fresh now e
  | drop => True
  | close => e.openUsage = 0

theorem Check.run_sound {check : Check} {now : Int} (h : check.Knows e)
    (hexpired : check = .expiry → e.Expired now → e.openUsage = 0) :
    (check.run now e).Sound now e := by
  fun_cases Check.run now e check with
  | case1 | case2 | case3 | case4 | case6 => trivial
  | case5 hzero | case9 hzero => exact hzero
  | case7 hexp => exact hexpired rfl hexp
  | case8 hfresh =>
    intro d hd
    by_contra hlt
    exact hfresh ⟨d, hd, by omega⟩
  | case10 hused => exact absurd h hused
  | case11 => exact h

def TestResult.Sound (cfg : Config) (e : Entry) : TestResult → Prop
  | goto test => test.Knows cfg e
  | skip => True
  | choose => 0 < e.leftRequests ∧ ¬ e.ReusedUp ∧ HasRoom cfg e

theorem Test.run_sound {test : Test} (h : test.Knows cfg e) (best : Option Entry) :
    (test.run cfg.maxConcurrency best e).Sound cfg e := by
  fun_cases Test.run cfg.maxConcurrency best e test with
  | case4 hleft => exact Int.not_le.mp hleft
  | case6 hreused => exact ⟨h, hreused⟩
  | case8 hfull =>
    refine ⟨h.1, h.2, fun hpos => ?_⟩
    by_contra hge
    exact hfull ⟨hpos, Int.not_lt.mp hge⟩
  | case9 | case10 | case11 => exact h
  | _ => trivial

/-! ## A new entry -/

section NewEntry

variable {s : State} {now : Int} {draw : Draw}

section

variable (ok : Phase.create.Orderly s now draw)
include ok

theorem newEntry_left : 0 < (newEntry s.cfg now draw).leftRequests := by
  show 0 < if 0 < s.cfg.hMaxRequestTimes.max then wrap 32 draw.requests else 2 ^ 30 - 1
  split
  · next hmax => exact ok.1 hmax
  · decide

theorem newEntry_fresh : Fresh now (newEntry s.cfg now draw) := by
  intro d hd
  have hif : (if 0 < s.cfg.hMaxReusableSecs.max then some (now + lifetime draw) else none) =
    some d := hd
  obtain ⟨hmax, rfl⟩ := of_guard hif
  have hlifetime := ok.2 hmax
  omega

theorem newEntry_balance : Balance s.cfg 0 0 1 (newEntry s.cfg now draw) where
  usage := rfl
  bound := by
    show (0 : Int) < 2 ^ 31
    decide
  limit := by
    show (if 0 < s.cfg.hMaxRequestTimes.max then wrap 32 draw.requests else 2 ^ 30 - 1) < 2 ^ 31
    split
    · exact wrap_lt _
    · decide
  requests := Int.zero_add _
  left := Int.le_of_lt (newEntry_left ok)
  reuses := rfl
  reuseLimit h := Int.le_of_lt h
  concurrency h := Int.le_of_lt h

end

end NewEntry

/-! ## The steps -/

/-- How the holder of the lock counts for an entry. -/
def Phase.counts (phase : Phase) (i : Nat) : Nat × Nat × Nat :=
  (phase.pend i, phase.given i, phase.taken i)

namespace Inv

variable {s t : State} {now : Int} {phase phase' : Phase} {i : Nat} {draw : Draw} {todo : List Nat}

section

variable (h : Inv s)
include h

section

variable (hc : s.crit = some ⟨now, phase⟩)
include hc

theorem balance_of (same : phase'.counts i = phase.counts i) (he : s.entries[i]? = some e) :
    Balance s.cfg (s.users i + phase'.pend i) (s.handed i + phase'.given i)
      (s.handed i + phase'.taken i) e := by
  obtain ⟨hpend, hcounts⟩ := Prod.mk.inj same
  obtain ⟨hgiven, htaken⟩ := Prod.mk.inj hcounts
  have hbal := h.balance i e he
  rw [pend, given, taken, hc] at hbal
  rw [hpend, hgiven, htaken]
  exact hbal

/-- The lock holder goes on without a change of entries or uses. -/
theorem move {pool : List Nat} (same : ∀ i, phase'.counts i = phase.counts i)
    (hpool : ∀ i ∈ pool, i < s.entries.length) (hknows : Knows s.cfg s.entries now phase') :
    Inv ({ s with pool }.move now phase') where
  balance i e he := h.balance_of hc (same i) he
  uses := h.uses
  pool := hpool
  knows := by
    rintro c ⟨⟩
    exact hknows

/-- The lock holder changes entry `i`. -/
theorem modify {f : Entry → Entry} (same : ∀ j, i ≠ j → phase'.counts j = phase.counts j)
    (hself : ∀ e, s.entries[i]? = some e →
      Balance s.cfg (s.users i + phase'.pend i) (s.handed i + phase'.given i)
        (s.handed i + phase'.taken i) (f e))
    (huses : ∀ u ∈ s.uses, u.entry = i → ∀ e, s.entries[i]? = some e → UseSound u e →
      UseSound u (f e)) (hknows : Knows s.cfg (s.entries.modify i f) now phase') :
    Inv ({ s with entries := s.entries.modify i f }.move now phase') where
  balance j e he := by
    obtain ⟨old, hold, ⟨hij, rfl⟩ | ⟨rfl, rfl⟩⟩ := Table.getElem?_modify_cases he
    · exact h.balance_of hc (same j hij) hold
    · exact hself old hold
  uses u hu := (h.uses u hu).modify (by
    rintro rfl e he
    exact huses u hu rfl e he)
  pool j hj := by
    have hlt := h.pool j hj
    rwa [← List.length_modify] at hlt
  knows := by
    rintro c ⟨⟩
    exact hknows

end

/-- An entry without users is not in use. -/
theorem not_active (he : s.entries[i]? = some e) (hzero : e.openUsage = 0) {u : Use}
    (hu : u ∈ s.uses) (hi : u.entry = i) : u.phase ≠ .active := by
  intro hactive
  have hcount : 0 < s.users i :=
    List.countP_pos_iff.mpr ⟨u, hu, by rw [hi, hactive, beq_self_eq_true]; rfl⟩
  have husage := (h.balance i e he).usage
  omega

theorem cleanup {kept : List Nat} {check : Check}
    (hc : s.crit = some ⟨now, .cleanup todo kept check⟩)
    (ok : (Phase.cleanup todo kept check).Orderly s now draw)
    (hstep : s.critStep now draw (.cleanup todo kept check) = some t) : Inv t := by
  obtain ⟨htodo, hkept, hhead⟩ := h.knows _ hc
  cases todo with
  | nil =>
    cases hstep
    have hpool : ∀ i ∈ kept, i < s.entries.length := fun i hi => (hkept i hi).lt
    split
    · exact h.move hc (fun _ => rfl) hpool trivial
    · refine h.move hc (fun _ => rfl) hpool ⟨hkept, ?_, ?_⟩
      · rintro i ⟨⟩
      · intro i hi
        exact (hkept i (List.mem_of_mem_head? hi)).imp fun _ _ => trivial
  | cons i todo =>
    obtain ⟨e, he, rfl⟩ := Option.map_eq_some_iff.mp hstep
    have hcheck := (hhead i rfl).get he
    have hrest : ∀ j ∈ todo, j < s.entries.length :=
      fun j hj => htodo j (List.mem_cons_of_mem i hj)
    have hfirst : ∀ j ∈ todo.head?, At s.entries j (Check.Knows · .closed) :=
      fun j hj => .of_lt (hrest j (List.mem_of_mem_head? hj)) fun _ => trivial
    have hsound : (check.run now e).Sound now e := by
      refine Check.run_sound hcheck ?_
      rintro rfl
      exact ok e he
    revert hsound
    cases check.run now e with
    | goto next =>
      intro hsound
      refine h.move hc (fun _ => rfl) h.pool ⟨htodo, hkept, ?_⟩
      rintro j ⟨⟩
      exact ⟨e, he, hsound⟩
    | keep =>
      intro hsound
      refine h.move hc (fun _ => rfl) h.pool ⟨hrest, ?_, hfirst⟩
      exact Table.forall_concat hkept ⟨e, he, hsound⟩
    | drop =>
      intro _
      exact h.move hc (fun _ => rfl) h.pool ⟨hrest, hkept, hfirst⟩
    | close =>
      intro hsound
      refine h.modify hc (fun _ _ => rfl) ?_ ?_ ⟨?_, ?_, ?_⟩
      · intro old hold
        exact (h.balance_of hc rfl hold).close
      · intro u hu hui old hold hsnd
        cases he.symm.trans hold
        exact ⟨hsnd.zero, fun hactive => absurd hactive (h.not_active he hsound hu hui),
          hsnd.inTime⟩
      · intro j hj
        rw [List.length_modify]
        exact hrest j hj
      · intro j hj
        exact (hkept j hj).modify fun _ _ _ hfresh => hfresh
      · intro j hj
        exact (hfirst j hj).modify fun _ _ _ _ => trivial

theorem pick {best : Option Nat} {test : Test} (hc : s.crit = some ⟨now, .pick todo best test⟩)
    (hstep : s.critStep now draw (.pick todo best test) = some t) : Inv t := by
  obtain ⟨htodo, hbest, hhead⟩ := h.knows _ hc
  cases todo with
  | nil =>
    cases hstep
    cases best with
    | none => exact h.move hc (fun _ => rfl) h.pool trivial
    | some b => exact h.move hc (fun _ => rfl) h.pool (hbest b rfl)
  | cons i todo =>
    obtain ⟨e, he, rfl⟩ := Option.map_eq_some_iff.mp hstep
    have htest := (hhead i rfl).get he
    have hrest : ∀ j ∈ todo, At s.entries j (Fresh now) :=
      fun j hj => htodo j (List.mem_cons_of_mem i hj)
    have hfirst : ∀ j ∈ todo.head?, At s.entries j (Test.Knows s.cfg · .closed) :=
      fun j hj => (hrest j (List.mem_of_mem_head? hj)).imp fun _ _ => trivial
    have hsound := Test.run_sound htest (best.bind (s.entries[·]?))
    revert hsound
    cases test.run s.cfg.maxConcurrency (best.bind (s.entries[·]?)) e with
    | goto next =>
      intro hsound
      refine h.move hc (fun _ => rfl) h.pool ⟨htodo, hbest, ?_⟩
      rintro j ⟨⟩
      exact ⟨e, he, hsound⟩
    | skip =>
      intro _
      exact h.move hc (fun _ => rfl) h.pool ⟨hrest, hbest, hfirst⟩
    | choose =>
      intro hsound
      refine h.move hc (fun _ => rfl) h.pool ⟨hrest, ?_, hfirst⟩
      rintro j ⟨⟩
      have hfresh := (htodo i List.mem_cons_self).get he
      exact ⟨e, he, hfresh, hsound.1, hsound.2.1, hsound.2.2⟩

theorem create (hc : s.crit = some ⟨now, .create⟩) (ok : Phase.create.Orderly s now draw)
    (hstep : s.critStep now draw .create = some t) : Inv t := by
  obtain ⟨-, rfl⟩ := of_guard hstep
  have hnone : ∀ u ∈ s.uses, ¬ (u.entry == s.entries.length) = true := by
    intro u hu heq
    have hlt := (h.uses u hu).lt
    rw [beq_iff_eq] at heq
    omega
  have hhanded : s.handed s.entries.length = 0 := List.countP_eq_zero.mpr hnone
  have husers : s.users s.entries.length = 0 := by
    refine List.countP_eq_zero.mpr fun u hu hcounted => hnone u hu ?_
    exact (Bool.and_eq_true_iff.mp hcounted).1
  exact {
    balance := by
      intro j e he
      rcases Table.getElem?_concat_cases he with hold | ⟨rfl, rfl⟩
      · have hlt := Table.lt_length hold
        have same : (Phase.usage s.entries.length).counts j = Phase.create.counts j :=
          Prod.ext rfl (Prod.ext rfl (if_neg (by omega)))
        exact h.balance_of hc same hold
      · have hnew : Balance s.cfg (s.users s.entries.length + 0) (s.handed s.entries.length + 0)
            (s.handed s.entries.length + if s.entries.length = s.entries.length then 1 else 0)
            (newEntry s.cfg now draw) := by
          rw [hhanded, husers, if_pos rfl]
          exact newEntry_balance ok
        exact hnew
    uses := fun u hu => (h.uses u hu).concat _
    pool := by
      intro j hj
      refine Nat.lt_of_lt_of_eq ?_ List.length_append.symm
      rcases Table.mem_concat hj with hj | rfl
      · exact Nat.lt_add_right _ (h.pool j hj)
      · exact Nat.lt_add_one _
    knows := by
      rintro c ⟨⟩
      exact ⟨_, List.getElem?_concat_length, newEntry_fresh ok, newEntry_left ok,
        fun hpos => hpos⟩ }

theorem reuse (hc : s.crit = some ⟨now, .reuse i⟩)
    (hstep : s.critStep now draw (.reuse i) = some t) : Inv t := by
  cases hstep
  have hknows := h.knows _ hc
  refine h.modify hc (fun j hij => Prod.ext rfl (Prod.ext rfl (if_neg hij))) ?_ ?_ ?_
  · intro e he
    have hpick := At.get hknows he
    have hbal := h.balance_of hc rfl he
    refine { hbal with reuses := ?_, reuseLimit := ?_ }
    · have hreuses := hbal.reuses
      simp only [Phase.taken, if_true] at hreuses ⊢
      omega
    · intro hpos
      have hless : ¬ e.maxReuseTimes ≤ e.reuseCount := fun hle => hpick.reusable ⟨hpos, hle⟩
      exact Int.add_one_le_of_lt (Int.not_le.mp hless)
  · intro u _ _ e _ hsound
    exact { hsound with }
  · exact At.modify_self hknows fun e hpick => ⟨hpick.fresh, hpick.left, hpick.room⟩

theorem usage (hc : s.crit = some ⟨now, .usage i⟩) (ok : (Phase.usage i).Orderly s now draw)
    (hstep : s.critStep now draw (.usage i) = some t) : Inv t := by
  cases hstep
  obtain ⟨e, he, hfresh, hleft, hroom⟩ := h.knows _ hc
  have hshut := ok.1 e he
  have hbal := h.balance_of hc rfl he
  have husage : e.openUsage = s.users i := hbal.usage
  have hrequests : (s.handed i : Int) + e.leftRequests = e.limit := hbal.requests
  have hlimit := hbal.limit
  have husers := s.users_le_handed i
  have hwrap : wrap 32 (e.openUsage + 1) = e.openUsage + 1 :=
    wrap_of_bounds (by decide) (by omega) (by omega)
  refine h.modify hc (fun j hij => Prod.ext (if_neg hij) rfl) ?_ ?_ ?_
  · intro e' he'
    cases he.symm.trans he'
    refine { hbal with usage := ?_, bound := ?_, concurrency := fun hpos => ?_ }
    · simp only [hwrap, Phase.pend, if_true]
      omega
    · simp only [hwrap]
      omega
    · simp only [hwrap]
      exact hroom hpos
  · intro u hu hui e' _ hsound
    refine ⟨fun hzero => ?_, hsound.alive, hsound.inTime⟩
    rw [ok.2 u hu hui] at hzero
    cases hzero
  · exact At.modify_self ⟨e, he, hfresh, hleft, hshut⟩ fun e' hknown => hknown

theorem requests (hc : s.crit = some ⟨now, .requests i⟩)
    (hstep : s.critStep now draw (.requests i) = some t) : Inv t := by
  cases hstep
  obtain ⟨e, he, hfresh, hleft, hshut⟩ := h.knows _ hc
  have hbal := h.balance_of hc rfl he
  have hrequests : (s.handed i : Int) + e.leftRequests = e.limit := hbal.requests
  refine h.modify hc (fun j hij => Prod.ext rfl (Prod.ext (if_neg hij) rfl)) ?_ ?_ ?_
  · intro e' he'
    cases he.symm.trans he'
    refine { hbal with requests := ?_, left := ?_ }
    · simp only [useUp, if_pos hleft, Phase.given, if_true]
      omega
    · simp only [useUp, if_pos hleft]
      omega
  · intro u _ _ e' _ hsound
    exact { hsound with }
  · exact At.modify_self ⟨e, he, hfresh, hshut⟩ fun e' hknown => hknown

theorem hand (hc : s.crit = some ⟨now, .hand i⟩) (ok : (Phase.hand i).Orderly s now draw)
    (hstep : s.critStep now draw (.hand i) = some t) : Inv t := by
  cases hstep
  obtain ⟨e, he, hfresh, hshut⟩ := h.knows _ hc
  exact {
    balance := by
      intro j old hold
      have hbal := h.balance_of hc rfl hold
      have hhanded : (s.uses ++ [(⟨i, s.clock, .active⟩ : Use)]).countP (·.entry == j) =
          s.handed j + if i = j then 1 else 0 := by
        rw [handed]
        simp
      have husers : (s.uses ++ [(⟨i, s.clock, .active⟩ : Use)]).countP
          (fun u => u.entry == j && u.phase.counted) = s.users j + if i = j then 1 else 0 := by
        rw [users]
        simp [UsePhase.counted]
      rw [users, handed, husers, hhanded]
      exact hbal
    uses := by
      intro u hu
      rcases Table.mem_concat hu with hu | rfl
      · exact h.uses u hu
      · refine ⟨e, he, nofun, fun _ hother => ?_, fun d hd => ?_⟩
        · rw [hshut] at hother
          cases hother
        · have hnow := hfresh d hd
          have hnot := ok e he d hd
          by_contra hlate
          exact hnot ⟨hnow, Int.not_le.mp hlate⟩
    pool := h.pool
    knows := nofun }

theorem closing (hc : s.crit = some ⟨now, .closing todo⟩)
    (hstep : s.critStep now draw (.closing todo) = some t) : Inv t := by
  have hknows := h.knows _ hc
  cases todo with
  | nil =>
    cases hstep
    exact {
      balance := by
        intro i e he
        have same : Phase.create.counts i = (Phase.closing []).counts i := rfl
        exact h.balance_of hc same he
      uses := h.uses
      pool := nofun
      knows := nofun }
  | cons i todo =>
    cases hstep
    refine h.modify hc (fun _ _ => rfl) ?_ ?_ ?_
    · intro e he
      exact (h.balance_of hc rfl he).close
    · intro u _ _ e _ hsound
      refine ⟨hsound.zero, fun hactive => ?_, hsound.inTime⟩
      exact e.close_manager (hsound.alive hactive)
    · intro j hj
      rw [List.length_modify]
      exact hknows j (List.mem_cons_of_mem i hj)

theorem critStep {c : Crit} (hc : s.crit = some c) (ok : c.phase.Orderly s c.now draw)
    (hstep : s.critStep c.now draw c.phase = some t) : Inv t := by
  obtain ⟨now, phase⟩ := c
  cases phase with
  | cleanup todo kept check => exact h.cleanup hc ok hstep
  | pick todo best test => exact h.pick hc hstep
  | create => exact h.create hc ok hstep
  | reuse i => exact h.reuse hc hstep
  | usage i => exact h.usage hc ok hstep
  | requests i => exact h.requests hc hstep
  | hand i => exact h.hand hc ok hstep
  | closing todo => exact h.closing hc hstep

end

end Inv

/-! ## Releases -/

/-- A release changes these fields of an entry only. -/
structure Settles (e : Entry) (openUsage : Int) (shut : Option Closer) : Prop where
  usage : openUsage ≤ e.openUsage
  zero : e.openUsage = 0 → openUsage = 0
  shut : shut = e.shut ∨ e.openUsage = 0

namespace Settles

variable {e : Entry} {openUsage : Int} {shut : Option Closer} {cfg : Config} {now : Int}

section

variable (h : Settles e openUsage shut)
include h

theorem room (hroom : HasRoom cfg e) : HasRoom cfg { e with openUsage, shut } :=
  fun hpos => Int.lt_of_le_of_lt h.usage (hroom hpos)

theorem check {check : Check} (hknows : check.Knows e) :
    check.Knows { e with openUsage, shut } := by
  cases check with
  | expiredUsage | shut => exact h.zero hknows
  | _ => trivial

theorem test {test : Test} (hknows : test.Knows cfg e) :
    test.Knows cfg { e with openUsage, shut } := by
  cases test with
  | compare | against usage => exact ⟨hknows.1, hknows.2.1, h.room hknows.2.2⟩
  | _ => exact hknows

theorem pickable (hpick : Pickable cfg now e) : Pickable cfg now { e with openUsage, shut } :=
  { hpick with room := h.room hpick.room }

end

end Settles

/-- The holder of the lock may rely on the same facts after a step of a release. -/
theorem Knows.settle {entries : List Entry} {now : Int} {phase : Phase}
    (h : Knows cfg entries now phase) {j : Nat} {openUsage : Int} {shut : Option Closer}
    (he : entries[j]? = some e) (settles : Settles e openUsage shut)
    (hshut : phase.pend j = 1 → shut = e.shut) :
    Knows cfg (entries.set j { e with openUsage, shut }) now phase := by
  cases phase with
  | cleanup todo kept check =>
    refine ⟨?_, fun i hi => ?_, fun i hi => ?_⟩
    · rw [List.length_set]
      exact h.1
    · exact (h.2.1 i hi).set he fun _ hfresh => hfresh
    · exact (h.2.2 i hi).set he fun _ => settles.check
  | pick todo best test =>
    refine ⟨fun i hi => ?_, fun i hi => ?_, fun i hi => ?_⟩
    · exact (h.1 i hi).set he fun _ hfresh => hfresh
    · exact (h.2.1 i hi).set he fun _ => settles.pickable
    · exact (h.2.2 i hi).set he fun _ => settles.test
  | create => trivial
  | reuse i => exact At.set h he fun _ => settles.pickable
  | usage i =>
    exact At.set h he fun _ hknown => ⟨hknown.1, hknown.2.1, settles.room hknown.2.2⟩
  | requests i =>
    refine At.set h he fun hji hknown => ⟨hknown.1, hknown.2.1, ?_⟩
    exact (hshut (if_pos hji.symm)).trans hknown.2.2
  | hand i =>
    refine At.set h he fun hji hknown => ⟨hknown.1, ?_⟩
    exact (hshut (if_pos hji.symm)).trans hknown.2
  | closing todo =>
    intro i hi
    rw [List.length_set]
    exact h i hi

/-- What one step of a release does. -/
structure Releases (phase phase' : UsePhase) (e : Entry) (openUsage : Int)
    (shut : Option Closer) : Prop extends Settles e openUsage shut where
  notCounted : phase'.counted = false
  sawZero : phase'.sawZero = true → openUsage = 0
  counts : openUsage + (if phase.counted then 1 else 0) = e.openUsage

theorem UsePhase.run_releases {phase phase' : UsePhase} {e' : Entry} {clock : Int}
    (h : phase.run clock e = some (phase', e')) (hzero : phase.sawZero = true → e.openUsage = 0)
    (hpos : phase.counted = true → 0 < e.openUsage) (hbound : e.openUsage < 2 ^ 31) :
    ∃ openUsage shut, e' = { e with openUsage, shut } ∧
      Releases phase phase' e openUsage shut := by
  have hsame : Settles e e.openUsage e.shut := ⟨Int.le_refl _, id, .inl rfl⟩
  cases phase with
  | active | done => cases h
  | decrement =>
    have hpos := hpos rfl
    have hwrap : wrap 32 (e.openUsage - 1) = e.openUsage - 1 :=
      wrap_of_bounds (by decide) (by omega) (by omega)
    rw [UsePhase.run, hwrap, if_neg (by omega)] at h
    cases h
    refine ⟨_, _, rfl, ⟨Int.sub_le_self _ (by decide), fun h0 => ?_, .inl rfl⟩, ?_, ?_,
      Int.sub_add_cancel _ _⟩
    · omega
    · split <;> rfl
    · split
      · next hlast => exact fun _ => hlast
      · nofun
  | store =>
    cases h
    have hzero := hzero rfl
    exact ⟨_, _, rfl, ⟨Int.le_of_eq hzero.symm, fun _ => rfl, .inl rfl⟩, rfl, fun _ => rfl,
      hzero.symm⟩
  | readClock =>
    cases h
    exact ⟨_, _, rfl, hsame, rfl, fun _ => hzero rfl, Int.add_zero _⟩
  | requests now | reuses now | expiry now =>
    cases h
    refine ⟨_, _, rfl, hsame, ?_, fun _ => hzero rfl, Int.add_zero _⟩
    split <;> rfl
  | shutdown =>
    cases h
    exact ⟨_, _, rfl, ⟨Int.le_refl _, id, .inr (hzero rfl)⟩, rfl, nofun, Int.add_zero _⟩

namespace Inv

variable {s t : State} {k : Nat} {u : Use} {phase : UsePhase}

section

variable (hu : s.uses[k]? = some u)
include hu

/-- A use goes on: it leaves the users of its entry or not. -/
theorem users_set (phase : UsePhase) (j : Nat) :
    users { s with uses := s.uses.set k { u with phase } } j +
        (if u.entry = j ∧ u.phase.counted then 1 else 0) =
      s.users j + if u.entry = j ∧ phase.counted then 1 else 0 := by
  have hcount := @Table.countP_set _ _ _ _ { u with phase }
    (fun u => u.entry == j && u.phase.counted) hu
  simpa only [users, Bool.and_eq_true, beq_iff_eq] using hcount

theorem handed_set (phase : UsePhase) (j : Nat) :
    handed { s with uses := s.uses.set k { u with phase } } j = s.handed j := by
  have hcount := @Table.countP_set _ _ _ _ { u with phase } (fun u => u.entry == j) hu
  exact Nat.add_right_cancel hcount

theorem closeUse (h : Inv s) (hactive : u.phase = .active) :
    Inv { s with uses := s.uses.set k { u with phase := .decrement } } where
  __ := h
  balance j e he := by
    have husers := users_set hu .decrement j
    rw [hactive] at husers
    rw [handed_set hu, Nat.add_right_cancel husers]
    exact h.balance j e he
  uses w hw := by
    rcases List.mem_or_eq_of_mem_set hw with hw | rfl
    · exact h.uses w hw
    · exact (h.uses u (List.mem_of_getElem? hu)).imp fun e hsound => ⟨nofun, nofun, hsound.inTime⟩

theorem release (h : Inv s) (hstep : s.releaseStep k u = some t) : Inv t := by
  obtain ⟨e, he, hstep⟩ := Option.bind_eq_some_iff.mp hstep
  obtain ⟨⟨phase, e'⟩, hrun, rfl⟩ := Option.map_eq_some_iff.mp hstep
  have hmem : u ∈ s.uses := List.mem_of_getElem? hu
  have hbal := h.balance u.entry e he
  have hsound := (h.uses u hmem).get he
  have hpos : u.phase.counted = true → 0 < e.openUsage := by
    intro hcounted
    have hcount : 0 < s.users u.entry :=
      List.countP_pos_iff.mpr ⟨u, hmem, by rw [hcounted, beq_self_eq_true]; rfl⟩
    have husage := hbal.usage
    omega
  obtain ⟨openUsage, shut, rfl, hrel⟩ :=
    UsePhase.run_releases hrun hsound.zero hpos hbal.bound
  exact {
    balance := by
      intro j x hx
      have husers : users { s with uses := s.uses.set k { u with phase } } j +
          (if u.entry = j ∧ u.phase.counted then 1 else 0) = s.users j := by
        rw [users_set hu phase j, hrel.notCounted, if_neg (by simp), Nat.add_zero]
      have hhanded := handed_set hu phase j
      rcases Table.getElem?_set_cases hx with ⟨hne, hx⟩ | ⟨rfl, rfl⟩
      · rw [if_neg fun hand => hne hand.1] at husers
        have hother := h.balance j x hx
        rw [← husers, ← hhanded] at hother
        exact hother
      · have hself : Balance s.cfg
            (users { s with uses := s.uses.set k { u with phase } } u.entry +
              s.pend u.entry) (s.handed u.entry + s.given u.entry)
            (s.handed u.entry + s.taken u.entry) { e with openUsage, shut } := by
          refine { hbal with usage := ?_, bound := ?_, concurrency := fun hmax => ?_ }
          · dsimp only
            have husage := hrel.counts
            have hbefore := hbal.usage
            split at husage
            · next hcounted =>
              rw [if_pos ⟨rfl, hcounted⟩] at husers
              omega
            · next hcounted =>
              rw [if_neg fun hand => hcounted hand.2] at husers
              omega
          · exact Int.lt_of_le_of_lt hrel.usage hbal.bound
          · exact Int.le_trans hrel.usage (hbal.concurrency hmax)
        rw [← hhanded] at hself
        exact hself
    uses := by
      intro w hw
      rcases List.mem_or_eq_of_mem_set hw with hw | rfl
      · refine (h.uses w hw).set he fun hentry hsnd => ⟨?_, fun hactive => ?_, hsnd.inTime⟩
        · exact fun hzero => hrel.zero (hsnd.zero hzero)
        · rcases hrel.shut with rfl | hzero
          · exact hsnd.alive hactive
          · exact absurd hactive (h.not_active he hzero hw hentry.symm)
      · have hlt := Table.lt_length he
        refine ⟨_, List.getElem?_set_self hlt, hrel.sawZero, ?_, hsound.inTime⟩
        rintro rfl
        cases hrel.notCounted
    pool := by
      intro j hj
      exact Nat.lt_of_lt_of_eq (h.pool j hj) List.length_set.symm
    knows := by
      intro c hc
      refine (h.knows c hc).settle he hrel.toSettles fun hpend => ?_
      rcases hrel.shut with hshut | hzero
      · exact hshut
      · have husage := hbal.usage
        rw [pend, hc, Option.elim_some] at husage
        omega }

end

theorem enter (h : Inv s) (hcrit : s.crit = none) {now : Int} {phase : Phase} {waiting : List Int}
    (hcounts : ∀ i, phase.counts i = (0, 0, 0)) (hknows : Knows s.cfg s.entries now phase) :
    Inv { s with waiting, crit := some ⟨now, phase⟩ } where
  __ := h
  balance i e he := by
    have hbal := h.balance i e he
    rw [pend, given, taken, hcrit] at hbal
    have hzero := hcounts i
    simp only [Phase.counts, Prod.mk.injEq] at hzero
    simp only [pend, given, taken, Option.elim_some, hzero]
    exact hbal
  knows := by
    rintro c ⟨⟩
    exact hknows

theorem next (h : Inv s) {a : Action} (ok : Orderly s a) (hstep : s.next a = some t) : Inv t := by
  cases a with
  | tick elapsed | call =>
    cases hstep
    exact { h with }
  | enter i =>
    obtain ⟨now, -, hstep⟩ := Option.bind_eq_some_iff.mp hstep
    obtain ⟨hcrit, rfl⟩ := of_guard hstep
    refine h.enter hcrit (fun _ => rfl) ⟨h.pool, nofun, ?_⟩
    intro j hj
    exact .of_lt (h.pool j (List.mem_of_mem_head? hj)) fun _ => trivial
  | closeManager =>
    obtain ⟨hcrit, rfl⟩ := of_guard hstep
    exact h.enter hcrit (fun _ => rfl) h.pool
  | step draw =>
    obtain ⟨c, hc, hstep⟩ := Option.bind_eq_some_iff.mp hstep
    exact h.critStep hc (ok c hc) hstep
  | closeUse k =>
    obtain ⟨u, hu, hstep⟩ := Option.bind_eq_some_iff.mp hstep
    obtain ⟨hactive, rfl⟩ := of_guard hstep
    exact h.closeUse hu hactive
  | release k =>
    obtain ⟨u, hu, hstep⟩ := Option.bind_eq_some_iff.mp hstep
    exact h.release hu hstep

theorem start (cfg : Config) : Inv (newReuseManager cfg) where
  balance := nofun
  uses := nofun
  pool := nofun
  knows := nofun

end Inv

/-- The limits of a reuse entry, and the transports that are in use, are respected. -/
structure Respected (s : State) : Prop where
  /-- Only `ReuseManager.Close` shuts a transport down that its user has not closed. -/
  alive : ∀ u ∈ s.uses, u.phase = .active → ∀ e, s.entries[u.entry]? = some e →
    e.shut ≠ some .other
  requests : ∀ (i : Nat) (e : Entry), s.entries[i]? = some e → (s.handed i : Int) ≤ e.limit
  /-- The first hand-out of an entry is not a reuse. -/
  reuses : ∀ (i : Nat) (e : Entry), s.entries[i]? = some e → 0 < e.maxReuseTimes →
    (s.handed i : Int) ≤ e.maxReuseTimes + 1
  concurrency : 0 < s.cfg.maxConcurrency → ∀ i < s.entries.length,
    (s.uses.countP fun u => u.entry == i && u.phase = .active : Int) ≤ s.cfg.maxConcurrency
  inTime : ∀ u ∈ s.uses, ∀ e d, s.entries[u.entry]? = some e → e.unreusableAt = some d →
    u.since ≤ d

/-- In every orderly run the limits are respected. -/
theorem reuse_respected (cfg : Config) {actions : List Action} {s : State}
    (orderly : Guarded next Orderly (newReuseManager cfg) actions)
    (hrun : run next (newReuseManager cfg) actions = some s) : Respected s := by
  have h : Inv s := guarded_invariant (fun _ _ _ h ok hstep => h.next ok hstep)
    (Inv.start cfg) orderly hrun
  refine ⟨?_, ?_, ?_, ?_, ?_⟩
  · intro u hu hactive e he
    exact ((h.uses u hu).get he).alive hactive
  · intro i e he
    have hbal := h.balance i e he
    have hrequests := hbal.requests
    have hleft := hbal.left
    omega
  · intro i e he hpos
    have hbal := h.balance i e he
    have hreuses := hbal.reuses
    have hlimit := hbal.reuseLimit hpos
    omega
  · intro hpos i hi
    have hbal := h.balance i _ (List.getElem?_eq_getElem hi)
    have husage := hbal.usage
    have hlimit := hbal.concurrency hpos
    have hle : (s.uses.countP fun u => u.entry == i && u.phase = .active) ≤ s.users i := by
      refine List.countP_mono_left fun u _ hactive => ?_
      rw [Bool.and_eq_true, decide_eq_true_iff] at hactive
      rw [Bool.and_eq_true, hactive.2]
      exact ⟨hactive.1, rfl⟩
    omega
  · intro u hu e d he hd
    exact ((h.uses u hu).get he).inTime d hd

/-- A call of `GetTransport` that takes `steps` steps under the lock. -/
def getTransport (steps : Nat) (draw : Draw) : List Action :=
  [Action.call, .enter 0] ++ List.replicate steps (Action.step draw)

/-- A transport with all limits is made, handed out again and given back by its first user. -/
theorem reuse_respected_shared :
    ∃ s, run next (newReuseManager ⟨2, 1, ⟨1, 1⟩, ⟨2, 2⟩, ⟨1, 1⟩⟩)
        (getTransport 5 ⟨2, 1, 1⟩ ++ [Action.tick 500000000] ++ getTransport 14 {} ++
          [Action.closeUse 0, .release 0]) = some s ∧
      s.uses.map Use.phase = [.done, .active] ∧ Respected s := by
  refine exists_of_map (f := fun s => s.uses.map Use.phase) (b := [.done, .active])
    (by decide +kernel) fun s hrun hphase => ?_
  exact ⟨hphase, reuse_respected _ (by decide +kernel) hrun⟩

/-- A release that saw its user leave shuts the transport down after the last request was handed
out to another user; an entry in use is handed out a second after it has expired; an entry made
for no request is handed out. -/
theorem limits_not_respected :
    (run next (newReuseManager ⟨0, 0, ⟨0, 0⟩, ⟨2, 2⟩, ⟨0, 0⟩⟩)
        (getTransport 5 ⟨2, 0, 0⟩ ++ [Action.closeUse 0, .release 0] ++ getTransport 14 {} ++
          [Action.release 0, .release 0, .release 0])).map
        (fun s => (s.uses.map Use.phase, s.entries.map Entry.shut)) =
      some ([.done, .active], [some .other]) ∧
    (run next (newReuseManager ⟨2, 1, ⟨0, 0⟩, ⟨0, 0⟩, ⟨1, 1⟩⟩)
        (getTransport 5 ⟨0, 1, 0⟩ ++ [Action.tick 2000000000] ++ getTransport 15 {})).map
        (fun s => (s.uses.map fun u => (u.entry, u.since), s.entries.map Entry.unreusableAt)) =
      some ([(0, 0), (0, 2000000000)], [some 1000000000]) ∧
    (run next (newReuseManager ⟨0, 0, ⟨0, 0⟩, ⟨0, 1⟩, ⟨0, 0⟩⟩) (getTransport 5 {})).map
        (fun s => (s.handed 0, s.entries.map Entry.limit)) = some (1, [0]) := by
  refine ⟨?_, ?_, ?_⟩ <;> decide +kernel

end XHttp
