import Mathlib.Algebra.Order.Ring.Int
import Mathlib.Data.List.Nodup
import CheezyCore.Foundation.Table

/-!
# The LRU cache

`common/lru` keeps a list of entries, the least recently used one at the front,
and a map from keys to the elements of that list. Here the map is the list
itself: its keys are distinct, so an entry is found by its key. `now` is the
clock in seconds at the time of the call; only a cache with an age limit reads it.
-/

namespace Lru

structure Entry (κ ν : Type*) where
  key : κ
  value : ν
  expires : Int
  deriving DecidableEq, Repr

/-- A cache whose age or size limit is not positive has no such limit. -/
structure LruCache (κ ν : Type*) where
  maxAge : Int
  maxSize : Int
  updateAgeOnGet : Bool
  staleReturn : Bool
  lru : List (Entry κ ν)
  distinct : (lru.map Entry.key).Nodup

namespace LruCache

variable {κ ν : Type*} [DecidableEq κ]

/-- `lru.New` with the option `WithSize`. -/
def new (maxSize : Int) : LruCache κ ν where
  maxAge := 0
  maxSize := maxSize
  updateAgeOnGet := false
  staleReturn := false
  lru := []
  distinct := List.nodup_nil

def clear (c : LruCache κ ν) : LruCache κ ν := { c with lru := [], distinct := List.nodup_nil }

/-- The map from keys to entries. -/
def cache (c : LruCache κ ν) (key : κ) : Option (Entry κ ν) := c.lru.find? (·.key == key)

def exist (c : LruCache κ ν) (key : κ) : Bool := (c.cache key).isSome

/-- `delete`: drop the entry of the key, if there is one. -/
def delete (c : LruCache κ ν) (key : κ) : LruCache κ ν where
  __ := c
  lru := c.lru.filter (·.key != key)
  distinct := c.distinct.sublist (List.filter_sublist.map _)

/-- `MoveToBack` of the entry with this key, or `PushBack` when there is none. -/
def moveToBack (c : LruCache κ ν) (e : Entry κ ν) : LruCache κ ν where
  __ := c
  lru := c.lru.filter (·.key != e.key) ++ [e]
  distinct := by
    rw [List.map_append, List.nodup_append]
    refine ⟨c.distinct.sublist (List.filter_sublist.map _), List.nodup_singleton _, ?_⟩
    intro k hk k' hk'
    obtain ⟨x, hx, rfl⟩ := List.mem_map.mp hk
    simp_all

/-- `deleteElement(c.lru.Front())`. -/
def deleteFront (c : LruCache κ ν) : LruCache κ ν where
  __ := c
  lru := c.lru.tail
  distinct := c.distinct.sublist (c.lru.tail_sublist.map _)

def maybeDeleteOldest (c : LruCache κ ν) (now : Int) : LruCache κ ν :=
  if !c.staleReturn && 0 < c.maxAge then
    { c with
      lru := c.lru.dropWhile (·.expires ≤ now)
      distinct := c.distinct.sublist ((List.dropWhile_sublist _).map _) }
  else c

def get (c : LruCache κ ν) (now : Int) (key : κ) : Option ν × LruCache κ ν :=
  match c.cache key with
  | none => (none, c)
  | some e =>
    if !c.staleReturn && 0 < c.maxAge && e.expires ≤ now then
      (none, (c.delete key).maybeDeleteOldest now)
    else
      let expires := if 0 < c.maxAge && c.updateAgeOnGet then now + c.maxAge else e.expires
      (some e.value, c.moveToBack { e with expires })

def setWithExpire (c : LruCache κ ν) (now : Int) (key : κ) (value : ν) (expires : Int) :
    LruCache κ ν :=
  let d := c.moveToBack { key, value, expires }
  let d := if !c.exist key && 0 < c.maxSize && c.maxSize < d.lru.length then d.deleteFront else d
  d.maybeDeleteOldest now

def set (c : LruCache κ ν) (now : Int) (key : κ) (value : ν) : LruCache κ ν :=
  c.setWithExpire now key value (if 0 < c.maxAge then now + c.maxAge else 0)

variable {c : LruCache κ ν} {now : Int} {key key' : κ} {value : ν} {e : Entry κ ν}

/-! ### The entry of a key -/

theorem cache_eq_some_iff : c.cache key = some e ↔ e ∈ c.lru ∧ e.key = key := by
  constructor
  · intro h
    exact ⟨List.mem_of_find?_eq_some h, by simpa using List.find?_some h⟩
  · rintro ⟨hmem, rfl⟩
    cases h : c.cache e.key with
    | none =>
      have hne := List.find?_eq_none.mp h e hmem
      simp at hne
    | some e' =>
      have hkey : e'.key = e.key := by simpa using List.find?_some h
      have hmem' := List.mem_of_find?_eq_some h
      rw [List.inj_on_of_nodup_map c.distinct hmem' hmem hkey]

theorem cache_eq_none_iff : c.cache key = none ↔ ∀ e ∈ c.lru, e.key ≠ key := by
  simp [cache]

theorem filter_of_none (h : c.cache key = none) : c.lru.filter (·.key != key) = c.lru := by
  rw [List.filter_eq_self]
  intro x hx
  simpa using cache_eq_none_iff.mp h x hx

/-! ### What the operations may add -/

/-- The cache has an entry for the key with the value. -/
def Maps (c : LruCache κ ν) (key : κ) (value : ν) : Prop :=
  ∃ e ∈ c.lru, e.key = key ∧ e.value = value

omit [DecidableEq κ] in
theorem Maps.of_subset {d : LruCache κ ν} (h : d.lru ⊆ c.lru) (maps : d.Maps key value) :
    c.Maps key value := by
  obtain ⟨e, he, hentry⟩ := maps
  exact ⟨e, h he, hentry⟩

omit [DecidableEq κ] in
theorem Maps.eq {value' : ν} (maps : c.Maps key value) (maps' : c.Maps key value') :
    value = value' := by
  obtain ⟨e, he, hkey, rfl⟩ := maps
  obtain ⟨e', he', hkey', rfl⟩ := maps'
  rw [List.inj_on_of_nodup_map c.distinct he he' (hkey.trans hkey'.symm)]

omit [DecidableEq κ] in
theorem maybeDeleteOldest_subset : (c.maybeDeleteOldest now).lru ⊆ c.lru := by
  unfold maybeDeleteOldest
  split
  · exact (List.dropWhile_sublist _).subset
  · exact List.Subset.refl _

theorem Maps.of_delete (maps : (c.delete key').Maps key value) : c.Maps key value :=
  maps.of_subset List.filter_sublist.subset

theorem Maps.of_get (maps : (c.get now key').2.Maps key value) : c.Maps key value := by
  unfold get at maps
  split at maps
  · exact maps
  next e hcache =>
    split at maps
    · exact Maps.of_delete (maps.of_subset maybeDeleteOldest_subset)
    · obtain ⟨x, hx, hentry⟩ := maps
      rcases Table.mem_concat hx with hx | rfl
      · exact ⟨x, (List.mem_filter.mp hx).1, hentry⟩
      · exact ⟨e, (cache_eq_some_iff.mp hcache).1, hentry⟩

/-- What a lookup in the cache returns, the cache has. -/
theorem maps_of_get (h : (c.get now key).1 = some value) : c.Maps key value := by
  unfold get at h
  split at h
  · cases h
  next e hcache =>
    obtain ⟨hmem, hkey⟩ := cache_eq_some_iff.mp hcache
    split at h
    · cases h
    · exact ⟨e, hmem, hkey, Option.some.inj h⟩

theorem Maps.of_setWithExpire {value' : ν} {expires : Int}
    (maps : (c.setWithExpire now key' value' expires).Maps key value) :
    c.Maps key value ∧ key ≠ key' ∨ key = key' ∧ value = value' := by
  obtain ⟨x, hx, hkey, hvalue⟩ := maps
  have hmem := maybeDeleteOldest_subset hx
  have hpush : x ∈ (c.moveToBack ⟨key', value', expires⟩).lru := by
    split at hmem
    · exact List.mem_of_mem_tail hmem
    · exact hmem
  rcases Table.mem_concat hpush with h | rfl
  · obtain ⟨hmem, hne⟩ := List.mem_filter.mp h
    exact .inl ⟨⟨x, hmem, hkey, hvalue⟩, hkey ▸ bne_iff_ne.mp hne⟩
  · exact .inr ⟨hkey.symm, hvalue.symm⟩

theorem Maps.of_set {value' : ν} (maps : (c.set now key' value').Maps key value) :
    c.Maps key value ∧ key ≠ key' ∨ key = key' ∧ value = value' :=
  Maps.of_setWithExpire maps

/-! ### A cache without an age limit -/

theorem get_none (h : c.cache key = none) : c.get now key = (none, c) := by
  rw [get, h]

theorem get_some (now : Int) (ageless : c.maxAge = 0) (h : c.cache key = some e) :
    c.get now key = (some e.value, c.moveToBack e) := by
  simp [get, h, ageless]

@[simp] theorem lru_moveToBack (c : LruCache κ ν) (e : Entry κ ν) :
    (c.moveToBack e).lru = c.lru.filter (·.key != e.key) ++ [e] := rfl

theorem length_moveToBack (h : e ∈ c.lru) : (c.moveToBack e).lru.length = c.lru.length := by
  have hone : c.lru.countP (·.key == e.key) = 1 := by
    have := List.count_eq_one_of_mem c.distinct (List.mem_map_of_mem h)
    rwa [List.count, List.countP_map] at this
  have hrest : c.lru.countP (fun x => ¬ (x.key == e.key) = true)
      = c.lru.countP (·.key != e.key) := by
    congr 1
    funext x
    by_cases hx : x.key = e.key <;> simp [hx]
  have hsplit := List.length_eq_countP_add_countP (·.key == e.key) (l := c.lru)
  rw [lru_moveToBack, List.length_append, ← List.countP_eq_length_filter, List.length_singleton]
  omega

theorem delete_of_none (h : c.cache key = none) : c.delete key = c := by
  have hfilter := filter_of_none h
  cases c
  simp only [delete, mk.injEq, true_and]
  exact hfilter

theorem cache_delete_self : (c.delete key).cache key = none := by
  rw [cache_eq_none_iff]
  intro x hx
  simpa using (List.mem_filter.mp hx).2

theorem cache_delete_none (h : c.cache key = none) : (c.delete key').cache key = none := by
  rw [cache_eq_none_iff] at h ⊢
  intro x hx
  exact h x (List.mem_filter.mp hx).1

omit [DecidableEq κ] in
@[simp] theorem maybeDeleteOldest_maxAge : (c.maybeDeleteOldest now).maxAge = c.maxAge := by
  unfold maybeDeleteOldest
  split <;> rfl

omit [DecidableEq κ] in
@[simp] theorem maybeDeleteOldest_maxSize : (c.maybeDeleteOldest now).maxSize = c.maxSize := by
  unfold maybeDeleteOldest
  split <;> rfl

@[simp] theorem set_maxAge : (c.set now key value).maxAge = c.maxAge := by
  rw [set, setWithExpire, maybeDeleteOldest_maxAge, apply_ite maxAge]
  exact ite_self _

@[simp] theorem set_maxSize : (c.set now key value).maxSize = c.maxSize := by
  rw [set, setWithExpire, maybeDeleteOldest_maxSize, apply_ite maxSize]
  exact ite_self _

omit [DecidableEq κ] in
theorem maybeDeleteOldest_of_ageless (ageless : c.maxAge = 0) : c.maybeDeleteOldest now = c := by
  simp [maybeDeleteOldest, ageless]

/-- A new entry goes to the back; when the cache is full, the front goes. -/
theorem lru_set_new (ageless : c.maxAge = 0) (new : c.cache key = none) :
    (c.set now key value).lru =
      if 0 < c.maxSize ∧ c.maxSize ≤ c.lru.length then
        (c.lru ++ [({ key, value, expires := 0 } : Entry κ ν)]).tail
      else c.lru ++ [({ key, value, expires := 0 } : Entry κ ν)] := by
  have hpush : (c.moveToBack ⟨key, value, 0⟩).lru = c.lru ++ [⟨key, value, 0⟩] := by
    rw [lru_moveToBack, filter_of_none new]
  have hset : c.set now key value = c.setWithExpire now key value 0 := by simp [set, ageless]
  have hfull : (!c.exist key && decide (0 < c.maxSize)
      && decide (c.maxSize < (c.moveToBack ⟨key, value, 0⟩).lru.length)) = true
      ↔ 0 < c.maxSize ∧ c.maxSize ≤ c.lru.length := by
    simp only [exist, new, hpush, List.length_append, List.length_singleton, Option.isSome_none,
      Bool.not_false, Bool.true_and, Bool.and_eq_true, decide_eq_true_eq]
    omega
  rw [hset, setWithExpire, maybeDeleteOldest_of_ageless]
  · simp only [hfull]
    split
    · exact congrArg List.tail hpush
    · exact hpush
  · split
    · exact ageless
    · exact ageless

theorem length_set_le (ageless : c.maxAge = 0) (new : c.cache key = none)
    (bounded : c.lru.length ≤ c.maxSize) (limited : 0 < c.maxSize) :
    (c.set now key value).lru.length ≤ c.maxSize := by
  rw [lru_set_new ageless new]
  split
  · simpa using bounded
  next h =>
    simp only [List.length_append, List.length_singleton]
    omega

end LruCache

end Lru
