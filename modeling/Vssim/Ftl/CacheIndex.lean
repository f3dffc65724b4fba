import Vssim.Ftl.MapCache
import Mathlib.Data.List.Induction

/-!
# The index of the map cache

Maps are referred to by number and type, but `map_state_table` has one entry per **number**: a
forward and an inverse map of one number share `is_cached` and `cache_entry`, and loading one
hides the other. A slot that was never used has map number 0, so replacing it clears the entry
of map 0 even if that map is cached elsewhere.

A state is followed together with the map that each slot was last loaded with (`Tracked`). The
index is right in every state of a run exactly if no call meets one of these two cases, or has
a map number of more than 29 bits (`track_consistent_iff`).
-/

namespace Vssim

namespace MapCache

variable {c : CacheConfig}

/-- The number of a map and its type. -/
abbrev MapRef (c : CacheConfig) := Fin c.mapEntryNb × MapType

/-- The cache, and for each slot the map that was loaded into it and not evicted since. -/
structure Tracked (c : CacheConfig) where
  cache : MapCache
  occupant : ℕ → Option (MapRef c)

namespace Tracked

variable (newPage : ℕ → ℤ)

/-- A call of `CACHE_GET_MAP`: a miss loads the map into the slot that is returned. -/
def get (r : MapRef c) (x : Tracked c) : Option (Tracked c) :=
  (cacheGetMap c newPage r.1 r.2 x.cache).map fun st =>
    { cache := st.2
      occupant := if (lookupCache r.1 r.2 x.cache).isNone
        then Function.update x.occupant st.1 (some r) else x.occupant }

/-- A run from `INIT_CACHE`. -/
def track (tables : PageTables) (calls : List (MapRef c)) : Option (Tracked c) :=
  calls.foldlM (fun x r => x.get newPage r) ⟨initCache c newPage tables, fun _ => none⟩

/-- The map is in the cache. -/
def Resident (x : Tracked c) (r : MapRef c) : Prop := ∃ p, x.occupant p = some r

/-- A cached map has one slot, which `LOOKUP_CACHE` returns; for other maps it returns `NULL`. -/
structure Consistent (x : Tracked c) : Prop where
  slot : ∀ p r, x.occupant p = some r → p < c.cacheIdxSize ∧
    (x.cache.cacheIdxTable p).mapNum = r.1 ∧ (x.cache.cacheIdxTable p).mapType = r.2
  unique : ∀ p q r, x.occupant p = some r → x.occupant q = some r → p = q
  found : ∀ p r, x.occupant p = some r → lookupCache r.1 r.2 x.cache = some p
  absent : ∀ r, ¬x.Resident r → lookupCache r.1 r.2 x.cache = none

/-- The calls that leave the index right: for a map that is cached already, or else

* the number has 29 bits;
* the slot that is replaced was used before, or no map with number 0 is cached;
* the map of that number in the other table is not cached, or it is the one that is replaced. -/
def Safe (x : Tracked c) (r : MapRef c) : Prop :=
  x.Resident r ∨ r.1.val < 2 ^ 29 ∧
    (x.occupant (x.cache.victim c) ≠ none ∨ ∀ s, x.Resident s → s.1.val ≠ 0) ∧
    ∀ p, x.occupant p = some (r.1, r.2.other) → p = x.cache.victim c

/-- The invariant of the index. -/
structure IndexInv (x : Tracked c) : Prop where
  hand : x.cache.clockHand < c.cacheIdxSize
  used : ∀ p r, x.occupant p = some r → p < c.cacheIdxSize ∧
    (x.cache.cacheIdxTable p).mapNum = r.1 ∧ (x.cache.cacheIdxTable p).mapType = r.2 ∧
    (x.cache.mapStateTable r.1).isCached = true ∧
    (x.cache.mapStateTable r.1).cacheEntry = some p
  unused : ∀ p, x.occupant p = none → (x.cache.cacheIdxTable p).mapNum = 0
  cached : ∀ i : Fin c.mapEntryNb, (x.cache.mapStateTable i).isCached = true →
    ∃ p T, (x.cache.mapStateTable i).cacheEntry = some p ∧ x.occupant p = some (i, T)

end Tracked

/-! ### Lookups -/

private theorem MapType.eq_other {S T : MapType} (h : S ≠ T) : S = T.other := by
  cases S with
  | map => cases T with
    | map => exact absurd rfl h
    | invMap => rfl
  | invMap => cases T with
    | map => rfl
    | invMap => exact absurd rfl h

namespace Tracked

variable {newPage : ℕ → ℤ} {x x' : Tracked c} {r : MapRef c}

private theorem IndexInv.lookup (h : IndexInv x) {p : ℕ} :
    lookupCache r.1 r.2 x.cache = some p ↔ x.occupant p = some r := by
  rw [lookupCache_eq_some]
  constructor
  · rintro ⟨hcached, hentry, htype, -⟩
    obtain ⟨q, T, hq, hocc⟩ := h.cached r.1 hcached
    obtain rfl : q = p := Option.some.inj (hq.symm.trans hentry)
    obtain ⟨-, -, htype', -⟩ := h.used q _ hocc
    rw [hocc]
    exact congrArg some (Prod.ext rfl (htype'.symm.trans htype))
  · intro hocc
    obtain ⟨-, hnum, htype, hcached, hentry⟩ := h.used p r hocc
    exact ⟨hcached, hentry, htype, hnum⟩

private theorem IndexInv.lookup_none (h : IndexInv x) :
    lookupCache r.1 r.2 x.cache = none ↔ ¬x.Resident r := by
  rw [Option.eq_none_iff_forall_ne_some, Resident, not_exists]
  exact forall_congr' fun p => not_congr h.lookup

private theorem IndexInv.consistent (h : IndexInv x) : Consistent x where
  slot p r hocc := by
    obtain ⟨hlt, hnum, htype, -⟩ := h.used p r hocc
    exact ⟨hlt, hnum, htype⟩
  unique p q r hp hq := Option.some.inj ((h.lookup.mpr hp).symm.trans (h.lookup.mpr hq))
  found p r hocc := h.lookup.mpr hocc
  absent r hout := h.lookup_none.mpr hout

/-- No two cached maps have one number. -/
private theorem IndexInv.number_inj (h : IndexInv x) {p q : ℕ} {s : MapRef c}
    (hp : x.occupant p = some r) (hq : x.occupant q = some s) (hnum : r.1 = s.1) : p = q := by
  obtain ⟨-, -, -, -, hentry⟩ := h.used p r hp
  obtain ⟨-, -, -, -, hentry'⟩ := h.used q s hq
  rw [← hnum] at hentry'
  exact Option.some.inj (hentry.symm.trans hentry')

/-! ### One call -/

private theorem get_hit {p : ℕ} (hlookup : lookupCache r.1 r.2 x.cache = some p) :
    x.get newPage r = some ⟨setClockBit p true x.cache, x.occupant⟩ := by
  rw [get, cacheGetMap_hit hlookup, Option.map_some, hlookup]
  rfl

private theorem get_miss (newPage : ℕ → ℤ) (hlookup : lookupCache r.1 r.2 x.cache = none)
    (hhand : x.cache.clockHand < c.cacheIdxSize) : ∃ m,
      x.get newPage r = some ⟨m, Function.update x.occupant (x.cache.victim c) (some r)⟩ ∧
      Loaded c r.1 r.2 (x.cache.victim c) x.cache m := by
  obtain ⟨m, heq, hloaded⟩ := cacheGetMap_miss newPage hlookup hhand
  refine ⟨m, ?_, hloaded⟩
  rw [get, heq, Option.map_some, hlookup]
  rfl

/-- The clock bits do not matter to the index. -/
private theorem IndexInv.setClockBit (h : IndexInv x) (p : ℕ) (b : Bool) :
    IndexInv ⟨MapCache.setClockBit p b x.cache, x.occupant⟩ := by
  have hsame : ∀ q, SameMap (x.cache.cacheIdxTable q)
      ((MapCache.setClockBit p b x.cache).cacheIdxTable q) := fun q => (setClockBit_sameMap p b q).1
  refine ⟨h.hand, fun q s hocc => ?_, fun q hocc => ?_, h.cached⟩
  · rw [(hsame q).mapNum, (hsame q).mapType]
    exact h.used q s hocc
  · rw [(hsame q).mapNum]
    exact h.unused q hocc

/-- A safe miss keeps the invariant: the entries of the other cached maps are left alone. -/
private theorem IndexInv.load (h : IndexInv x) {m : MapCache} (hout : ¬x.Resident r)
    (hnum : r.1.val < 2 ^ 29)
    (hused : x.occupant (x.cache.victim c) ≠ none ∨ ∀ s, x.Resident s → s.1.val ≠ 0)
    (hother : ∀ p, x.occupant p = some (r.1, r.2.other) → p = x.cache.victim c)
    (hloaded : Loaded c r.1 r.2 (x.cache.victim c) x.cache m) :
    IndexInv ⟨m, Function.update x.occupant (x.cache.victim c) (some r)⟩ := by
  have hvlt : x.cache.victim c < c.cacheIdxSize := SecondChance.victim_lt h.hand
  generalize x.cache.victim c = v at hused hother hloaded hvlt
  have hsame : ∀ p ≠ v, SameMap (x.cache.cacheIdxTable p) (m.cacheIdxTable p) :=
    fun p hp => (hloaded.sameMap hp).1
  -- the entry of a map in another slot is neither the one that is set nor the one that is cleared
  have hkept : ∀ p ≠ v, ∀ s, x.occupant p = some s →
      m.mapStateTable s.1 = x.cache.mapStateTable s.1 := fun p hp s hocc => by
    refine hloaded.kept s.1 (fun heq => ?_) fun heq => ?_
    · have hfst : s.1 = r.1 := Fin.ext heq
      by_cases htype : s.2 = r.2
      · exact hout ⟨p, hocc.trans (congrArg some (Prod.ext hfst htype))⟩
      · exact hp (hother p (hocc.trans (congrArg some (Prod.ext hfst (MapType.eq_other htype)))))
    · cases hv : x.occupant v with
      | none =>
        have hzero : s.1.val = 0 := heq.trans (h.unused v hv)
        exact hused.elim (fun hne => hne hv) fun hall => hall s ⟨p, hocc⟩ hzero
      | some t =>
        obtain ⟨-, hnumv, -⟩ := h.used v t hv
        exact hp (h.number_inj hocc hv (Fin.ext (heq.trans hnumv)))
  refine ⟨hloaded.hand, fun p s hocc => ?_, fun p hocc => ?_, fun i hcached => ?_⟩
  · by_cases hp : p = v
    · subst hp
      obtain rfl : r = s := by simpa using hocc
      refine ⟨hvlt, ?_, ?_, hloaded.cached, hloaded.entry⟩
      · rw [hloaded.slot]
        exact Nat.mod_eq_of_lt hnum
      · rw [hloaded.slot]
    · have hocc' : x.occupant p = some s := by simpa [hp] using hocc
      rw [(hsame p hp).mapNum, (hsame p hp).mapType, hkept p hp s hocc']
      exact h.used p s hocc'
  · have hp : p ≠ v := fun hp => by simp [hp] at hocc
    rw [(hsame p hp).mapNum]
    exact h.unused p (by simpa [hp] using hocc)
  · by_cases hi : i = r.1
    · subst hi
      exact ⟨v, r.2, hloaded.entry, Function.update_self ..⟩
    · have hi' : i.val ≠ r.1.val := fun heq => hi (Fin.ext heq)
      have hne : i.val ≠ (x.cache.cacheIdxTable v).mapNum := fun heq => by
        have hclear := hloaded.evicted (heq ▸ hi')
        rw [← heq, hcached] at hclear
        exact Bool.noConfusion hclear
      rw [hloaded.kept i hi' hne] at hcached ⊢
      obtain ⟨p, T, hentry, hocc⟩ := h.cached i hcached
      have hp : p ≠ v := fun hp => hne (hp ▸ (h.used p _ hocc).2.1.symm)
      exact ⟨p, T, hentry, by simpa [hp] using hocc⟩

/-- A miss that is not safe leaves a cached map that `LOOKUP_CACHE` does not find. -/
private theorem IndexInv.safe_of_consistent (h : IndexInv x) {m : MapCache}
    (hloaded : Loaded c r.1 r.2 (x.cache.victim c) x.cache m)
    (hcons : Consistent ⟨m, Function.update x.occupant (x.cache.victim c) (some r)⟩) :
    Safe x r := by
  -- the entry of the number points to the new slot, so no map in another slot has this number
  have hpoint : ∀ p, p ≠ x.cache.victim c → ∀ s, x.occupant p = some s → s.1 ≠ r.1 := by
    intro p hp s hocc heq
    have hfound := hcons.found p s ((Function.update_of_ne hp ..).trans hocc)
    obtain ⟨-, hentry, -⟩ := lookupCache_eq_some.mp hfound
    rw [heq, hloaded.entry] at hentry
    exact hp (Option.some.inj hentry).symm
  refine .inr ⟨?_, ?_, fun p hocc => ?_⟩
  · have hslot := (hcons.slot _ r (Function.update_self ..)).2.1
    dsimp only at hslot
    rw [hloaded.slot] at hslot
    dsimp only at hslot
    exact hslot ▸ Nat.mod_lt _ (by decide)
  · refine or_iff_not_imp_left.mpr fun hunused s ⟨p, hocc⟩ hzero => ?_
    have hunused := not_not.mp hunused
    have hp : p ≠ x.cache.victim c := fun hp => by
      rw [hp, hunused] at hocc
      cases hocc
    have hnum : (x.cache.cacheIdxTable (x.cache.victim c)).mapNum = s.1 :=
      (h.unused _ hunused).trans hzero.symm
    have hclear := hloaded.evicted
      (hnum ▸ fun heq => hpoint p hp s hocc (Fin.ext heq))
    have hfound := hcons.found p s ((Function.update_of_ne hp ..).trans hocc)
    obtain ⟨hcached, -⟩ := lookupCache_eq_some.mp hfound
    rw [hnum, hcached] at hclear
    exact Bool.noConfusion hclear
  · by_contra hp
    exact hpoint p hp _ hocc rfl

/-- A call **keeps the invariant if it is safe**, and breaks the index otherwise. -/
theorem IndexInv.get (h : IndexInv x) (newPage : ℕ → ℤ) (r : MapRef c) :
    ∃ x', x.get newPage r = some x' ∧ (Safe x r → IndexInv x') ∧ (Consistent x' → Safe x r) := by
  cases hlookup : lookupCache r.1 r.2 x.cache with
  | some p => exact ⟨_, get_hit hlookup, fun _ => h.setClockBit p true,
      fun _ => .inl ⟨p, h.lookup.mp hlookup⟩⟩
  | none =>
    obtain ⟨m, heq, hloaded⟩ := get_miss newPage hlookup h.hand
    have hout := h.lookup_none.mp hlookup
    refine ⟨_, heq, fun hsafe => ?_, fun hcons => h.safe_of_consistent hloaded hcons⟩
    obtain ⟨hnum, hused, hother⟩ := hsafe.resolve_left hout
    exact h.load hout hnum hused hother hloaded

/-! ### Runs -/

private theorem init_indexInv (newPage : ℕ → ℤ) (tables : PageTables) :
    IndexInv (⟨initCache c newPage tables, fun _ => none⟩ : Tracked c) where
  hand := c.cacheIdxSize_pos
  used p r hocc := by cases hocc
  unused p hocc := rfl
  cached i hcached := by cases hcached

private theorem track_append (newPage : ℕ → ℤ) (tables : PageTables) (calls : List (MapRef c))
    (r : MapRef c) :
    track newPage tables (calls ++ [r]) = (track newPage tables calls).bind (·.get newPage r) := by
  simp [track, List.foldlM_append]

/-- The invariant holds along a run if every call of it is safe. -/
private theorem track_indexInv {tables : PageTables} {calls : List (MapRef c)}
    (hsafe : ∀ pre r, pre ++ [r] <+: calls → ∀ x, track newPage tables pre = some x →
      IndexInv x → Safe x r) : ∃ x, track newPage tables calls = some x ∧ IndexInv x := by
  induction calls using List.reverseRecOn with
  | nil => exact ⟨_, rfl, init_indexInv newPage tables⟩
  | append_singleton calls r ih =>
    obtain ⟨x, hx, hinv⟩ := ih fun pre s hpre => hsafe pre s (hpre.trans (List.prefix_append ..))
    obtain ⟨x', hx', hkeep, -⟩ := hinv.get newPage r
    refine ⟨x', ?_, hkeep (hsafe calls r List.prefix_rfl x hx hinv)⟩
    rw [track_append, hx]
    exact hx'

/-- **The index is right in every state of a run** exactly if all calls of the run are safe. -/
theorem track_consistent_iff (newPage : ℕ → ℤ) (tables : PageTables) (calls : List (MapRef c)) :
    (∀ pre, pre <+: calls → ∃ x, track newPage tables pre = some x ∧ Consistent x) ↔
      ∀ pre r, pre ++ [r] <+: calls → ∃ x, track newPage tables pre = some x ∧ Safe x r := by
  constructor
  · intro hcons pre r hpre
    have hsafe : ∀ as s, as ++ [s] <+: calls → ∀ x, track newPage tables as = some x →
        IndexInv x → Safe x s := fun as s has x hx hinv => by
      obtain ⟨x', hx', -, hback⟩ := hinv.get newPage s
      obtain ⟨y, hy, hright⟩ := hcons _ has
      rw [track_append, hx] at hy
      obtain rfl : x' = y := Option.some.inj (hx'.symm.trans hy)
      exact hback hright
    have hprefix := (List.prefix_append pre [r]).trans hpre
    obtain ⟨x, hx, hinv⟩ := track_indexInv fun as s has => hsafe as s (has.trans hprefix)
    exact ⟨x, hx, hsafe pre r hpre x hx hinv⟩
  · intro hsafe pre hpre
    have hrun : ∀ as s, as ++ [s] <+: pre → ∀ x, track newPage tables as = some x →
        IndexInv x → Safe x s := fun as s has x hx _ => by
      obtain ⟨y, hy, hs⟩ := hsafe as s (has.trans hpre)
      obtain rfl : x = y := Option.some.inj (hx.symm.trans hy)
      exact hs
    obtain ⟨x, hx, hinv⟩ := track_indexInv hrun
    exact ⟨x, hx, hinv.consistent⟩

/-- The index is wrong after the given calls. -/
def Broken (calls : List (MapRef smallCache)) : Prop :=
  ∃ x, track Int.ofNat freshTables calls = some x ∧ ¬Consistent x

/-- The numbers of the first two maps. -/
def mapZero : Fin smallCache.mapEntryNb := ⟨0, by decide⟩

@[inherit_doc mapZero] def mapOne : Fin smallCache.mapEntryNb := ⟨1, Nat.one_lt_succ_succ 2⟩

/-- Two forward maps: the second is loaded into a slot that was never used, and the first, which has
number 0, is not found any more. A forward and an inverse map of one number: the second hides the
first. -/
theorem track_not_consistent :
    Broken [(mapZero, .map), (mapOne, .map)] ∧ Broken [(mapOne, .map), (mapOne, .invMap)] := by
  refine ⟨⟨_, rfl, fun h => ?_⟩, ⟨_, rfl, fun h => ?_⟩⟩
  · exact absurd (h.found 0 (mapZero, .map) rfl) (by decide)
  · exact absurd (h.found 0 (mapOne, .map) rfl) (by decide)

end Tracked

end MapCache

end Vssim
