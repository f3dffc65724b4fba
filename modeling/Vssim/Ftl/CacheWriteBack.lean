import Vssim.Ftl.MapCache
import Mathlib.Data.List.Induction

/-!
# What the map cache writes back

`CACHE_UPDATE_PPN` and `CACHE_UPDATE_LPN` set the update bit of a slot and store the new entry in
the mapping table; the copy of the map in the slot stays as it was loaded. When the slot is
replaced, `CACHE_EVICT_MAP` writes that copy back.

For every slot that is written back there is the call that loaded it last (`LastLoad`). The data
written back is the map as it was then, so it is up to date exactly if the entries of the map are
what they were before that call (`writeBack_current_iff`).
-/

namespace Vssim

/-- The calls of the rest of the FTL. -/
inductive CacheCall
  | getPpn (lpn : ℤ)
  | getLpn (ppn : ℤ)
  | updatePpn (lpn ppn : ℤ)
  | updateLpn (lpn ppn : ℤ)

namespace CacheCall

/-- The table that a call is about. -/
def mapType : CacheCall → MapType
  | .getPpn _ | .updatePpn _ _ => .map
  | .getLpn _ | .updateLpn _ _ => .invMap

/-- The page that a call looks up. -/
def page : CacheCall → ℤ
  | .getPpn lpn | .updatePpn lpn _ => lpn
  | .getLpn ppn | .updateLpn _ ppn => ppn

/-- The number of the map that a call looks up. -/
def mapIndex (c : CacheConfig) (x : CacheCall) : ℕ := MapCache.mapIndexOf c x.page

/-- The tables after a call. -/
def put (f : MapType → ℤ → ℤ) : CacheCall → MapType → ℤ → ℤ
  | .updatePpn lpn ppn => Function.update f .map (Function.update (f .map) lpn ppn)
  | .updateLpn lpn ppn => Function.update f .invMap (Function.update (f .invMap) ppn lpn)
  | .getPpn _ | .getLpn _ => f

end CacheCall

namespace MapCache

variable (c : CacheConfig) (newPage : ℕ → ℤ)

/-- The effect of a call. -/
def call (x : CacheCall) (m : MapCache) : Option MapCache :=
  match x with
  | .getPpn lpn => (cacheGetPpn c newPage lpn m).map Prod.snd
  | .getLpn ppn => (cacheGetLpn c newPage ppn m).map Prod.snd
  | .updatePpn lpn ppn => cacheUpdatePpn c newPage lpn ppn m
  | .updateLpn lpn ppn => cacheUpdateLpn c newPage lpn ppn m

/-- A run from `INIT_CACHE`. -/
def runCalls (tables : PageTables) (calls : List CacheCall) : Option MapCache :=
  calls.foldlM (fun m x => call c newPage x m) (initCache c newPage tables)

/-- The slot that a call loads a map into, if it does. -/
def loads (m : MapCache) (x : CacheCall) : Option ℕ :=
  if (lookupCache (x.mapIndex c) x.mapType m).isNone then some (m.victim c) else none

/-- The contents of the tables after calls: each entry has the value stored last. -/
def contents (tables : PageTables) (calls : List CacheCall) : MapType → ℤ → ℤ :=
  calls.foldl CacheCall.put
    fun mapType => match mapType with
      | .map => tables.mappingTable
      | .invMap => tables.inverseMappingTable

/-- The index of the first entry of a map. -/
def firstEntry (mapIndex : ℕ) : ℤ := toI32 ((mapIndex * c.mapEntriesPerPage : ℕ) : ℤ)

/-- `load` loads slot `v`, and none of the calls `mid` after it does. -/
structure LastLoad (tables : PageTables) (pre : List CacheCall) (load : CacheCall)
    (mid : List CacheCall) (v : ℕ) : Prop where
  here : ∃ m, runCalls c newPage tables pre = some m ∧ loads c m load = some v
  since : ∀ as x, as ++ [x] <+: mid → ∀ m,
    runCalls c newPage tables (pre ++ load :: as) = some m → loads c m x ≠ some v

/-- The entries of the map that slot and table have for `load` are what they were before it, when
the calls `calls` have been made. A slot keeps 29 bits of the map number. -/
def Unchanged (tables : PageTables) (pre : List CacheCall) (load : CacheCall)
    (calls : List CacheCall) : Prop :=
  ∀ k < c.mapEntriesPerPage,
    contents tables calls load.mapType (firstEntry c (load.mapIndex c % 2 ^ 29) + k) =
      contents tables pre load.mapType (firstEntry c (load.mapIndex c) + k)

/-! ### One call -/

/-- The part of a call after `CACHE_GET_MAP`. -/
def finish (p : ℕ) (m : MapCache) : CacheCall → MapCache
  | .updatePpn lpn ppn =>
    let m := setUpdateBit p m
    { m with
      tables := { m.tables with mappingTable := Function.update m.tables.mappingTable lpn ppn } }
  | .updateLpn lpn ppn =>
    let m := setUpdateBit p m
    { m with tables := updateInverseMapping ppn lpn m.tables }
  | .getPpn _ | .getLpn _ => m

variable {c} {newPage} {m m' : MapCache} {x : CacheCall}

private theorem call_eq (x : CacheCall) (m : MapCache) : call c newPage x m =
    (cacheGetMap c newPage (x.mapIndex c) x.mapType m).map fun st => finish st.1 st.2 x := by
  cases x with
  | getPpn lpn => rw [call, cacheGetPpn, Option.map_map]; rfl
  | getLpn ppn => rw [call, cacheGetLpn, Option.map_map]; rfl
  | updatePpn lpn ppn => rfl
  | updateLpn lpn ppn => rfl

private theorem finish_sameMap (p w : ℕ) (m : MapCache) (x : CacheCall) :
    SameMap (m.cacheIdxTable w) ((finish p m x).cacheIdxTable w) ∧
      (w ≠ p → ((finish p m x).cacheIdxTable w).updateBit = (m.cacheIdxTable w).updateBit) := by
  cases x with
  | getPpn lpn => exact ⟨.rfl, fun _ => rfl⟩
  | getLpn ppn => exact ⟨.rfl, fun _ => rfl⟩
  | updatePpn lpn ppn => exact setUpdateBit_sameMap p w
  | updateLpn lpn ppn => exact setUpdateBit_sameMap p w

private theorem finish_frame (p : ℕ) (m : MapCache) (x : CacheCall) :
    (finish p m x).mapStateTable = m.mapStateTable ∧ (finish p m x).clockHand = m.clockHand ∧
      (finish p m x).cacheMapData = m.cacheMapData := by
  cases x with
  | getPpn lpn => exact ⟨rfl, rfl, rfl⟩
  | getLpn ppn => exact ⟨rfl, rfl, rfl⟩
  | updatePpn lpn ppn => exact ⟨rfl, rfl, rfl⟩
  | updateLpn lpn ppn => exact ⟨rfl, rfl, rfl⟩

private theorem finish_mapTable (p : ℕ) (m : MapCache) (x : CacheCall) :
    (finish p m x).mapTable = x.put m.mapTable := by
  funext mapType
  cases x with
  | getPpn lpn => rfl
  | getLpn ppn => rfl
  | updatePpn lpn ppn => cases mapType <;> rfl
  | updateLpn lpn ppn => cases mapType <;> rfl

/-- What a call does to slots, pointers and tables. -/
structure Called (c : CacheConfig) (m : MapCache) (x : CacheCall) (m' : MapCache) : Prop where
  hand : m'.clockHand < c.cacheIdxSize
  table : m'.mapTable = x.put m.mapTable
  loaded : ∀ v, loads c m x = some v →
    SameMap ⟨x.mapIndex c % 2 ^ 29, true, x.mapType, false, mapSlice c (x.mapIndex c) x.mapType m⟩
      (m'.cacheIdxTable v)
  kept : ∀ w, loads c m x ≠ some w → SameMap (m.cacheIdxTable w) (m'.cacheIdxTable w)
  /-- Update bits are set in slots that the call has found or loaded only. -/
  update : ∀ w, (m'.cacheIdxTable w).updateBit = true → loads c m x = some w ∨
    (m.cacheIdxTable w).updateBit = true ∨ lookupCache (x.mapIndex c) x.mapType m = some w
  /-- Pointers are set to slots that the call has loaded only. -/
  pointer : ∀ j w, (m'.mapStateTable j).isCached = true →
    (m'.mapStateTable j).cacheEntry = some w → loads c m x = some w ∨
      (m.mapStateTable j).isCached = true ∧ (m.mapStateTable j).cacheEntry = some w
  saved : ∀ v, loads c m x = some v → (m.cacheIdxTable v).updateBit = true →
    ∃ ppn, m'.cacheMapData = m.cacheMapData ++ [⟨ppn, (m.cacheIdxTable v).data⟩]

private theorem called_hit {p : ℕ} (hhand : m.clockHand < c.cacheIdxSize)
    (hlookup : lookupCache (x.mapIndex c) x.mapType m = some p) :
    Called c m x (finish p (setClockBit p true m) x) := by
  have hnone : loads c m x = none := by rw [loads, hlookup]; rfl
  obtain ⟨hstate, hhand', -⟩ := finish_frame p (setClockBit p true m) x
  refine ⟨hhand' ▸ hhand, finish_mapTable .., fun v hv => ?_, fun w _ => ?_, fun w hw => ?_,
    fun j w hcached hentry => ?_, fun v hv => ?_⟩
  · rw [hnone] at hv
    cases hv
  · exact (setClockBit_sameMap p true w).1.trans (finish_sameMap p w _ x).1
  · by_cases hwp : w = p
    · exact .inr (.inr (hwp ▸ hlookup))
    · rw [(finish_sameMap p w _ x).2 hwp, (setClockBit_sameMap p true w).2] at hw
      exact .inr (.inl hw)
  · rw [hstate] at hcached hentry
    exact .inr ⟨hcached, hentry⟩
  · rw [hnone] at hv
    cases hv

private theorem called_miss {v : ℕ} (hloads : loads c m x = some v)
    (h : Loaded c (x.mapIndex c) x.mapType v m m') : Called c m x (finish v m' x) := by
  obtain ⟨hstate, hhand, hsaved⟩ := finish_frame v m' x
  have htable : m'.mapTable = m.mapTable := by
    funext mapType
    cases mapType with
    | map => exact congrArg PageTables.mappingTable h.tables
    | invMap => exact congrArg PageTables.inverseMappingTable h.tables
  refine ⟨hhand ▸ h.hand, (finish_mapTable ..).trans (by rw [htable]), fun w hw => ?_,
    fun w hw => ?_, fun w hw => ?_, fun j w hcached hentry => ?_, fun w hw hupdate => ?_⟩
  · obtain rfl : v = w := Option.some.inj (hloads.symm.trans hw)
    have hfinish := (finish_sameMap v v m' x).1
    rw [h.slot] at hfinish
    exact hfinish
  · have hne : w ≠ v := fun heq => hw (heq ▸ hloads)
    exact (h.sameMap hne).1.trans (finish_sameMap v w m' x).1
  · by_cases hwv : w = v
    · exact .inl (hwv ▸ hloads)
    · rw [(finish_sameMap v w m' x).2 hwv, (h.sameMap hwv).2] at hw
      exact .inr (.inl hw)
  · rw [hstate] at hcached hentry
    by_cases hj : j = x.mapIndex c
    · rw [hj, h.entry] at hentry
      exact .inl (hloads.trans hentry)
    · by_cases hnum : j = (m.cacheIdxTable v).mapNum
      · rw [hnum, h.evicted (hnum ▸ hj)] at hcached
        cases hcached
      · rw [h.kept j hj hnum] at hcached hentry
        exact .inr ⟨hcached, hentry⟩
  · obtain rfl : v = w := Option.some.inj (hloads.symm.trans hw)
    obtain ⟨ppn, heq⟩ := h.saved
    rw [if_pos hupdate] at heq
    exact ⟨ppn, hsaved.trans heq⟩

private theorem call_called (newPage : ℕ → ℤ) (x : CacheCall)
    (hhand : m.clockHand < c.cacheIdxSize) :
    ∃ m', call c newPage x m = some m' ∧ Called c m x m' := by
  rw [call_eq]
  cases hlookup : lookupCache (x.mapIndex c) x.mapType m with
  | some p =>
    refine ⟨_, ?_, called_hit hhand hlookup⟩
    rw [cacheGetMap_hit hlookup]
    rfl
  | none =>
    obtain ⟨m₁, heq, hloaded⟩ := cacheGetMap_miss newPage hlookup hhand
    have hloads : loads c m x = some (m.victim c) := by rw [loads, hlookup]; rfl
    refine ⟨_, ?_, called_miss hloads hloaded⟩
    rw [heq]
    rfl

/-! ### Runs -/

/-- Where the map in a slot comes from. -/
def Origin (c : CacheConfig) (newPage : ℕ → ℤ) (tables : PageTables) (calls : List CacheCall)
    (w : ℕ) (e : CacheIdxEntry) : Prop :=
  ∃ pre load mid, calls = pre ++ load :: mid ∧ LastLoad c newPage tables pre load mid w ∧
    e.mapNum = load.mapIndex c % 2 ^ 29 ∧ e.mapType = load.mapType ∧
    e.data = (List.range c.mapEntriesPerPage).map fun k : ℕ =>
      contents tables pre load.mapType (firstEntry c (load.mapIndex c) + k)

variable {tables : PageTables} {calls : List CacheCall} {w : ℕ} {e e' : CacheIdxEntry}

private theorem runCalls_append (calls : List CacheCall) (x : CacheCall) :
    runCalls c newPage tables (calls ++ [x]) =
      (runCalls c newPage tables calls).bind (call c newPage x) := by
  simp [runCalls, List.foldlM_append]

private theorem contents_append (calls : List CacheCall) (x : CacheCall) :
    contents tables (calls ++ [x]) = x.put (contents tables calls) := by
  rw [contents, List.foldl_append]
  rfl

/-- A call that loads another slot. -/
private theorem Origin.append (h : Origin c newPage tables calls w e)
    (hrun : runCalls c newPage tables calls = some m) (hloads : loads c m x ≠ some w)
    (hsame : SameMap e e') : Origin c newPage tables (calls ++ [x]) w e' := by
  obtain ⟨pre, load, mid, rfl, hlast, hnum, htype, hdata⟩ := h
  refine ⟨pre, load, mid ++ [x], by simp, ⟨hlast.here, fun as y has m₁ hm₁ => ?_⟩,
    hsame.mapNum.trans hnum, hsame.mapType.trans htype, hsame.data.trans hdata⟩
  rcases List.prefix_concat_iff.mp has with heq | hprefix
  · obtain ⟨rfl, hyx⟩ := List.append_inj' heq rfl
    obtain rfl := List.singleton_inj.mp hyx
    obtain rfl : m₁ = m := Option.some.inj (hm₁.symm.trans hrun)
    exact hloads
  · exact hlast.since as y hprefix m₁ hm₁

/-- The state of a run: tables and hand, and the origin of the slots that may be written back. -/
structure Traced (c : CacheConfig) (newPage : ℕ → ℤ) (tables : PageTables)
    (calls : List CacheCall) (m : MapCache) : Prop where
  hand : m.clockHand < c.cacheIdxSize
  table : m.mapTable = contents tables calls
  update : ∀ w, (m.cacheIdxTable w).updateBit = true →
    Origin c newPage tables calls w (m.cacheIdxTable w)
  pointer : ∀ j w, (m.mapStateTable j).isCached = true →
    (m.mapStateTable j).cacheEntry = some w →
    Origin c newPage tables calls w (m.cacheIdxTable w)

private theorem Traced.call (h : Traced c newPage tables calls m)
    (hrun : runCalls c newPage tables calls = some m) (hcall : Called c m x m') :
    Traced c newPage tables (calls ++ [x]) m' := by
  -- the slot that is loaded now, and the other slots
  have hload : ∀ w, loads c m x = some w →
      Origin c newPage tables (calls ++ [x]) w (m'.cacheIdxTable w) := fun w hw => by
    have hloaded := hcall.loaded w hw
    refine ⟨calls, x, [], rfl, ⟨⟨m, hrun, hw⟩, fun as y has => ?_⟩, hloaded.mapNum,
      hloaded.mapType, hloaded.data.trans ?_⟩
    · simpa using has.length_le
    · rw [← h.table]
      rfl
  have hkeep : ∀ w, loads c m x ≠ some w → Origin c newPage tables calls w (m.cacheIdxTable w) →
      Origin c newPage tables (calls ++ [x]) w (m'.cacheIdxTable w) := fun w hw horigin =>
    horigin.append hrun hw (hcall.kept w hw)
  refine ⟨hcall.hand, ?_, fun w hw => ?_, fun j w hcached hentry => ?_⟩
  · rw [hcall.table, h.table, contents_append]
  · by_cases hw' : loads c m x = some w
    · exact hload w hw'
    · refine hkeep w hw' ?_
      rcases (hcall.update w hw).resolve_left hw' with hold | hlookup
      · exact h.update w hold
      · obtain ⟨hcached, hentry, -⟩ := lookupCache_eq_some.mp hlookup
        exact h.pointer _ w hcached hentry
  · by_cases hw' : loads c m x = some w
    · exact hload w hw'
    · obtain ⟨hcached', hentry'⟩ := (hcall.pointer j w hcached hentry).resolve_left hw'
      exact hkeep w hw' (h.pointer j w hcached' hentry')

private theorem runCalls_traced (newPage : ℕ → ℤ) (tables : PageTables) (calls : List CacheCall) :
    ∃ m, runCalls c newPage tables calls = some m ∧ Traced c newPage tables calls m := by
  induction calls using List.reverseRecOn with
  | nil =>
    refine ⟨_, rfl, c.cacheIdxSize_pos, ?_, fun w hw => ?_, fun j w hcached => ?_⟩
    · funext mapType
      cases mapType <;> rfl
    · cases hw
    · cases hcached
  | append_singleton calls x ih =>
    obtain ⟨m, hrun, h⟩ := ih
    obtain ⟨m', hcall, hcalled⟩ := call_called newPage x h.hand
    refine ⟨m', ?_, h.call hrun hcalled⟩
    rw [runCalls_append, hrun]
    exact hcall

/-- **What is written back is up to date** exactly if the map in the table is the one that the slot
was loaded with. -/
theorem writeBack_current_iff (newPage : ℕ → ℤ) (tables : PageTables) (calls : List CacheCall)
    (x : CacheCall) : ∃ m, runCalls c newPage tables calls = some m ∧
      ∀ v, loads c m x = some v → (m.cacheIdxTable v).updateBit = true →
        (∃ m' ppn, call c newPage x m = some m' ∧
          m'.cacheMapData = m.cacheMapData ++ [⟨ppn, (m.cacheIdxTable v).data⟩]) ∧
        ∃ pre load mid, calls = pre ++ load :: mid ∧
          LastLoad c newPage tables pre load mid v ∧
          ((m.cacheIdxTable v).data =
              mapSlice c (m.cacheIdxTable v).mapNum (m.cacheIdxTable v).mapType m ↔
            Unchanged c tables pre load calls) := by
  obtain ⟨m, hrun, h⟩ := runCalls_traced (c := c) newPage tables calls
  refine ⟨m, hrun, fun v hloads hupdate => ?_⟩
  obtain ⟨m', hcall, hcalled⟩ := call_called newPage x h.hand
  obtain ⟨ppn, hsaved⟩ := hcalled.saved v hloads hupdate
  refine ⟨⟨m', ppn, hcall, hsaved⟩, ?_⟩
  obtain ⟨pre, load, mid, heq, hlast, hnum, htype, hdata⟩ := h.update v hupdate
  refine ⟨pre, load, mid, heq, hlast, ?_⟩
  have hslice : mapSlice c (load.mapIndex c % 2 ^ 29) load.mapType m =
      (List.range c.mapEntriesPerPage).map fun k : ℕ =>
        contents tables calls load.mapType (firstEntry c (load.mapIndex c % 2 ^ 29) + k) := by
    rw [← h.table]
    rfl
  rw [hnum, htype, hdata, hslice, List.map_inj_left, Unchanged]
  exact forall_congr' fun k => imp_congr List.mem_range eq_comm

/-- A page is mapped, and two other maps are looked up. The second of them replaces the map of the
page, which is written back without the new entry. -/
theorem writeBack_stale :
    (runCalls smallCache Int.ofNat freshTables [.updatePpn 0 5, .getPpn 2]).map (fun m =>
      (loads smallCache m (.getPpn 4), (m.cacheIdxTable 0).updateBit, (m.cacheIdxTable 0).data,
        mapSlice smallCache (m.cacheIdxTable 0).mapNum (m.cacheIdxTable 0).mapType m)) =
      some (some 0, true, [-1, -1], [5, -1]) ∧
    (runCalls smallCache Int.ofNat freshTables [.updatePpn 0 5, .getPpn 2, .getPpn 4]).map
      (fun m => m.cacheMapData.map MapData.data) = some [[-1, -1]] := by
  decide +kernel

end MapCache

end Vssim
