import Vssim.Ftl.Mapping
import Vssim.Library.SecondChance

/-!
# The map cache

`ftl_cache.c`, the code under `FTL_MAP_CACHE`. The forward and the inverse mapping table are cut
into **maps** of `MAP_ENTRIES_PER_PAGE` entries. A cache of `CACHE_IDX_SIZE` slots holds copies of
some of them, a table with one entry per map number points into the cache, and the clock policy
picks the slot that a new map replaces.

Slots are referred to by their index. `GET_NEW_PAGE` enters only with the page it leaves in
`new_ppn`, call by call; `CELL_READ` and `CELL_WRITE`, which the repository does not define, are
taken to charge a delay only. `inverse_page_mapping_table` is taken to be the inverse mapping
table.
-/

namespace Vssim

/-- `MAP` and `INV_MAP`. -/
inductive MapType
  | map
  | invMap
  deriving DecidableEq, Repr

/-- The other table. -/
def MapType.other : MapType → MapType
  | .map => .invMap
  | .invMap => .map

/-- The sizes of the map cache. -/
structure CacheConfig where
  /-- `CACHE_IDX_SIZE`. -/
  cacheIdxSize : ℕ
  /-- `MAP_ENTRIES_PER_PAGE`, which is `PAGE_SIZE / MAP_ENTRY_SIZE`. -/
  mapEntriesPerPage : ℕ
  /-- `MAP_ENTRY_NB`, which is `PAGE_MAPPING_ENTRY_NB / MAP_ENTRIES_PER_PAGE`. -/
  mapEntryNb : ℕ
  cacheIdxSize_pos : 0 < cacheIdxSize
  mapEntriesPerPage_pos : 0 < mapEntriesPerPage

/-- A `cache_idx_entry`. The map number is a 29-bit bit-field. -/
structure CacheIdxEntry where
  mapNum : ℕ
  clockBit : Bool
  mapType : MapType
  updateBit : Bool
  data : List ℤ

/-- A `map_state_entry`. -/
structure MapStateEntry where
  ppn : ℤ
  isCached : Bool
  cacheEntry : Option ℕ

/-- A `map_data`: a map that was written back and the page it was written to. -/
structure MapData where
  ppn : ℕ
  data : List ℤ

/-- The state of the map cache, with the tables it caches. -/
structure MapCache where
  cacheIdxTable : ℕ → CacheIdxEntry
  mapStateTable : ℕ → MapStateEntry
  clockHand : ℕ
  /-- The list from `cache_map_data_start` to `cache_map_data_end`. -/
  cacheMapData : List MapData
  tables : PageTables
  /-- The number of calls of `GET_NEW_PAGE`. -/
  newPageNb : ℕ

namespace MapCache

variable (c : CacheConfig) (newPage : ℕ → ℤ)

/-- `INIT_CACHE`, without a file to load. -/
def initCache (tables : PageTables) : MapCache where
  cacheIdxTable := fun _ => ⟨0, false, .map, false, List.replicate c.mapEntriesPerPage 0⟩
  mapStateTable := fun i => ⟨newPage i, false, none⟩
  clockHand := 0
  cacheMapData := []
  tables := tables
  newPageNb := c.mapEntryNb

/-- The table whose maps have the given type. -/
def mapTable (m : MapCache) : MapType → ℤ → ℤ
  | .map => m.tables.mappingTable
  | .invMap => m.tables.inverseMappingTable

/-- The entries of a map, as they stand in the table. -/
def mapSlice (mapIndex : ℕ) (mapType : MapType) (m : MapCache) : List ℤ :=
  let index := toI32 ((mapIndex * c.mapEntriesPerPage : ℕ) : ℤ)
  (List.range c.mapEntriesPerPage).map fun k : ℕ => m.mapTable mapType (index + k)

/-- `LOOKUP_CACHE`. The pointer of an entry is set whenever `is_cached` is. -/
def lookupCache (mapIndex : ℕ) (mapType : MapType) (m : MapCache) : Option ℕ :=
  let curr := m.mapStateTable mapIndex
  if curr.isCached then
    match curr.cacheEntry with
    | none => none
    | some p =>
      if (m.cacheIdxTable p).mapType = mapType ∧ (m.cacheIdxTable p).mapNum = mapIndex
      then some p else none
  else none

/-- Write the clock bit of a slot. -/
def setClockBit (p : ℕ) (b : Bool) (m : MapCache) : MapCache :=
  { m with
    cacheIdxTable := Function.update m.cacheIdxTable p { m.cacheIdxTable p with clockBit := b } }

/-- `CACHE_SELECT_VICTIM`, looking at no more than `fuel` slots. -/
def cacheSelectVictim : ℕ → MapCache → Option (ℕ × MapCache)
  | 0, _ => none
  | fuel + 1, m =>
    let idx := if m.clockHand = c.cacheIdxSize then 0 else m.clockHand
    let m := { m with
      clockHand := if m.clockHand + 1 = c.cacheIdxSize then 0 else m.clockHand + 1 }
    if (m.cacheIdxTable idx).clockBit then cacheSelectVictim fuel (setClockBit idx false m)
    else some (idx, setClockBit idx true m)

/-- `WRITE_MAP` and `REARRANGE_MAP_DATA_ENTRY`. -/
def writeMap (pageNb : ℕ) (buf : List ℤ) (m : MapCache) : MapCache :=
  { m with cacheMapData := m.cacheMapData ++ [⟨pageNb, buf⟩] }

/-- The part of `CACHE_EVICT_MAP` that writes a map back to a new page. -/
def writeBack (mapIndex : ℕ) (data : List ℤ) (m : MapCache) : MapCache :=
  let newPpn := newPage m.newPageNb
  let m := writeMap (toU32 newPpn) data { m with newPageNb := m.newPageNb + 1 }
  { m with
    mapStateTable := Function.update m.mapStateTable mapIndex
      { m.mapStateTable mapIndex with ppn := newPpn } }

/-- `CACHE_EVICT_MAP`. One inspection more than there are slots is enough for the selection. -/
def cacheEvictMap (m : MapCache) : Option (ℕ × MapCache) :=
  (cacheSelectVictim c (c.cacheIdxSize + 1) m).map fun (victimIndex, m) =>
    let curr := m.cacheIdxTable victimIndex
    let m := if curr.updateBit then writeBack newPage curr.mapNum curr.data m else m
    (victimIndex,
      { m with
        mapStateTable := Function.update m.mapStateTable curr.mapNum
          { m.mapStateTable curr.mapNum with isCached := false, cacheEntry := none }
        cacheIdxTable := Function.update m.cacheIdxTable victimIndex
          { curr with mapNum := 0, clockBit := false, updateBit := false } })

/-- `CACHE_INSERT_MAP`; the result is a pointer to the slot. -/
def cacheInsertMap (mapIndex : ℕ) (mapType : MapType) (victimIndex : ℕ) (m : MapCache) : MapCache :=
  { m with
    cacheIdxTable := Function.update m.cacheIdxTable victimIndex
      ⟨mapIndex % 2 ^ 29, true, mapType, false, mapSlice c mapIndex mapType m⟩
    mapStateTable := Function.update m.mapStateTable mapIndex
      { m.mapStateTable mapIndex with isCached := true, cacheEntry := some victimIndex } }

/-- `CACHE_GET_MAP`; the result is a pointer to the slot. -/
def cacheGetMap (mapIndex : ℕ) (mapType : MapType) (m : MapCache) : Option (ℕ × MapCache) :=
  match lookupCache mapIndex mapType m with
  | some p => some (p, setClockBit p true m)
  | none => (cacheEvictMap c newPage m).map fun (victimIndex, m) =>
    (victimIndex, cacheInsertMap c mapIndex mapType victimIndex m)

/-- The number of the map that holds a page, which is divided as an unsigned number. -/
def mapIndexOf (page : ℤ) : ℕ := toU32 page / c.mapEntriesPerPage

/-- `CACHE_GET_PPN`. -/
def cacheGetPpn (lpn : ℤ) (m : MapCache) : Option (ℤ × MapCache) :=
  (cacheGetMap c newPage (mapIndexOf c lpn) .map m).map fun (_, m) => (m.tables.mappingTable lpn, m)

/-- `CACHE_GET_LPN`. -/
def cacheGetLpn (ppn : ℤ) (m : MapCache) : Option (ℤ × MapCache) :=
  (cacheGetMap c newPage (mapIndexOf c ppn) .invMap m).map fun (_, m) =>
    (m.tables.inverseMappingTable ppn, m)

/-- Set the update bit of a slot. -/
def setUpdateBit (p : ℕ) (m : MapCache) : MapCache :=
  { m with
    cacheIdxTable :=
      Function.update m.cacheIdxTable p { m.cacheIdxTable p with updateBit := true } }

/-- `CACHE_UPDATE_PPN`. The entry is written to the table, not to the copy in the slot. -/
def cacheUpdatePpn (lpn ppn : ℤ) (m : MapCache) : Option MapCache :=
  (cacheGetMap c newPage (mapIndexOf c lpn) .map m).map fun (p, m) =>
    let m := setUpdateBit p m
    { m with
      tables := { m.tables with mappingTable := Function.update m.tables.mappingTable lpn ppn } }

/-- `CACHE_UPDATE_LPN`. -/
def cacheUpdateLpn (lpn ppn : ℤ) (m : MapCache) : Option MapCache :=
  (cacheGetMap c newPage (mapIndexOf c ppn) .invMap m).map fun (p, m) =>
    let m := setUpdateBit p m
    { m with tables := updateInverseMapping ppn lpn m.tables }

/-! ### Victims -/

/-- The clock bits of the slots. -/
def clockBits (m : MapCache) : ℕ → Bool := fun q => (m.cacheIdxTable q).clockBit

/-- The slot that is replaced next. -/
def victim (m : MapCache) : ℕ := SecondChance.victim c.cacheIdxSize m.clockHand m.clockBits

/-- Move the hand and write all clock bits. -/
def withClock (hand : ℕ) (bits : ℕ → Bool) (m : MapCache) : MapCache :=
  { m with
    clockHand := hand
    cacheIdxTable := fun q => { m.cacheIdxTable q with clockBit := bits q } }

variable {c} {newPage} {m m' : MapCache}

private theorem clockBits_setClockBit (p : ℕ) (b : Bool) :
    (setClockBit p b m).clockBits = Function.update m.clockBits p b := by
  funext q
  by_cases hq : q = p
  · subst hq
    simp [clockBits, setClockBit]
  · simp [clockBits, setClockBit, hq]

/-- Clock bits that are written over do not matter. -/
private theorem withClock_setClockBit (hand : ℕ) (bits : ℕ → Bool) (p h : ℕ) (b : Bool) :
    withClock hand bits (setClockBit p b { m with clockHand := h }) = m.withClock hand bits := by
  simp only [withClock, setClockBit, MapCache.mk.injEq, and_true]
  funext q
  by_cases hq : q = p
  · subst hq
    rw [Function.update_self]
  · rw [Function.update_of_ne hq]

private theorem setClockBit_eq_withClock (hand p : ℕ) (b : Bool) :
    setClockBit p b { m with clockHand := hand } =
      m.withClock hand (Function.update m.clockBits p b) := by
  rw [← withClock_setClockBit hand _ p hand b,
    show Function.update m.clockBits p b =
      (setClockBit p b { m with clockHand := hand }).clockBits from
      (clockBits_setClockBit (m := { m with clockHand := hand }) p b).symm]
  rfl

/-- The loop of `CACHE_SELECT_VICTIM` **is the clock policy** on the hand and the clock bits. -/
theorem cacheSelectVictim_eq_select (fuel : ℕ) (h : m.clockHand < c.cacheIdxSize) :
    cacheSelectVictim c fuel m =
      (SecondChance.select c.cacheIdxSize fuel m.clockHand m.clockBits).map
        fun st => (st.1, m.withClock st.2.1 st.2.2) := by
  induction fuel generalizing m with
  | zero => rfl
  | succ fuel ih =>
    have hidx : (if m.clockHand = c.cacheIdxSize then 0 else m.clockHand) = m.clockHand :=
      if_neg h.ne
    have hwrap : (if m.clockHand + 1 = c.cacheIdxSize then 0 else m.clockHand + 1) =
        (m.clockHand + 1) % c.cacheIdxSize := by
      split
      · rename_i heq
        rw [heq, Nat.mod_self]
      · rw [Nat.mod_eq_of_lt (by omega)]
    rw [cacheSelectVictim, SecondChance.select]
    simp only [hidx, hwrap]
    by_cases hbit : (m.cacheIdxTable m.clockHand).clockBit = true
    · rw [if_pos hbit, if_pos (show m.clockBits m.clockHand = true from hbit),
        ih (Nat.mod_lt _ c.cacheIdxSize_pos), clockBits_setClockBit]
      refine congrArg (Option.map · _) (funext fun st => ?_)
      exact congrArg (Prod.mk st.1) (withClock_setClockBit ..)
    · rw [if_neg hbit, if_neg (show ¬m.clockBits m.clockHand = true from hbit), Option.map_some,
        setClockBit_eq_withClock]

/-- The result of `CACHE_SELECT_VICTIM`. -/
private theorem cacheSelectVictim_eq (h : m.clockHand < c.cacheIdxSize) {fuel : ℕ}
    (hfuel : SecondChance.offset c.cacheIdxSize m.clockHand m.clockBits < fuel) :
    cacheSelectVictim c fuel m = some (m.victim c, m.withClock ((m.victim c + 1) % c.cacheIdxSize)
      (SecondChance.settle c.cacheIdxSize m.clockHand m.clockBits)) := by
  rw [cacheSelectVictim_eq_select fuel h, SecondChance.select_eq h hfuel]
  rfl

/-- What the selection of slot `v`, `k` steps from the hand, leaves behind. -/
structure Selected (c : CacheConfig) (m : MapCache) (k v : ℕ) (m' : MapCache) : Prop where
  steps : k ≤ c.cacheIdxSize
  slot : v = (m.clockHand + k) % c.cacheIdxSize
  lt : v < c.cacheIdxSize
  /-- The bits of the slots before the victim were set. -/
  first : ∀ j < k, (m.cacheIdxTable ((m.clockHand + j) % c.cacheIdxSize)).clockBit = true
  found : k < c.cacheIdxSize → (m.cacheIdxTable v).clockBit = false
  /-- The hand has come round only if all bits were set. -/
  round : k = c.cacheIdxSize →
    v = m.clockHand ∧ ∀ q < c.cacheIdxSize, (m.cacheIdxTable q).clockBit = true
  victim : (m'.cacheIdxTable v).clockBit = true
  passed : ∀ j < k, (m.clockHand + j) % c.cacheIdxSize ≠ v →
    (m'.cacheIdxTable ((m.clockHand + j) % c.cacheIdxSize)).clockBit = false
  remaining : ∀ q, q ≠ v → (∀ j < k, (m.clockHand + j) % c.cacheIdxSize ≠ q) →
    (m'.cacheIdxTable q).clockBit = (m.cacheIdxTable q).clockBit
  hand : m'.clockHand = (v + 1) % c.cacheIdxSize
  hand_lt : m'.clockHand < c.cacheIdxSize
  /-- Nothing but the hand and the clock bits has changed. -/
  rest : m' = m.withClock m'.clockHand m'.clockBits

/-- `CACHE_SELECT_VICTIM` **terminates** after at most one inspection more than there are slots,
with the first slot from the hand on whose bit is clear. -/
theorem cacheSelectVictim_selected (h : m.clockHand < c.cacheIdxSize) :
    ∃ k v m', Selected c m k v m' ∧ (∀ fuel ≤ k, cacheSelectVictim c fuel m = none) ∧
      ∀ fuel, k < fuel → cacheSelectVictim c fuel m = some (v, m') := by
  refine ⟨SecondChance.offset c.cacheIdxSize m.clockHand m.clockBits, m.victim c,
    m.withClock ((m.victim c + 1) % c.cacheIdxSize)
      (SecondChance.settle c.cacheIdxSize m.clockHand m.clockBits), ?_, fun fuel hfuel => ?_,
    fun fuel hfuel => cacheSelectVictim_eq h hfuel⟩
  · refine ⟨SecondChance.offset_le .., rfl, SecondChance.victim_lt h, ?_, ?_, ?_, ?_, ?_, ?_, rfl,
      Nat.mod_lt _ c.cacheIdxSize_pos, rfl⟩
    · exact fun j hj => SecondChance.bits_of_lt_offset hj
    · exact fun hlt => SecondChance.bits_victim hlt
    · intro hround
      refine ⟨SecondChance.victim_eq_hand h hround, fun q hq => ?_⟩
      obtain ⟨j, hj, rfl⟩ := SecondChance.exists_pos h hq
      exact SecondChance.bits_of_lt_offset (hj.trans_eq hround.symm)
    · exact Function.update_self ..
    · intro j hj hne
      exact (Function.update_of_ne hne ..).trans (if_pos ⟨j, hj, rfl⟩)
    · intro q hne hout
      refine (Function.update_of_ne hne ..).trans (if_neg ?_)
      rintro ⟨j, hj, heq⟩
      exact hout j hj heq
  · rw [cacheSelectVictim_eq_select fuel h, SecondChance.select_eq_none h hfuel]
    rfl

/-- A cache of two slots for four maps of two entries. -/
def smallCache : CacheConfig where
  cacheIdxSize := 2
  mapEntriesPerPage := 2
  mapEntryNb := 4
  cacheIdxSize_pos := Nat.two_pos
  mapEntriesPerPage_pos := Nat.two_pos

/-- The tables of a new device. -/
def freshTables : PageTables where
  mappingTable := fun _ => -1
  inverseMappingTable := fun _ => -1
  blockStateTable := fun _ => ⟨0, .emptyBlock, fun _ => .empty⟩

/-- The hand at slot 1, and the bits of both slots set. -/
theorem cacheSelectVictim_smallCache : ∃ k v m',
    Selected smallCache ((initCache smallCache Int.ofNat freshTables).withClock 1 fun _ => true) k v
      m' ∧ (∀ fuel ≤ k, cacheSelectVictim smallCache fuel
        ((initCache smallCache Int.ofNat freshTables).withClock 1 fun _ => true) = none) ∧
      ∀ fuel, k < fuel → cacheSelectVictim smallCache fuel
        ((initCache smallCache Int.ofNat freshTables).withClock 1 fun _ => true) = some (v, m') :=
  cacheSelectVictim_selected (by decide)

/-! ### Slots -/

/-- The map that a slot holds is the same. -/
structure SameMap (e e' : CacheIdxEntry) : Prop where
  mapNum : e'.mapNum = e.mapNum
  mapType : e'.mapType = e.mapType
  data : e'.data = e.data

theorem SameMap.rfl {e : CacheIdxEntry} : SameMap e e := ⟨Eq.refl _, Eq.refl _, Eq.refl _⟩

theorem SameMap.trans {e e' e'' : CacheIdxEntry} (h : SameMap e e') (h' : SameMap e' e'') :
    SameMap e e'' :=
  ⟨h'.mapNum.trans h.mapNum, h'.mapType.trans h.mapType, h'.data.trans h.data⟩

theorem setClockBit_sameMap (p : ℕ) (b : Bool) (w : ℕ) :
    SameMap (m.cacheIdxTable w) ((setClockBit p b m).cacheIdxTable w) ∧
      ((setClockBit p b m).cacheIdxTable w).updateBit = (m.cacheIdxTable w).updateBit := by
  by_cases hw : w = p
  · subst hw
    have hslot : (setClockBit w b m).cacheIdxTable w = { m.cacheIdxTable w with clockBit := b } :=
      Function.update_self ..
    rw [hslot]
    exact ⟨⟨rfl, rfl, rfl⟩, rfl⟩
  · have hslot : (setClockBit p b m).cacheIdxTable w = m.cacheIdxTable w :=
      Function.update_of_ne hw ..
    rw [hslot]
    exact ⟨.rfl, rfl⟩

theorem setUpdateBit_sameMap (p w : ℕ) :
    SameMap (m.cacheIdxTable w) ((setUpdateBit p m).cacheIdxTable w) ∧
      (w ≠ p → ((setUpdateBit p m).cacheIdxTable w).updateBit = (m.cacheIdxTable w).updateBit) := by
  by_cases hw : w = p
  · subst hw
    have hslot : (setUpdateBit w m).cacheIdxTable w =
        { m.cacheIdxTable w with updateBit := true } :=
      Function.update_self ..
    rw [hslot]
    exact ⟨⟨rfl, rfl, rfl⟩, fun h => absurd rfl h⟩
  · have hslot : (setUpdateBit p m).cacheIdxTable w = m.cacheIdxTable w :=
      Function.update_of_ne hw ..
    rw [hslot]
    exact ⟨.rfl, fun _ => rfl⟩

theorem lookupCache_eq_some {i p : ℕ} {T : MapType} :
    lookupCache i T m = some p ↔ (m.mapStateTable i).isCached = true ∧
      (m.mapStateTable i).cacheEntry = some p ∧ (m.cacheIdxTable p).mapType = T ∧
      (m.cacheIdxTable p).mapNum = i := by
  rw [lookupCache]
  by_cases hcached : (m.mapStateTable i).isCached = true
  · cases hentry : (m.mapStateTable i).cacheEntry with
    | none => simp [hcached]
    | some q =>
      simp only [hcached, if_true, Option.ite_none_right_eq_some, Option.some.injEq, true_and]
      constructor
      · rintro ⟨hslot, rfl⟩
        exact ⟨rfl, hslot⟩
      · rintro ⟨rfl, hslot⟩
        exact ⟨hslot, rfl⟩
  · simp [hcached]

/-! ### Hits and misses -/

/-- What `CACHE_EVICT_MAP` does to slot `v`. -/
structure Evicted (c : CacheConfig) (v : ℕ) (m m' : MapCache) : Prop where
  other : ∀ w ≠ v, ∃ b, m'.cacheIdxTable w = { m.cacheIdxTable w with clockBit := b }
  /-- The pointer to the map the slot had is cleared. -/
  state : (m'.mapStateTable (m.cacheIdxTable v).mapNum).isCached = false
  kept : ∀ j ≠ (m.cacheIdxTable v).mapNum, m'.mapStateTable j = m.mapStateTable j
  tables : m'.tables = m.tables
  /-- A slot with its update bit set is written back. -/
  saved : ∃ ppn, m'.cacheMapData = m.cacheMapData ++
    if (m.cacheIdxTable v).updateBit then [⟨ppn, (m.cacheIdxTable v).data⟩] else []
  hand : m'.clockHand < c.cacheIdxSize

private theorem cacheEvictMap_spec (newPage : ℕ → ℤ) (h : m.clockHand < c.cacheIdxSize) :
    ∃ m', cacheEvictMap c newPage m = some (m.victim c, m') ∧ Evicted c (m.victim c) m m' := by
  have hselect := cacheSelectVictim_eq h
    (Nat.lt_succ_of_le (SecondChance.offset_le c.cacheIdxSize m.clockHand m.clockBits))
  rw [cacheEvictMap, hselect]
  generalize m.victim c = v
  have hhand : (v + 1) % c.cacheIdxSize < c.cacheIdxSize := Nat.mod_lt _ c.cacheIdxSize_pos
  refine ⟨_, rfl, ?_⟩
  by_cases hupdate : (m.cacheIdxTable v).updateBit = true
  · refine ⟨fun w hw => ?_, ?_, fun j hj => ?_, ?_, ⟨toU32 (newPage m.newPageNb), ?_⟩, ?_⟩
    · exact ⟨_, by simp [withClock, hupdate, writeBack, writeMap, hw]; rfl⟩
    · simp [withClock, hupdate, writeBack, writeMap]
    · simp [withClock, hupdate, writeBack, writeMap, hj]
    · simp [withClock, hupdate, writeBack, writeMap]
    · simp [withClock, hupdate, writeBack, writeMap]
    · simpa [withClock, hupdate, writeBack, writeMap] using hhand
  · refine ⟨fun w hw => ?_, ?_, fun j hj => ?_, ?_, ⟨0, ?_⟩, ?_⟩
    · exact ⟨_, by simp [withClock, hupdate, hw]; rfl⟩
    · simp [withClock, hupdate]
    · simp [withClock, hupdate, hj]
    · simp [withClock, hupdate]
    · simp [withClock, hupdate]
    · simpa [withClock, hupdate] using hhand

/-- What `CACHE_GET_MAP` does when it loads a map into slot `v`. -/
structure Loaded (c : CacheConfig) (mapIndex : ℕ) (mapType : MapType) (v : ℕ) (m m' : MapCache) :
    Prop where
  slot : m'.cacheIdxTable v =
    ⟨mapIndex % 2 ^ 29, true, mapType, false, mapSlice c mapIndex mapType m⟩
  other : ∀ w ≠ v, ∃ b, m'.cacheIdxTable w = { m.cacheIdxTable w with clockBit := b }
  cached : (m'.mapStateTable mapIndex).isCached = true
  entry : (m'.mapStateTable mapIndex).cacheEntry = some v
  evicted : (m.cacheIdxTable v).mapNum ≠ mapIndex →
    (m'.mapStateTable (m.cacheIdxTable v).mapNum).isCached = false
  kept : ∀ j, j ≠ mapIndex → j ≠ (m.cacheIdxTable v).mapNum →
    m'.mapStateTable j = m.mapStateTable j
  tables : m'.tables = m.tables
  saved : ∃ ppn, m'.cacheMapData = m.cacheMapData ++
    if (m.cacheIdxTable v).updateBit then [⟨ppn, (m.cacheIdxTable v).data⟩] else []
  hand : m'.clockHand < c.cacheIdxSize

/-- The other slots keep their maps. -/
theorem Loaded.sameMap {i v w : ℕ} {T : MapType} (h : Loaded c i T v m m') (hw : w ≠ v) :
    SameMap (m.cacheIdxTable w) (m'.cacheIdxTable w) ∧
      (m'.cacheIdxTable w).updateBit = (m.cacheIdxTable w).updateBit := by
  obtain ⟨b, heq⟩ := h.other w hw
  rw [heq]
  exact ⟨⟨rfl, rfl, rfl⟩, rfl⟩

private theorem mapSlice_congr (h : m'.tables = m.tables) (mapIndex : ℕ) (mapType : MapType) :
    mapSlice c mapIndex mapType m' = mapSlice c mapIndex mapType m := by
  cases mapType with
  | map => simp only [mapSlice, mapTable, h]
  | invMap => simp only [mapSlice, mapTable, h]

private theorem Evicted.insert {v : ℕ} (h : Evicted c v m m') (mapIndex : ℕ) (mapType : MapType) :
    Loaded c mapIndex mapType v m (cacheInsertMap c mapIndex mapType v m') where
  slot := by simp [cacheInsertMap, mapSlice_congr h.tables]
  other w hw := by simpa [cacheInsertMap, hw] using h.other w hw
  cached := by simp [cacheInsertMap]
  entry := by simp [cacheInsertMap]
  evicted hne := by simpa [cacheInsertMap, hne] using h.state
  kept j hj hne := by simpa [cacheInsertMap, hj] using h.kept j hne
  tables := h.tables
  saved := h.saved
  hand := h.hand

theorem cacheGetMap_hit {i p : ℕ} {T : MapType} (h : lookupCache i T m = some p) :
    cacheGetMap c newPage i T m = some (p, setClockBit p true m) := by
  rw [cacheGetMap, h]

theorem cacheGetMap_miss (newPage : ℕ → ℤ) {i : ℕ} {T : MapType} (h : lookupCache i T m = none)
    (hhand : m.clockHand < c.cacheIdxSize) : ∃ m',
      cacheGetMap c newPage i T m = some (m.victim c, m') ∧ Loaded c i T (m.victim c) m m' := by
  obtain ⟨m₁, heq, hevicted⟩ := cacheEvictMap_spec newPage hhand
  refine ⟨cacheInsertMap c i T (m.victim c) m₁, ?_, hevicted.insert i T⟩
  rw [cacheGetMap, h]
  dsimp only
  rw [heq]
  rfl

end MapCache

end Vssim
