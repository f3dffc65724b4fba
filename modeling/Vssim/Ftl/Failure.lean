import Vssim.Ftl.Space

/-!
# Running out of pages

`GC_CHECK` runs only after the last page of a write, and a request that finds no free page returns
before it. Two things follow. A device that such a request has filled up refuses every later
write, although collecting a victim would make room (`deadEnd`); and a collection started with
too few free pages gives up after `SELECT_VICTIM_BLOCK` has taken its victim off the lists,
so that the block is lost (`lostVictim`).

`run_onePageWrite` and `run_failedCollection` say exactly when. In both cases it is enough that
every write finds, beyond its own pages, the `PAGE_NB - 1` pages a collection may need
(`RoomyRun`).
-/

namespace Vssim

open FlashStore Finset LinkedHeap

variable {g : Geometry} {s s' : Ftl} {σ σ' : Store} {L : ListView} {fuel : ℕ}
  {events : List Event}

/-! ### Intact tables and lists -/

variable (g) in
/-- The blocks on all lists, as the pointers spell them out. -/
def listedBlocks (l : BlockLists) : List (ℕ × ℕ) :=
  (List.range g.emptyTableEntryNb).flatMap fun i =>
    (l.emptyEntries i).map EmptyBlock.block ++ (l.victimEntries i).map VictimBlock.block

variable (g) in
/-- Nothing is lost: the lists hold every block, and the pages marked `'V'` correspond to the
mapped lpns. -/
structure Intact (s : Ftl) : Prop where
  /-- Every block is on exactly one list, once. -/
  listed : ∀ β ∈ g.blocks, (listedBlocks g s.lists).count β = 1
  /-- A mapped lpn maps to a page marked `'V'` ... -/
  mapped : ∀ lpn, s.tables.mappingTable lpn ≠ -1 →
    ∃ q, g.IsPage q ∧ s.tables.mappingTable lpn = g.ppnOf q ∧ s.tables.cellAt g q = .valid
  /-- ... and each such page is mapped to by one lpn. -/
  valid : ∀ q, g.IsPage q → s.tables.cellAt g q = .valid →
    ∃! lpn, s.tables.mappingTable lpn = g.ppnOf q

private theorem ListInv.listedBlocks_eq (hL : ListInv g s.lists L σ.fill σ.limbo) :
    listedBlocks g s.lists = (List.range g.emptyTableEntryNb).flatMap L.blocks := by
  refine List.flatMap_congr fun i hi => ?_
  have hi := List.mem_range.mp hi
  rw [BlockLists.emptyEntries, BlockLists.victimEntries, (hL.rep.empty i hi).walk_eq,
    (hL.rep.victim i hi).walk_eq, List.map_map, List.map_map]
  rfl

/-- A represented state is intact exactly when no block is in limbo. -/
private theorem FtlInv.intact_iff (h : FtlInv g s σ) : Intact g s ↔ σ.limbo = ∅ := by
  obtain ⟨L, hL⟩ := h.lists
  have hb := hL.placed.buckets
  constructor
  · intro hintact
    refine eq_empty_of_forall_notMem fun β hβ => ?_
    have hone := hintact.listed β (hL.placed.limbo_sub hβ)
    rw [hL.listedBlocks_eq, List.count_eq_zero_of_not_mem fun hmem =>
      (mem_sdiff.mp (hb.mem_flatMap.mp hmem)).2 hβ] at hone
    exact absurd hone (by simp)
  · intro hlimbo
    refine ⟨fun β hβ => ?_, fun lpn hlpn => ?_, fun q hq hv => ?_⟩
    · rw [hL.listedBlocks_eq]
      exact List.count_eq_one_of_mem hb.nodup_flatMap (hb.mem_flatMap.mpr (by simpa [hlimbo] using hβ))
    · obtain ⟨q, hq⟩ := Option.ne_none_iff_exists'.mp ((h.tables.map_eq_none lpn).not.mp hlpn)
      obtain ⟨hpage, -, -, hmap, hv, -⟩ := h.tables.mapped lpn q hq
      exact ⟨q, hpage, hmap, hv⟩
    · exact (h.tables.mappingAgree hlimbo).valid q.1.1 (g.mem_blocks.mp hq.1).1 q.1.2
        (g.mem_blocks.mp hq.1).2 q.2 hq.2 hv

/-- **A failed collection** leaves the state intact exactly when it was and there was nothing to
reclaim. -/
theorem FtlInv.failedCollection (h : FtlInv g s σ)
    (hgc : garbageCollection g fuel s = some (.fail, s', events)) :
    Intact g s' ↔ Intact g s ∧ ¬ Reclaimable g s := by
  obtain ⟨L, hL⟩ := h.lists
  obtain ⟨labels, σ', hsim, -, hout⟩ := garbageCollection_sim h hL hgc
  rw [hsim.inv.intact_iff, h.intact_iff, reclaimable_iff h hL]
  cases hout with
  | nothing _ hσ _ hfull =>
    rw [hσ, iff_self_and]
    rintro - ⟨i, hi, x, hx, hlt⟩
    exact hlt.ne (hfull i hi x hx)
  | aborted hv hlimbo _ _ _ =>
    obtain ⟨⟨i, hi, a, ha⟩, hlt, -⟩ := hv
    refine iff_of_false (fun hempty => ?_) fun hno => hno.2 ⟨i, hi, _, ha, hlt⟩
    rw [hlimbo] at hempty
    exact absurd hempty (insert_ne_empty _ _)

/-! ### Runs that leave room for collections -/

variable (g) in
/-- Serving a request that, if it writes, finds `PAGE_NB - 1` unwritten pages beyond its own. -/
def RoomyServe (s : Ftl) (e : Served) (s' : Ftl) : Prop :=
  Serve g s e s' ∧ ∀ sectorNb length, e.request = .write sectorNb length →
    (requestPages g sectorNb length).length + (g.pageNb - 1) ≤ unwrittenPages g s.tables

variable (g) in
/-- A run all of whose writes leave room for collections. -/
abbrev RoomyRun (hist : List Served) (s : Ftl) : Prop :=
  Trace (RoomyServe g) (ftlInit g) hist s

variable (g) in
/-- A state with every block listed and a reserve. -/
def Roomy (s : Ftl) : Prop :=
  ∃ σ, FtlInv g s σ ∧ σ.limbo = ∅ ∧ (1 ≤ g.gcVictimNb → Reserve g s σ)

private theorem RoomyServe.roomy {e : Served} (hs : Roomy g s)
    (hserve : RoomyServe g s e s') : Roomy g s' ∧
      ∀ ev ∈ e.events, ev.call = .garbageCollection → Ready g ev.ftl ∅ := by
  obtain ⟨σ, h, hlimbo, hres⟩ := hs
  obtain ⟨hserve, hroom⟩ := hserve
  cases hserve with
  | @write _ sectorNb length fuel r events hreq hrun =>
    have hroom := hroom sectorNb length rfl
    rw [h.unwrittenPages_eq] at hroom
    obtain ⟨-, labels, σ', hsim, -, hkept, hres'⟩ :=
      ftlWrite_keeps h hreq (by have := g.pageNb_pos; omega) hrun
    exact ⟨⟨σ', hsim.inv, hkept.limbo.trans hlimbo, hres'⟩,
      fun ev hev hcall => hlimbo ▸ hkept.ready ev hev hcall⟩
  | @read sectorNb length r events hreq hrun =>
    refine ⟨⟨σ, h, hlimbo, hres⟩, fun ev hev hcall => ?_⟩
    have hev : ev ∈ (ftlRead g sectorNb length s).2 := hrun ▸ hev
    exact absurd hcall (ftlRead_silent ev hev).2.1

private theorem freshDevice_roomy (hdvd : g.planesPerFlash ∣ g.blockNb) : Roomy g (ftlInit g) :=
  ⟨_, ftlInit_inv hdvd, rfl, fun _ => .inl freePages_emptyStore⟩

/-- **In a roomy run** every state has a reserve and every collection is started ready. -/
theorem RoomyRun.roomy (hs : Roomy g s) {hist : List Served}
    (hrun : Trace (RoomyServe g) s hist s') : Roomy g s' ∧
      ∀ ev ∈ eventLog hist, ev.call = .garbageCollection → Ready g ev.ftl ∅ := by
  induction hrun with
  | nil => exact ⟨hs, by simp [eventLog]⟩
  | cons hserve _ ih =>
    obtain ⟨hs₁, hready₁⟩ := hserve.roomy hs
    obtain ⟨hs₂, hready₂⟩ := ih hs₁
    refine ⟨hs₂, fun ev hev => ?_⟩
    rw [eventLog, List.flatMap_cons] at hev
    rcases List.mem_append.mp hev with hev | hev
    · exact hready₁ ev hev
    · exact hready₂ ev hev

/-! ### Dead ends -/

/-- A write of one page succeeds exactly when some page is unwritten. -/
private theorem FtlInv.onePageWrite (hplanes : g.planesPerFlash = 1) (h : FtlInv g s σ)
    {sectorNb : ℤ}
    {length : ℕ} (hreq : InRange g sectorNb length) (hone : OnePage g sectorNb length)
    (hfuel : allocFuel g ≤ fuel) : ∃ r s' events,
      ftlWrite g fuel sectorNb length s = some (r, s', events) ∧
      (r = .success ↔ 0 < unwrittenPages g s.tables) := by
  obtain ⟨r, s', events, hrun⟩ := ftlWrite_returns hplanes hfuel h hreq
  refine ⟨r, s', events, hrun, ?_⟩
  obtain ⟨part, hpages⟩ := requestPages_onePage hreq hone
  obtain ⟨r₁, s₁, ev₁, hloop, hend⟩ := ftlWrite_cases hreq hrun
  obtain ⟨ls₁, σ₁, -, -, -, hwritten⟩ := writePages_sim h (fun _ => .start hreq) hloop
  have hpieces : pieces g length (.start g sectorNb length) 0 = _ := hpages
  rw [hpieces] at hwritten
  rw [h.unwrittenPages_eq]
  rcases hend with ⟨rfl, rfl, -, -⟩ | ⟨ev₂, rfl, -, -⟩
  · have hlt := hwritten.2.2.1
    rw [List.length_singleton] at hlt
    exact iff_of_false (by simp) (by omega)
  · obtain ⟨-, hfree, hret⟩ := hwritten
    rw [List.length_singleton] at hfree
    exact iff_of_true (hret.trans (if_neg (List.cons_ne_nil _ _))) (by omega)

/-- **Dead ends.** In every state of a run, a write of one page returns, and it succeeds exactly
when some page is unwritten. In a run whose writes all leave room for a collection, this is
so in every state with something to reclaim. -/
theorem run_onePageWrite (hplanes : g.planesPerFlash = 1) (hvictim : 1 ≤ g.gcVictimNb)
    {sectorNb : ℤ} {length : ℕ} (hreq : InRange g sectorNb length)
    (hone : OnePage g sectorNb length) (hfuel : allocFuel g ≤ fuel) :
    (∀ hist s, Run g hist s → ∃ r s' events,
      ftlWrite g fuel sectorNb length s = some (r, s', events) ∧
      (r = .success ↔ 0 < unwrittenPages g s.tables)) ∧
    ∀ hist s, RoomyRun g hist s → Reclaimable g s → ∃ s' events,
      ftlWrite g fuel sectorNb length s = some (.success, s', events) := by
  have hdvd : g.planesPerFlash ∣ g.blockNb := hplanes ▸ one_dvd _
  refine ⟨fun hist s hrun => ?_, fun hist s hrun hrec => ?_⟩
  · obtain ⟨labels, σ, hsim, -⟩ := Run.sim hdvd hrun
    exact hsim.inv.onePageWrite hplanes hreq hone hfuel
  · obtain ⟨⟨σ, h, -, hres⟩, -⟩ := RoomyRun.roomy (freshDevice_roomy hdvd) hrun
    obtain ⟨r, s', events, hwrite, hiff⟩ := h.onePageWrite hplanes hreq hone hfuel
    have hfree : 0 < unwrittenPages g s.tables := by
      rw [h.unwrittenPages_eq]
      exact g.pageNb_pos.trans_le ((hres hvictim).resolve_right fun hno => hno.1 hrec)
    rw [hiff.mpr hfree] at hwrite
    exact ⟨s', events, hwrite⟩

/-- A chip with `blockNb` blocks of `pageNb` pages of one sector. -/
def oneChip (pageNb blockNb : ℕ) (hpage : 0 < pageNb) (hblock : 0 < blockNb) : Geometry where
  sectorsPerPage := 1
  pageNb := pageNb
  blockNb := blockNb
  flashNb := 1
  planesPerFlash := 1
  gcVictimNb := 20
  writeNoparal := false
  gcVictimOverall := false
  sectorsPerPage_pos := Nat.one_pos
  sectorsPerPage_lt := by decide
  pageNb_pos := hpage
  blockNb_pos := hblock
  flashNb_pos := Nat.one_pos
  planesPerFlash_pos := Nat.one_pos

/-- Three blocks of one page. -/
def threePages : Geometry := oneChip 1 3 Nat.one_pos (Nat.succ_pos 2)

/-- Executing a request that finds enough unwritten pages. -/
private theorem serve_roomy {req : Request} {e : Served} (hreq : req.InRange g)
    (hrun : serve g fuel req s = some (e, s'))
    (hroom : (req.pages g).length + (g.pageNb - 1) ≤ unwrittenPages g s.tables) :
    RoomyServe g s e s' := by
  refine ⟨serve_spec hreq hrun, fun sectorNb length heq => ?_⟩
  cases req with
  | write a n =>
    simp only [serve, Option.map_eq_some_iff, Prod.mk.injEq] at hrun
    obtain ⟨x, -, rfl, -⟩ := hrun
    cases heq
    exact hroom
  | read a n =>
    cases hrun
    cases heq

/-- Sector 0 written twice: its first page can be reclaimed, and the third page is free. -/
theorem run_onePageWrite_threePages : ∃ hist s, RoomyRun threePages hist s ∧
    Reclaimable threePages s ∧ ∃ s' events,
      ftlWrite threePages (allocFuel threePages) 0 1 s = some (.success, s', events) := by
  have hexec : (serve threePages 9 (.write 0 1) (ftlInit threePages)).any (fun x =>
      decide (1 ≤ unwrittenPages threePages x.2.tables) &&
      (serve threePages 9 (.write 0 1) x.2).any fun y => decide (Reclaimable threePages y.2)) := by
    decide +kernel
  simp only [Option.any_eq_true, Bool.and_eq_true, decide_eq_true_eq] at hexec
  obtain ⟨⟨e₁, s₁⟩, hserve₁, hroom, ⟨e₂, s₂⟩, hserve₂, hrec⟩ := hexec
  have hrange : Request.InRange threePages (.write 0 1) := by decide
  have hrun : RoomyRun threePages [e₁, e₂] s₂ :=
    .cons (serve_roomy hrange hserve₁ (by decide)) (.single (serve_roomy hrange hserve₂ hroom))
  exact ⟨_, s₂, hrun, hrec, (run_onePageWrite rfl (by decide) hrange (by decide) le_rfl).2 _ s₂ hrun
    hrec⟩

/-- **A dead end**: sectors 0 to 2 do not fit any more once sector 0 has been written; the request
that tries fills the device, and sector 0 can never be written again although its first two
pages are garbage. -/
theorem deadEnd : ∃ hist s, Run threePages hist s ∧
    hist.map Served.request = [.write 0 1, .write 0 3] ∧ Reclaimable threePages s ∧
    InRange threePages 0 1 ∧ OnePage threePages 0 1 ∧ ∃ s' events,
      ftlWrite threePages (allocFuel threePages) 0 1 s = some (.fail, s', events) := by
  obtain ⟨hist, s, hrun, hP⟩ := exists_run (g := threePages) 9 [.write 0 1, .write 0 3]
    (fun hist s => decide (hist.map Served.request = [.write 0 1, .write 0 3]) &&
      decide (Reclaimable threePages s) &&
      (ftlWrite threePages (allocFuel threePages) 0 1 s).any fun x => decide (x.1 = Ret.fail))
    (by decide +kernel) (by decide +kernel)
  simp only [Option.any_eq_true, Bool.and_eq_true, decide_eq_true_eq] at hP
  obtain ⟨⟨hreqs, hrec⟩, ⟨_, s', events⟩, hwrite, rfl⟩ := hP
  exact ⟨hist, s, hrun, hreqs, hrec, by decide, by decide, s', events, hwrite⟩

/-! ### Lost victims -/

/-- Every collection of a trace is entered in a represented state. -/
private theorem Sim.entered {labels : List (Act × List Event)} (hsim : Sim g σ s' events labels σ')
    {s₀ : Ftl} (hcall : ⟨.garbageCollection, s₀⟩ ∈ events) : ∃ σ₀, FtlInv g s₀ σ₀ := by
  obtain ⟨htrace, -, rfl⟩ := hsim
  induction htrace with
  | nil => simp at hcall
  | @cons σ σ₁ σ₂ label labels hstep _ ih =>
    obtain ⟨a, es⟩ := label
    rw [shownEvents_cons] at hcall
    rcases List.mem_append.mp hcall with hcall | hcall
    swap
    · exact ih hcall
    obtain ⟨hstep, hshown⟩ := hstep
    cases hstep with
    | skip => exact ⟨σ, (hshown _ hcall).2⟩
    | collect => simp [Shown] at hshown; simp [hshown] at hcall
    | @program lpn β d _ _ =>
      obtain ⟨e, s, s₁, n, -, -, -, -, rfl⟩ := hshown
      simp only [List.mem_cons, List.not_mem_nil, or_false, Event.mk.injEq, reduceCtorEq,
        false_and, false_or, hostCall] at hcall
      split at hcall <;> simp at hcall
    | relocate =>
      obtain ⟨e, s, s₁, q, -, -, -, -, -, rfl⟩ := hshown
      simp at hcall
    | erase =>
      obtain ⟨s, -, rfl⟩ := hshown
      simp at hcall

/-- **Failed collections.** A collection of a run that returns `FAIL` leaves the lists and tables
intact exactly when they were intact before and nothing was reclaimable. In a run whose
writes all leave room for a collection, every failed collection is harmless. -/
theorem run_failedCollection (hdvd : g.planesPerFlash ∣ g.blockNb) :
    (∀ hist s, Run g hist s → ∀ s₀ fuel s₁ events, ⟨.garbageCollection, s₀⟩ ∈ eventLog hist →
      garbageCollection g fuel s₀ = some (.fail, s₁, events) →
      (Intact g s₁ ↔ Intact g s₀ ∧ ¬ Reclaimable g s₀)) ∧
    ∀ hist s, RoomyRun g hist s → ∀ s₀ fuel s₁ events, ⟨.garbageCollection, s₀⟩ ∈ eventLog hist →
      garbageCollection g fuel s₀ = some (.fail, s₁, events) → Intact g s₁ := by
  refine ⟨fun hist s hrun s₀ fuel s₁ events hcall hgc => ?_,
    fun hist s hrun s₀ fuel s₁ events hcall hgc => ?_⟩
  · obtain ⟨labels, σ, hsim, -⟩ := Run.sim hdvd hrun
    obtain ⟨σ₀, h₀⟩ := hsim.entered hcall
    exact h₀.failedCollection hgc
  · obtain ⟨σ₀, h₀, hlimbo, hroom⟩ := (RoomyRun.roomy (freshDevice_roomy hdvd) hrun).2 _ hcall rfl
    obtain ⟨labels, σ₁, hsim, -, -, ⟨hr, -⟩ | ⟨-, hσ, -, -⟩⟩ := garbageCollection_keeps h₀ hroom hgc
    · cases hr
    · rw [hsim.inv.intact_iff, hσ, hlimbo]

/-- Two blocks of two pages. -/
def twoBlocks : Geometry := oneChip 2 2 Nat.two_pos Nat.two_pos

/-- A run that fills the device with valid pages: its collection fails, with nothing to
reclaim. -/
theorem run_failedCollection_twoBlocks : ∃ hist s, Run twoBlocks hist s ∧
    ∃ s₀ s₁ events, ⟨.garbageCollection, s₀⟩ ∈ eventLog hist ∧
      garbageCollection twoBlocks 9 s₀ = some (.fail, s₁, events) ∧
      (Intact twoBlocks s₁ ↔ Intact twoBlocks s₀ ∧ ¬ Reclaimable twoBlocks s₀) := by
  obtain ⟨hist, s, hrun, hP⟩ := exists_run (g := twoBlocks) 9 [.write 0 2, .write 2 2]
    (fun hist _ => (eventLog hist).any fun e => decide (e.call = .garbageCollection) &&
      (garbageCollection twoBlocks 9 e.ftl).any fun x => decide (x.1 = Ret.fail))
    (by decide +kernel) (by decide +kernel)
  simp only [List.any_eq_true, Option.any_eq_true, Bool.and_eq_true, decide_eq_true_eq] at hP
  obtain ⟨⟨_, s₀⟩, hmem, rfl, ⟨_, s₁, events⟩, hgc, rfl⟩ := hP
  exact ⟨hist, s, hrun, s₀, s₁, events, hmem, hgc,
    (run_failedCollection (one_dvd _)).1 hist s hrun s₀ 9 s₁ events hmem hgc⟩

/-- **A lost victim**: sector 0 is written, then sectors 0 to 2 fill the device. The collection
that follows finds no page for the valid page of its victim, and afterwards the victim is on no
list. -/
theorem lostVictim : ∃ hist s, Run twoBlocks hist s ∧
    hist.map Served.request = [.write 0 1, .write 0 3] ∧
    ∃ s₀ s₁ events, ⟨.garbageCollection, s₀⟩ ∈ eventLog hist ∧
      garbageCollection twoBlocks 9 s₀ = some (.fail, s₁, events) ∧ ¬ Intact twoBlocks s₁ := by
  obtain ⟨hist, s, hrun, hP⟩ := exists_run (g := twoBlocks) 9 [.write 0 1, .write 0 3]
    (fun hist _ => decide (hist.map Served.request = [.write 0 1, .write 0 3]) &&
      (eventLog hist).any fun e => decide (e.call = .garbageCollection) &&
        (garbageCollection twoBlocks 9 e.ftl).any fun x => decide (x.1 = Ret.fail ∧
          (listedBlocks twoBlocks x.2.1.lists).count (0, 0) = 0))
    (by decide +kernel) (by decide +kernel)
  simp only [List.any_eq_true, Option.any_eq_true, Bool.and_eq_true, decide_eq_true_eq] at hP
  obtain ⟨hreqs, ⟨_, s₀⟩, hmem, rfl, ⟨_, s₁, events⟩, hgc, rfl, hlost⟩ := hP
  refine ⟨hist, s, hrun, hreqs, s₀, s₁, events, hmem, hgc, fun hintact => ?_⟩
  have hone := hintact.listed (0, 0) (by decide)
  exact absurd (hlost.symm.trans hone) (by simp)

end Vssim
