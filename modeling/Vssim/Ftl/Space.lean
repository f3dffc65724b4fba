import Vssim.Ftl.Agreement
import Vssim.Ftl.Total
import Mathlib.Algebra.BigOperators.Ring.Finset
import Mathlib.Order.Interval.Finset.Nat

/-!
# Free pages

How many pages can still be handed out, and what a collection needs and gains. A collection
copies at most `PAGE_NB - 1` pages and frees `PAGE_NB`, so it never gives up in a state with
`PAGE_NB - 1` free pages and leaves at least `PAGE_NB` (`garbageCollection_keeps`). After
`GC_CHECK` there is a **reserve** of a block's worth of pages, or nothing is reclaimable: either
more blocks are on the empty lists than there are lists, and one of them is untouched, or a
collection has run (`gcCheck_keeps`).

`singlePageWrites_succeed` uses the reserve: writes of one page each never run out of pages
while fewer logical pages are in use than the blocks beyond one per list can hold.
-/

namespace Vssim

open FlashStore Finset LinkedHeap

variable {g : Geometry} {s s' : Ftl} {σ σ' : Store} {L : ListView} {fuel : ℕ}
  {events : List Event}

/-! ### Counting pages in the tables -/

variable (g) in
/-- The number of pages still marked `'0'`. -/
def unwrittenPages (t : PageTables) : ℕ :=
  #{q ∈ g.blocks ×ˢ range g.pageNb | t.cellAt g q = .empty}

/-- The pages marked `'0'` are those that can be handed out. -/
theorem FtlInv.unwrittenPages_eq (h : FtlInv g s σ) :
    unwrittenPages g s.tables = freePages g σ := by
  rw [unwrittenPages, card_filter, sum_product, freePages]
  refine sum_congr rfl fun β hβ => ?_
  have hcell : ∀ p ∈ range g.pageNb,
      (if s.tables.cellAt g (β, p) = .empty then 1 else 0) = if σ.fill β ≤ p then 1 else 0 :=
    fun p hp => if_congr (h.tables.cell_empty (β, p) ⟨hβ, mem_range.mp hp⟩) rfl rfl
  have hico : {p ∈ range g.pageNb | σ.fill β ≤ p} = Ico (σ.fill β) g.pageNb := by
    ext p
    simp [and_comm]
  rw [sum_congr rfl hcell, ← card_filter, hico, Nat.card_Ico]

namespace BlockLists

/-- The entries of empty list `i`, as its pointers spell them out. -/
def emptyEntries (l : BlockLists) (i : ℕ) : List EmptyBlock :=
  walk SNode.val SNode.next l.emptyHeap (l.emptyBlockList i).count (l.emptyBlockList i).head

/-- The entries of victim list `i`, as its pointers spell them out. -/
def victimEntries (l : BlockLists) (i : ℕ) : List VictimBlock :=
  walk DNode.val DNode.next l.victimHeap (l.victimBlockList i).count (l.victimBlockList i).head

end BlockLists

variable (g) in
/-- Some block on a victim list has a page that is not marked `'V'`. -/
def Reclaimable (s : Ftl) : Prop :=
  ∃ i < g.emptyTableEntryNb, ∃ v ∈ s.lists.victimEntries i, ∃ p < g.pageNb,
    s.tables.cellAt g (v.block, p) ≠ .valid

instance : DecidablePred (Reclaimable g) := fun s =>
  inferInstanceAs (Decidable (∃ i < g.emptyTableEntryNb, ∃ v ∈ s.lists.victimEntries i,
    ∃ p < g.pageNb, s.tables.cellAt g (v.block, p) ≠ .valid))

theorem validPages_lt_iff (h : FtlInv g s σ) {v : VictimBlock} (hv : v.block ∈ g.blocks) :
    validPages g s.tables v < g.pageNb ↔
      ∃ p < g.pageNb, s.tables.cellAt g (v.block, p) ≠ .valid := by
  have hlen : (List.range' 0 g.pageNb).length = g.pageNb := List.length_range'
  have hle := List.countP_le_length (p := fun j => decide
    (s.tables.cellAt g (v.block, j) = .valid)) (l := List.range' 0 g.pageNb)
  have hall := List.countP_eq_length (p := fun j => decide
    (s.tables.cellAt g (v.block, j) = .valid)) (l := List.range' 0 g.pageNb)
  rw [hlen] at hle hall
  rw [h.tables.validPages_eq hv, lt_iff_le_and_ne, and_iff_right hle, ne_eq, hall]
  simp

theorem reclaimable_iff (h : FtlInv g s σ) (hL : ListInv g s.lists L σ.fill σ.limbo) :
    Reclaimable g s ↔
      ∃ i < g.emptyTableEntryNb, ∃ x ∈ L.victim i, validPages g s.tables x.2 < g.pageNb := by
  refine exists_congr fun i => and_congr_right fun hi => ?_
  rw [BlockLists.victimEntries, (hL.rep.victim i hi).walk_eq]
  simp only [List.mem_map, exists_exists_and_eq_and]
  refine exists_congr fun x => and_congr_right fun hx => ?_
  exact (validPages_lt_iff h (mem_sdiff.mp (hL.placed.victim_mem hi hx).1).1).symm

/-! ### Where a reserve comes from -/

private theorem freePages_of_fresh {β : ℕ × ℕ} (hβ : β ∈ g.blocks) (hfill : σ.fill β = 0) :
    g.pageNb ≤ freePages g σ := by
  have hle := single_le_sum (f := fun γ => g.pageNb - σ.fill γ) (fun _ _ => Nat.zero_le _) hβ
  rw [hfill] at hle
  exact hle

/-- **Pigeonhole**: with more blocks on the empty lists than lists, one of them is untouched. -/
theorem ListInv.reserve (hL : ListInv g s.lists L σ.fill σ.limbo)
    (htotal : g.emptyTableEntryNb < s.lists.totalEmptyBlockNb) : g.pageNb ≤ freePages g σ := by
  obtain ⟨i, hi, hlen⟩ : ∃ i ∈ range g.emptyTableEntryNb, 1 < (L.empty i).length := by
    refine exists_lt_of_sum_lt ?_
    rw [← hL.rep.totalEmpty, ← card_eq_sum_ones, card_range]
    exact htotal
  have hi := mem_range.mp hi
  obtain ⟨x, y, rest, hxs⟩ : ∃ x y rest, L.empty i = x :: y :: rest := by
    match hxs : L.empty i with
    | [] | [_] => simp [hxs] at hlen
    | x :: y :: rest => exact ⟨x, y, rest, rfl⟩
  have hy : y ∈ L.empty i := by simp [hxs]
  exact freePages_of_fresh (mem_sdiff.mp (hL.placed.empty_mem hi hy).1).1
    (hL.placed.fresh_tail i hi y (by simp [hxs]))

/-- The lists hold every block, when none is in limbo. -/
theorem ListInv.total_eq (hL : ListInv g s.lists L σ.fill σ.limbo) (hlimbo : σ.limbo = ∅) :
    s.lists.totalEmptyBlockNb + s.lists.totalVictimBlockNb = g.blockMappingEntryNb := by
  have hsum := hL.placed.buckets.sum_length
  rw [hlimbo, sdiff_empty, Geometry.blocks, card_product, card_range, card_range] at hsum
  rw [hL.rep.totalEmpty, hL.rep.totalVictim, ← sum_add_distrib, Geometry.blockMappingEntryNb,
    Nat.mul_comm, ← hsum]
  exact sum_congr rfl fun i _ => by simp [ListView.blocks, ListView.emptyBlocks,
    ListView.victimBlocks]

variable (g) in
/-- The number of mapped lpns. -/
def mappedPages (t : PageTables) : ℕ :=
  #{lpn ∈ range g.pageMappingEntryNb | t.mappingTable (lpn : ℕ) ≠ -1}

/-- **Counting argument**: if all victims were all valid, the pages mapped would fill them. -/
theorem victims_le_mapped (h : FtlInv g s σ) (hL : ListInv g s.lists L σ.fill σ.limbo)
    (hlimbo : σ.limbo = ∅) (hno : ¬ Reclaimable g s) :
    s.lists.totalVictimBlockNb * g.pageNb ≤ mappedPages g s.tables := by
  have hle : ∀ i ∈ range g.emptyTableEntryNb, (L.victim i).length * g.pageNb ≤
      ((L.blocks i).map fun β => (s.tables.getBlockStateEntry g β.1 β.2).validPageNb).sum := by
    intro i hi
    have hvalid : (L.victimBlocks i).map
        (fun β => (s.tables.getBlockStateEntry g β.1 β.2).validPageNb) =
          List.replicate (L.victim i).length g.pageNb := by
      refine List.eq_replicate_iff.mpr ⟨by simp [ListView.victimBlocks], fun n hn => ?_⟩
      simp only [ListView.victimBlocks, List.map_map, List.mem_map, Function.comp_apply] at hn
      obtain ⟨x, hx, rfl⟩ := hn
      have hβ := (mem_sdiff.mp (hL.placed.victim_mem (mem_range.mp hi) hx).1).1
      by_contra hne
      refine hno ((reclaimable_iff h hL).mpr ⟨i, mem_range.mp hi, x, hx, ?_⟩)
      exact lt_of_le_of_ne ((h.tables.counts x.2.block hβ).trans_le (countValid_le _ _)) hne
    rw [ListView.blocks, List.map_append, List.sum_append, hvalid, List.sum_replicate_nat]
    exact Nat.le_add_left _ _
  rw [mappedPages, ← card_valid_eq_card_mapped h.tables hlimbo, ← sum_validPageNb h.tables,
    hL.rep.totalVictim, sum_mul]
  have hlive : g.blocks \ σ.limbo = g.blocks := by rw [hlimbo, sdiff_empty]
  rw [← hlive, ← hL.placed.buckets.sum_eq]
  exact sum_le_sum hle

/-! ### Collections keep the reserve -/

variable (g) in
/-- A state with the blocks `limbo` missing from the lists and, at most one short, a block's worth
of free pages: a collection started here does not give up. -/
def Ready (s : Ftl) (limbo : Finset (ℕ × ℕ)) : Prop :=
  ∃ σ, FtlInv g s σ ∧ σ.limbo = limbo ∧ g.pageNb ≤ freePages g σ + 1

variable (g) in
/-- After a request or a collection: a block's worth of free pages, or nothing to reclaim and as
few blocks on the empty lists as make `GC_CHECK` try. -/
def Reserve (s : Ftl) (σ : Store) : Prop :=
  g.pageNb ≤ freePages g σ ∨
    ¬ Reclaimable g s ∧ s.lists.totalEmptyBlockNb ≤ g.emptyTableEntryNb

variable (g) in
/-- What calls that run collections from `σ` to `σ'` keep. -/
structure Kept (σ σ' : Store) (events : List Event) : Prop where
  noAbort : ¬ GcAborted events
  limbo : σ'.limbo = σ.limbo
  ready : ∀ e ∈ events, e.call = .garbageCollection → Ready g e.ftl σ.limbo
  pages : ∀ e ∈ events, e.call ≠ .getNewPage none

private theorem Kept.append {σ₁ : Store} {ev₁ ev₂ : List Event} (h₁ : Kept g σ σ₁ ev₁)
    (h₂ : Kept g σ₁ σ' ev₂) : Kept g σ σ' (ev₁ ++ ev₂) where
  noAbort := by
    rw [gcAborted_append, not_or]
    exact ⟨h₁.noAbort, h₂.noAbort⟩
  limbo := h₂.limbo.trans h₁.limbo
  ready e he hcall := by
    rcases List.mem_append.mp he with he | he
    · exact h₁.ready e he hcall
    · exact h₁.limbo ▸ h₂.ready e he hcall
  pages e he := by
    rcases List.mem_append.mp he with he | he
    · exact h₁.pages e he
    · exact h₂.pages e he

/-- The copy loop starts no collection, and `GET_NEW_PAGE` fails only to end it. -/
private theorem copyValidPages_calls {v : VictimBlock} {is : List ℕ} {c : ℕ} {r : Option ℕ}
    (hrun : copyValidPages g fuel v is c s = some (r, s', events)) :
    ∀ e ∈ events, e.call ≠ .garbageCollection ∧ (¬ GcAborted events → e.call ≠ .getNewPage none) := by
  induction is generalizing c s events with
  | nil =>
    cases hrun
    simp
  | cons i is ih =>
    rcases copyValidPages_cons hrun with ⟨-, hrun⟩ | ⟨-, -, lists, -, -, rfl⟩ |
      ⟨-, e, lists, ev₁, -, hloop, rfl⟩
    · exact ih hrun
    · simp
    · simpa using ih hloop

/-- The only collection a collection starts is itself. -/
private theorem garbageCollection_calls {r : Ret} (h : FtlInv g s σ)
    (hL : ListInv g s.lists L σ.fill σ.limbo)
    (hrun : garbageCollection g fuel s = some (r, s', events)) :
    ∀ e ∈ events, (e.call = .garbageCollection → e.ftl = s) ∧
      (¬ GcAborted events → e.call ≠ .getNewPage none) := by
  obtain ⟨sel, t, evs, hsel, hspec⟩ := selectVictimBlock_spec h hL
  have hselCalls : ∀ e ∈ evs, e.call ≠ .garbageCollection ∧ e.call ≠ .getNewPage none := by
    cases sel with
    | none =>
      intro e he
      rw [hspec.2.1 e he]
      simp
    | some v => simp [hspec.1]
  rcases garbageCollection_cases hrun with ⟨ev₁, hselect, -, rfl⟩ |
    ⟨v, s₁, ev₁, copied, s₂, ev₂, hselect, hcopy, hend⟩
  · rw [hsel, Option.some.injEq, Prod.mk.injEq, Prod.mk.injEq] at hselect
    obtain ⟨rfl, rfl, rfl⟩ := hselect
    intro e he
    rcases List.mem_cons.mp he with rfl | he
    · simp
    · exact ⟨fun hcall => absurd hcall (hselCalls e he).1, fun _ => (hselCalls e he).2⟩
  · rw [hsel, Option.some.injEq, Prod.mk.injEq, Prod.mk.injEq] at hselect
    obtain ⟨rfl, rfl, rfl⟩ := hselect
    have hcopyCalls := copyValidPages_calls hcopy
    rcases hend with ⟨-, -, -, rfl⟩ | ⟨n, -, ⟨-, -, -, rfl⟩ | ⟨lists, -, -, -, -, rfl⟩⟩ <;>
    · intro e he
      simp only [List.mem_cons, List.mem_append, List.not_mem_nil, or_false, gcAborted_cons,
        gcAborted_append] at he ⊢
      grind

/-- **A collection with `PAGE_NB - 1` free pages** either gains a block's worth of pages or finds
nothing to reclaim; it does not give up. -/
theorem garbageCollection_keeps {r : Ret} (h : FtlInv g s σ)
    (hroom : g.pageNb ≤ freePages g σ + 1)
    (hrun : garbageCollection g fuel s = some (r, s', events)) :
    ∃ labels σ', Sim g σ s' events labels σ' ∧ hostWrites labels = [] ∧ Kept g σ σ' events ∧
      (r = .success ∧ g.pageNb ≤ freePages g σ' ∨
        r = .fail ∧ σ' = σ ∧ (∃ c, s' = { s with failCnt := c }) ∧ ¬ Reclaimable g s) := by
  obtain ⟨L, hL⟩ := h.lists
  obtain ⟨labels, σ', hsim, hhost, hout⟩ := garbageCollection_sim h hL hrun
  have hcalls := garbageCollection_calls h hL hrun
  have hready : ∀ e ∈ events, e.call = .garbageCollection → Ready g e.ftl σ.limbo :=
    fun e he hcall => by
      rw [(hcalls e he).1 hcall]
      exact ⟨σ, h, rfl, hroom⟩
  refine ⟨labels, σ', hsim, hhost, ?_⟩
  cases hout with
  | nothing hs hσ hev hfull =>
    refine ⟨⟨hev, by rw [hσ], hready, fun e he => (hcalls e he).2 hev⟩, .inr ⟨rfl, hσ, hs, fun hrec => ?_⟩⟩
    obtain ⟨i, hi, x, hx, hlt⟩ := (reclaimable_iff h hL).mp hrec
    exact absurd (hfull i hi x hx) hlt.ne
  | aborted hv hlimbo hev hfree hfull =>
    have hlt := hv.2.1
    omega
  | collected hv hlimbo hev hfree =>
    have hlt := hv.2.1
    exact ⟨⟨hev, hlimbo, hready, fun e he => (hcalls e he).2 hev⟩, .inl ⟨rfl, by omega⟩⟩

/-- The collections of `GC_CHECK`, if it makes any. -/
theorem collectLoop_keeps {n : ℕ} {u : Unit} (h : FtlInv g s σ)
    (hroom : g.pageNb ≤ freePages g σ + 1)
    (hrun : collectLoop g fuel n s = some (u, s', events)) :
    ∃ labels σ', Sim g σ s' events labels σ' ∧ hostWrites labels = [] ∧ Kept g σ σ' events ∧
      (g.pageNb ≤ freePages g σ → g.pageNb ≤ freePages g σ') ∧
      (n = 0 ∨ g.pageNb ≤ freePages g σ' ∨ ¬ Reclaimable g s' ∧ s'.lists = s.lists) := by
  induction n generalizing s σ events with
  | zero =>
    simp only [collectLoop, Option.some.injEq, Prod.mk.injEq] at hrun
    obtain ⟨-, rfl, rfl⟩ := hrun
    exact ⟨[], σ, .refl h, rfl, ⟨by simp, rfl, by simp, by simp⟩, id, .inl rfl⟩
  | succ n ih =>
    simp only [collectLoop, Option.bind_eq_bind, Option.bind_eq_some_iff] at hrun
    obtain ⟨⟨r, s₁, ev₁⟩, hgc, hrun⟩ := hrun
    obtain ⟨ls₁, σ₁, hsim₁, hhost₁, hkept₁, ⟨rfl, hfree⟩ | ⟨rfl, hσ, ⟨c, rfl⟩, hno⟩⟩ :=
      garbageCollection_keeps h hroom hgc
    · simp only [Option.bind_eq_some_iff] at hrun
      obtain ⟨⟨u', s₂, ev₂⟩, hloop, hrun⟩ := hrun
      simp only [Option.some.injEq, Prod.mk.injEq] at hrun
      obtain ⟨-, rfl, rfl⟩ := hrun
      obtain ⟨ls₂, σ₂, hsim₂, hhost₂, hkept₂, hmono, -⟩ := ih hsim₁.inv (by omega) hloop
      exact ⟨_, σ₂, hsim₁.append hsim₂, by rw [hostWrites_append, hhost₁, hhost₂]; rfl,
        hkept₁.append hkept₂, fun _ => hmono hfree, .inr (.inl (hmono hfree))⟩
    · simp only [Option.some.injEq, Prod.mk.injEq] at hrun
      obtain ⟨-, rfl, rfl⟩ := hrun
      exact ⟨ls₁, σ₁, hsim₁, hhost₁, hkept₁, fun hfree => hσ ▸ hfree, .inr (.inr ⟨hno, rfl⟩)⟩

/-- **`GC_CHECK` leaves a reserve**, whether it collects or not. -/
theorem gcCheck_keeps {u : Unit} (h : FtlInv g s σ) (hroom : g.pageNb ≤ freePages g σ + 1)
    (hrun : gcCheck g fuel s = some (u, s', events)) :
    ∃ labels σ', Sim g σ s' events labels σ' ∧ hostWrites labels = [] ∧ Kept g σ σ' events ∧
      (1 ≤ g.gcVictimNb → Reserve g s' σ') := by
  rw [gcCheck] at hrun
  split at hrun
  · rename_i htotal
    obtain ⟨labels, σ', hsim, hhost, hkept, -, h0 | hfree | ⟨hno, hlists⟩⟩ :=
      collectLoop_keeps h hroom hrun
    · exact ⟨labels, σ', hsim, hhost, hkept, fun hvictim => absurd h0 (by omega)⟩
    · exact ⟨labels, σ', hsim, hhost, hkept, fun _ => .inl hfree⟩
    · exact ⟨labels, σ', hsim, hhost, hkept, fun _ => .inr ⟨hno, hlists ▸ htotal⟩⟩
  · rename_i htotal
    simp only [Option.some.injEq, Prod.mk.injEq] at hrun
    obtain ⟨-, rfl, rfl⟩ := hrun
    obtain ⟨L, hL⟩ := h.lists
    exact ⟨[], σ, .refl h, rfl, ⟨by simp, rfl, by simp, by simp⟩,
      fun _ => .inl (hL.reserve (not_le.mp htotal))⟩

/-! ### Requests keep the reserve -/

/-- The page loop starts no collection, and `GET_NEW_PAGE` fails only to end it. -/
private theorem writePages_calls {n rounds k : ℕ} {c : Cursor} {ret : Ret} {r : Option Ret}
    (hrun : writePages g fuel n rounds c k ret s = some (r, s', events)) :
    ∀ e ∈ events, e.call ≠ .garbageCollection ∧ (r ≠ none → e.call ≠ .getNewPage none) := by
  induction rounds generalizing c k ret s events with
  | zero =>
    cases hrun
    simp
  | succ rounds ih =>
    by_cases hpos : 0 < c.remain
    swap
    · rw [writePages, if_neg hpos] at hrun
      cases hrun
      simp
    rcases writePages_succ hpos hrun with ⟨rfl, lists, -, -, rfl⟩ | ⟨e, lists, ev₁, -, hloop, rfl⟩
    · simp
    · have hprogram : ∀ t newPpn, programCall g t c newPpn k n ≠ .garbageCollection ∧
          programCall g t c newPpn k n ≠ .getNewPage none := fun t newPpn => by
        simp only [programCall]
        split <;> simp
      simpa [hprogram] using ih hloop

/-- **A write that finds `PAGE_NB - 1` free pages beyond its own** succeeds and leaves a
reserve. -/
theorem ftlWrite_keeps {sectorNb : ℤ} {length : ℕ} {r : Ret} (h : FtlInv g s σ)
    (hreq : InRange g sectorNb length)
    (hroom : (requestPages g sectorNb length).length + g.pageNb ≤ freePages g σ + 1)
    (hrun : ftlWrite g fuel sectorNb length s = some (r, s', events)) :
    r = .success ∧ ∃ labels σ', Sim g σ s' events labels σ' ∧
      hostWrites labels = requestPages g sectorNb length ∧ Kept g σ σ' events ∧
      (1 ≤ g.gcVictimNb → Reserve g s' σ') := by
  obtain ⟨r₁, s₁, ev₁, hloop, hend⟩ := ftlWrite_cases hreq hrun
  obtain ⟨ls₁, σ₁, hsim₁, hlimbo₁, habort₁, hwritten⟩ :=
    writePages_sim h (fun _ => .start hreq) hloop
  have hcalls := writePages_calls hloop
  have halloc : Sim g σ s [⟨.allocIoRequest sectorNb length .write, s⟩] _ σ :=
    .silent (by simpa using ⟨trivial, h⟩) h
  rcases hend with ⟨rfl, -⟩ | ⟨ev₂, rfl, hcheck, rfl⟩
  · have hlt : freePages g σ < (requestPages g sectorNb length).length := hwritten.2.2.1
    have hN := g.pageNb_pos
    omega
  obtain ⟨hhost, hfree, hret⟩ := hwritten
  have hfree : freePages g σ = freePages g σ₁ + (requestPages g sectorNb length).length := hfree
  obtain ⟨ls₂, σ₂, hsim₂, hhost₂, hkept₂, hreserve⟩ :=
    gcCheck_keeps hsim₁.inv (by omega) hcheck
  have hincr : Sim g σ₁ s₁ [⟨.increaseIoRequestSeqNb, s₁⟩] _ σ₁ :=
    .silent (by simpa using ⟨trivial, hsim₁.inv⟩) hsim₁.inv
  have hkept : Kept g σ σ₁ (⟨.allocIoRequest sectorNb length .write, s⟩ ::
      (ev₁ ++ [⟨.increaseIoRequestSeqNb, s₁⟩])) := by
    refine ⟨by simp [habort₁], hlimbo₁, fun e he hcall => ?_, fun e he => ?_⟩ <;>
    simp only [List.mem_cons, List.mem_append, List.not_mem_nil, or_false] at he <;>
    rcases he with rfl | he | rfl
    · cases hcall
    · exact absurd hcall (hcalls e he).1
    · cases hcall
    · simp
    · exact (hcalls e he).2 (by simp)
    · simp
  refine ⟨hret.trans (if_neg (requestPages_ne_nil hreq)), _, σ₂,
    halloc.append (hsim₁.append (hincr.append hsim₂)), ?_, by simpa using hkept.append hkept₂,
    hreserve⟩
  simp only [hostWrites_append, hostWrites_skip, hhost₂, hhost, List.append_nil,
    List.singleton_append]
  rfl

/-! ### Writes of one page -/

variable (g) in
/-- The request lies within one logical page. -/
def OnePage (sectorNb : ℤ) (length : ℕ) : Prop :=
  (sectorNb + length - 1) / g.sectorsPerPage = sectorNb / g.sectorsPerPage

instance (sectorNb : ℤ) (length : ℕ) : Decidable (OnePage g sectorNb length) :=
  inferInstanceAs (Decidable (_ = _))

theorem requestPages_onePage {sectorNb : ℤ} {length : ℕ} (hreq : InRange g sectorNb length)
    (hone : OnePage g sectorNb length) :
    ∃ part, requestPages g sectorNb length = [(sectorNb / g.sectorsPerPage, 0, part)] := by
  obtain ⟨n, rfl⟩ : ∃ n, length = n + 1 := ⟨length - 1, by have := hreq.pos; omega⟩
  have hok := Cursor.Ok.start hreq
  have hpos : 0 < (Cursor.start g sectorNb (n + 1)).remain := Nat.succ_pos n
  have hspp : (0 : ℤ) < g.sectorsPerPage := by exact_mod_cast g.sectorsPerPage_pos
  -- the last sector is in the page of the first, so the first round handles all of them
  have hlba : sectorNb = g.sectorsPerPage * (Cursor.start g sectorNb (n + 1)).lpn g +
      (Cursor.start g sectorNb (n + 1)).leftSkip := hok.lba_eq
  have hlpn : (Cursor.start g sectorNb (n + 1)).lpn g = sectorNb / g.sectorsPerPage := hok.lpn_eq
  have hlast := Int.lt_ediv_add_one_mul_self (sectorNb + (n + 1 : ℕ) - 1) hspp
  rw [hone, ← hlpn, add_mul, one_mul, mul_comm] at hlast
  have hrem : (Cursor.start g sectorNb (n + 1)).remain = n + 1 := rfl
  have hsects := hok.sects_eq
  have hnext := hok.next_remain
  have hrest : ∀ m, pieces g m ((Cursor.start g sectorNb (n + 1)).next g) 1 = [] := by
    intro m
    cases m with
    | zero => rfl
    | succ m => rw [pieces, if_neg (by omega)]
  rw [requestPages, pieces, if_pos hpos, hrest, hlpn]
  exact ⟨_, rfl⟩

/-- The mapped lpns are among `W`, so there are no more of them. -/
theorem FtlInv.mappedPages_le (h : FtlInv g s σ) {W : Finset ℤ}
    (hW : ∀ l, σ.map l ≠ none → l ∈ W) : mappedPages g s.tables ≤ #W := by
  refine card_le_card_of_injOn (fun n : ℕ => (n : ℤ)) (fun n hn => ?_)
    (fun _ _ _ _ => Int.ofNat.inj)
  exact hW n ((h.tables.map_eq_none n).not.mp (mem_filter.mp hn).2)

/-- While few lpns are mapped, there is always something to reclaim. -/
private theorem Reserve.freePages_le (h : FtlInv g s σ) (hlimbo : σ.limbo = ∅)
    (hres : Reserve g s σ) {W : Finset ℤ} (hW : ∀ l, σ.map l ≠ none → l ∈ W)
    (hcard : #W < (g.blockMappingEntryNb - g.emptyTableEntryNb) * g.pageNb) :
    g.pageNb ≤ freePages g σ := by
  obtain hfree | ⟨hno, htotal⟩ := hres
  · exact hfree
  obtain ⟨L, hL⟩ := h.lists
  have hsum := hL.total_eq hlimbo
  have hle := (victims_le_mapped h hL hlimbo hno).trans (h.mappedPages_le hW)
  have hmul : (g.blockMappingEntryNb - g.emptyTableEntryNb) * g.pageNb ≤
      s.lists.totalVictimBlockNb * g.pageNb := Nat.mul_le_mul_right _ (by omega)
  omega

/-- One-page writes from a state with a reserve: every one of them succeeds. `W` are the lpns
mapped before. -/
private theorem onePageWrites_keep (hvictim : 1 ≤ g.gcVictimNb) {hist : List Served}
    (htrace : Trace (Serve g) s hist s') {reqs : List (ℤ × ℕ)}
    (hreqs : hist.map Served.request = reqs.map fun r => .write r.1 r.2)
    (hone : ∀ r ∈ reqs, OnePage g r.1 r.2) (h : FtlInv g s σ) (hlimbo : σ.limbo = ∅)
    (hfree : g.pageNb ≤ freePages g σ) {W : Finset ℤ} (hW : ∀ l, σ.map l ≠ none → l ∈ W)
    (hcard : #(W ∪ (reqs.map fun r => r.1 / (g.sectorsPerPage : ℤ)).toFinset) <
      (g.blockMappingEntryNb - g.emptyTableEntryNb) * g.pageNb) :
    ∀ e ∈ hist, e.ret = .success ∧ ¬ GcAborted e.events ∧
      ∀ ev ∈ e.events, ev.call ≠ .getNewPage none := by
  induction htrace generalizing reqs σ W with
  | nil => simp
  | @cons s s₁ s₂ e es hserve _ ih =>
    obtain ⟨⟨sectorNb, length⟩, reqs, rfl⟩ : ∃ r rs, reqs = r :: rs := by
      refine List.exists_cons_of_ne_nil fun hnil => ?_
      simp [hnil] at hreqs
    simp only [List.map_cons, List.cons.injEq] at hreqs
    obtain ⟨hreq, hreqs⟩ := hreqs
    cases hserve with
    | read => cases hreq
    | write hrange hrun =>
      cases hreq
      obtain ⟨part, hpages⟩ := requestPages_onePage hrange (hone (sectorNb, length) (by simp))
      obtain ⟨hret, labels, σ₁, hsim, hhost, hkept, hres⟩ := ftlWrite_keeps h hrange
        (by rw [hpages, List.length_singleton]; omega) hrun
      have hlimbo₁ := hkept.limbo.trans hlimbo
      have hW₁ : ∀ l, σ₁.map l ≠ none → l ∈ insert (sectorNb / (g.sectorsPerPage : ℤ)) W := by
        intro l hl
        rcases (hsim.mapped l).mp hl with hl | ⟨w, hw, rfl⟩
        · exact mem_insert_of_mem (hW l hl)
        · rw [hhost, hpages, List.mem_singleton] at hw
          simp [hw]
      have hunion : insert (sectorNb / (g.sectorsPerPage : ℤ)) W ∪
            (reqs.map fun r => r.1 / (g.sectorsPerPage : ℤ)).toFinset =
          W ∪ (((sectorNb, length) :: reqs).map fun r => r.1 / (g.sectorsPerPage : ℤ)).toFinset := by
        ext l
        simp only [mem_union, mem_insert, List.map_cons, List.mem_toFinset, List.mem_cons]
        tauto
      have hcard₁ := hunion ▸ hcard
      have hfree₁ := (hres hvictim).freePages_le hsim.inv hlimbo₁ hW₁
        ((card_le_card subset_union_left).trans_lt hcard₁)
      have hrest := ih hreqs (fun r hr => hone r (List.mem_cons_of_mem _ hr)) hsim.inv hlimbo₁ hfree₁
        hW₁ hcard₁
      exact List.forall_mem_cons.mpr ⟨⟨hret, hkept.noAbort, hkept.pages⟩, hrest⟩

theorem freePages_emptyStore : g.pageNb ≤ freePages g emptyStore := by
  have h₀ : (0, 0) ∈ g.blocks := g.mem_blocks.mpr ⟨g.flashNb_pos, g.blockNb_pos⟩
  exact freePages_of_fresh h₀ rfl

/-- **Garbage collection keeps up with writes of one page.** On a device with one plane to a
chip, requests that each write within one logical page are all served, as long as they use
fewer lpns than the blocks beyond one per list can hold: every `GET_NEW_PAGE` hands out a
page, every request succeeds and no collection gives up. -/
theorem singlePageWrites_succeed (hplanes : g.planesPerFlash = 1) (hvictim : 1 ≤ g.gcVictimNb)
    (reqs : List (ℤ × ℕ)) (hreqs : ∀ r ∈ reqs, InRange g r.1 r.2 ∧ OnePage g r.1 r.2)
    (hlpns : #(reqs.map fun r => r.1 / (g.sectorsPerPage : ℤ)).toFinset <
      (g.blockMappingEntryNb - g.emptyTableEntryNb) * g.pageNb) :
    (∀ fuel, allocFuel g ≤ fuel →
      (serveAll g fuel (reqs.map fun r => .write r.1 r.2) (ftlInit g)).isSome) ∧
    ∀ hist s, Run g hist s → hist.map Served.request = reqs.map (fun r => .write r.1 r.2) →
      ∀ e ∈ hist, e.ret = .success ∧ ¬ GcAborted e.events ∧
        ∀ ev ∈ e.events, ev.call ≠ .getNewPage none := by
  have hinit := ftlInit_inv (g := g) (hplanes ▸ one_dvd _)
  refine ⟨fun fuel hfuel => ?_, fun hist s hrun hhist => ?_⟩
  · have hrange : ∀ req ∈ reqs.map (fun r => Request.write r.1 r.2), req.InRange g := by
      intro req hreq
      obtain ⟨r, hr, rfl⟩ := List.mem_map.mp hreq
      exact (hreqs r hr).1
    obtain ⟨hist, s, hserve⟩ := serveAll_returns hplanes hfuel hinit hrange
    rw [hserve]
    rfl
  · refine onePageWrites_keep hvictim hrun hhist (fun r hr => (hreqs r hr).2) hinit rfl
      freePages_emptyStore (W := ∅) (fun l hl => absurd rfl hl) ?_
    rw [empty_union]
    exact hlpns

/-- A device of two chips with one plane and two blocks of two pages each. -/
def twoChips : Geometry where
  sectorsPerPage := 2
  pageNb := 2
  blockNb := 2
  flashNb := 2
  planesPerFlash := 1
  gcVictimNb := 1
  writeNoparal := false
  gcVictimOverall := false
  sectorsPerPage_pos := Nat.two_pos
  sectorsPerPage_lt := smallDevice.sectorsPerPage_lt
  pageNb_pos := Nat.two_pos
  blockNb_pos := Nat.two_pos
  flashNb_pos := Nat.two_pos
  planesPerFlash_pos := Nat.one_pos

/-- Three logical pages, written over and over. -/
theorem singlePageWrites_succeed_twoChips :
    let reqs : List (ℤ × ℕ) :=
      [(0, 2), (2, 1), (5, 1), (0, 1), (3, 1), (4, 2), (2, 2), (1, 1), (5, 1), (0, 2)]
    (serveAll twoChips (allocFuel twoChips) (reqs.map fun r => .write r.1 r.2)
      (ftlInit twoChips)).isSome ∧
    ∀ hist s, Run twoChips hist s →
      hist.map Served.request = reqs.map (fun r => .write r.1 r.2) →
      ∀ e ∈ hist, e.ret = .success ∧ ¬ GcAborted e.events ∧
        ∀ ev ∈ e.events, ev.call ≠ .getNewPage none := by
  intro reqs
  have hmain := singlePageWrites_succeed (g := twoChips) rfl le_rfl reqs (by decide) (by decide)
  exact ⟨hmain.1 _ le_rfl, hmain.2⟩

end Vssim
