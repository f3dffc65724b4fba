import Vssim.Ftl.BoundsCheck
import Vssim.Ftl.Space

/-!
# Writing once

A workload that writes no logical page twice, such as filling the device from one end to the other.
Every page in use stays mapped to (`Store.Dense`), so all pages of every victim are valid and
`SELECT_VICTIM_BLOCK` finds nothing: `GC_CHECK` may try, but copies and erases nothing
(`gcCheck_dense`). There are as many pages as lpns, so every write gets its pages, to the last one
of the device (`writeOnce_succeeds`). Nothing is taken from a chip's own lists, which is where a
collection can search forever, so this holds for any number of planes.
-/

namespace Vssim

open FlashStore Finset LinkedHeap

variable {g : Geometry} {s s' : Ftl} {σ σ' : Store} {L : ListView} {fuel : ℕ}
  {events : List Event}

/-- The calls with which a collection moves pages and erases its victim. -/
def Call.Collects : Call → Prop
  | .ssdPageRead _ _ _ _ .gcRead _ | .ssdPageWrite _ _ _ _ .gcWrite _ | .ssdBlockErase _ _ => True
  | _ => False

private theorem Call.Silent.not_collects {c : Call} (h : c.Silent) : ¬ c.Collects := by
  unfold Call.Collects
  split <;> simp_all [Call.Silent]

/-- Nothing to reclaim: all pages of every victim are valid. -/
private theorem FtlInv.validPages_dense (h : FtlInv g s σ) (hd : σ.Dense)
    (hL : ListInv g s.lists L σ.fill σ.limbo) {i : ℕ} (hi : i < g.emptyTableEntryNb)
    {x : ℕ × VictimBlock} (hx : x ∈ L.victim i) : validPages g s.tables x.2 = g.pageNb := by
  have hβ := (mem_sdiff.mp (hL.placed.victim_mem hi hx).1).1
  have hle : validPages g s.tables x.2 ≤ g.pageNb :=
    (h.tables.counts x.2.block hβ).trans_le (countValid_le _ _)
  refine hle.antisymm (not_lt.mp fun hlt => ?_)
  obtain ⟨p, hp, hcell⟩ := (validPages_lt_iff h hβ).mp hlt
  obtain ⟨l, hl⟩ := hd x.2.block p (by rw [hL.placed.victim_full i hi x hx]; exact hp)
  exact hcell (h.tables.mapped l _ hl).2.2.2.2.1

/-- A collection finds nothing. -/
private theorem garbageCollection_dense (fuel : ℕ) (h : FtlInv g s σ) (hd : σ.Dense) : ∃ c events,
    garbageCollection g fuel s = some (.fail, { s with failCnt := c }, events) ∧
      ∀ e ∈ events, ¬ e.call.Collects := by
  obtain ⟨L, hL⟩ := h.lists
  obtain ⟨sel, s₁, ev₁, hsel, hspec⟩ := selectVictimBlock_spec h hL
  cases sel with
  | none =>
    obtain ⟨⟨c, rfl⟩, hev, -⟩ := hspec
    refine ⟨c, ⟨.garbageCollection, s⟩ :: ev₁, ?_, ?_⟩
    · rw [garbageCollection, hsel]
      rfl
    · rw [List.forall_mem_cons]
      refine ⟨id, fun e he => ?_⟩
      rw [hev e he]
      exact id
  | some v =>
    obtain ⟨-, -, -, ⟨i, hi, a, ha⟩, hlt, -⟩ := hspec
    exact absurd (h.validPages_dense hd hL hi ha) hlt.ne

/-- **`GC_CHECK` does nothing.** -/
theorem gcCheck_dense (fuel : ℕ) (h : FtlInv g s σ) (hd : σ.Dense) : ∃ c events,
    gcCheck g fuel s = some ((), { s with failCnt := c }, events) ∧
      ∀ e ∈ events, ¬ e.call.Collects := by
  rw [gcCheck]
  split
  · cases hn : g.gcVictimNb with
    | zero => exact ⟨s.failCnt, [], rfl, by simp⟩
    | succ n =>
      obtain ⟨c, events, hgc, hev⟩ := garbageCollection_dense fuel h hd
      exact ⟨c, events, by rw [collectLoop, hgc]; rfl, hev⟩
  · exact ⟨s.failCnt, [], rfl, by simp⟩

/-! ### Requests -/

variable (g) in
/-- A state to which nothing has been written twice, with enough pages for `todo` more. -/
structure Fresh (s : Ftl) (σ : Store) (todo : List ℤ) : Prop where
  inv : FtlInv g s σ
  dense : σ.Dense
  nodup : todo.Nodup
  unmapped : ∀ l ∈ todo, σ.map l = none
  room : todo.length ≤ freePages g σ
  gcCount : s.gcCount = 0

/-- The page loop of a write. -/
private theorem writePages_fresh (hfuel : allocFuel g ≤ fuel) (n rounds : ℕ) {c : Cursor} (k : ℕ)
    (ret : Ret) (hc : 0 < c.remain → c.Ok g) {todo : List ℤ}
    (h : Fresh g s σ ((pieces g rounds c k).map Prod.fst ++ todo)) : ∃ s' σ' events,
      writePages g fuel n rounds c k ret s =
        some (some (if pieces g rounds c k = [] then ret else .success), s', events) ∧
      Fresh g s' σ' todo ∧ ∀ e ∈ events, ¬ e.call.Collects := by
  induction rounds generalizing c k ret s σ with
  | zero => exact ⟨s, σ, [], rfl, h, by simp⟩
  | succ rounds ih =>
    by_cases hpos : 0 < c.remain
    swap
    · rw [pieces, if_neg hpos] at h
      refine ⟨s, σ, [], ?_, h, by simp⟩
      rw [writePages, if_neg hpos, pieces, if_neg hpos, if_pos rfl]
    rw [pieces, if_pos hpos] at h ⊢
    obtain ⟨L, hL⟩ := h.inv.lists
    obtain ⟨taken, lists, hget⟩ := hostNewPage_returns hL hfuel
    have hgot := hostNewPage_spec hL hget
    have hroom := h.room
    cases taken with
    | none =>
      rw [freePages_eq_zero hgot.2] at hroom
      simp at hroom
    | some e =>
      obtain ⟨hinv, -⟩ := program_step h.inv hgot (hc hpos) hpos k n
      have hfree := freePages_place (c.lpn g) (mem_sdiff.mp hgot.1).1 hgot.2.2.1
      obtain ⟨hlpn, hnodup⟩ := List.nodup_cons.mp h.nodup
      obtain ⟨hnew, hrest⟩ := List.forall_mem_cons.mp h.unmapped
      have hplaced : ∀ l ∈ (pieces g rounds (c.next g) (k + 1)).map Prod.fst ++ todo,
          (σ.place (c.lpn g) e.block).map l = none := by
        intro l hl
        have hne : l ≠ c.lpn g := fun heq => hlpn (heq ▸ hl)
        exact (Function.update_of_ne hne ..).trans (hrest l hl)
      have hlength : ((pieces g rounds (c.next g) (k + 1)).map Prod.fst ++ todo).length + 1 ≤
          freePages g σ := hroom
      obtain ⟨s', σ', ev₁, hrun, hfresh, hev⟩ := ih (k + 1) .success
        (fun hnext => (hc hpos).next hnext)
        ⟨hinv, h.dense.place hnew _, hnodup, hplaced, by omega, h.gcCount⟩
      have hprogram : ∀ t newPpn, ¬ (programCall g t c newPpn k n).Collects := by
        intro t newPpn
        rw [programCall]
        split <;> exact id
      refine ⟨s', σ', ⟨.getNewPage (some e), s⟩ ::
        ⟨programCall g s.tables c (e.ppn g) k n, { s with lists }⟩ :: ev₁, ?_, hfresh, ?_⟩
      · rw [writePages, if_pos hpos, hget, if_neg (List.cons_ne_nil _ _)]
        simp only [Option.bind_eq_bind, Option.bind_some, hrun, ite_self]
        rfl
      · rw [List.forall_mem_cons, List.forall_mem_cons]
        exact ⟨id, hprogram _ _, hev⟩

/-- A write of pages that have not been written. -/
private theorem ftlWrite_fresh (hfuel : allocFuel g ≤ fuel) {sectorNb : ℤ} {length : ℕ}
    (hreq : InRange g sectorNb length) {todo : List ℤ}
    (h : Fresh g s σ ((requestPages g sectorNb length).map Prod.fst ++ todo)) : ∃ s' σ' events,
      ftlWrite g fuel sectorNb length s = some (.success, s', events) ∧ Fresh g s' σ' todo ∧
      ∀ e ∈ events, ¬ e.call.Collects := by
  obtain ⟨s₁, σ₁, ev₁, hloop, hfresh, hev₁⟩ := writePages_fresh hfuel
    (ioPageNb g sectorNb length) length 0 .fail (fun _ => .start hreq) h
  obtain ⟨c, ev₂, hcheck, hev₂⟩ := gcCheck_dense fuel hfresh.inv hfresh.dense
  have hne : pieces g length (.start g sectorNb length) 0 ≠ [] := requestPages_ne_nil hreq
  rw [if_neg hne] at hloop
  refine ⟨{ s₁ with failCnt := c }, σ₁, ⟨.allocIoRequest sectorNb length .write, s⟩ ::
      (ev₁ ++ ⟨.increaseIoRequestSeqNb, s₁⟩ :: ev₂), ?_,
    ⟨⟨hfresh.inv.lists, hfresh.inv.tables⟩, hfresh.dense, hfresh.nodup, hfresh.unmapped,
      hfresh.room, hfresh.gcCount⟩, ?_⟩
  · rw [ftlWrite, if_neg hreq.toU32_le]
    simp only [hloop, hcheck, Option.bind_eq_bind, Option.bind_some]
  · simp only [List.forall_mem_cons, List.forall_mem_append]
    exact ⟨id, hev₁, id, hev₂⟩

/-- Requests that write nothing twice. -/
private theorem serveAll_fresh (hfuel : allocFuel g ≤ fuel) {reqs : List Request}
    (hreqs : ∀ req ∈ reqs, req.InRange g)
    (h : Fresh g s σ (reqs.flatMap fun req => (req.pages g).map Prod.fst)) : ∃ hist s' σ',
      serveAll g fuel reqs s = some (hist, s') ∧ Fresh g s' σ' [] ∧
      (∀ e ∈ hist, ∀ sectorNb length, e.request = .write sectorNb length → e.ret = .success) ∧
      ∀ ev ∈ eventLog hist, ¬ ev.call.Collects := by
  induction reqs generalizing s σ with
  | nil => exact ⟨[], s, σ, rfl, h, by simp, by simp [eventLog]⟩
  | cons req reqs ih =>
    obtain ⟨hreq, hrest⟩ := List.forall_mem_cons.mp hreqs
    rw [List.flatMap_cons] at h
    obtain ⟨e, s₁, σ₁, hserve, hfresh, hret, hev⟩ : ∃ e s₁ σ₁, serve g fuel req s = some (e, s₁) ∧
        Fresh g s₁ σ₁ (reqs.flatMap fun req => (req.pages g).map Prod.fst) ∧
        (∀ sectorNb length, e.request = .write sectorNb length → e.ret = .success) ∧
        ∀ ev ∈ e.events, ¬ ev.call.Collects := by
      cases req with
      | write sectorNb length =>
        obtain ⟨s₁, σ₁, ev₁, hrun, hfresh, hev⟩ := ftlWrite_fresh hfuel hreq h
        exact ⟨_, s₁, σ₁, by rw [serve, hrun]; rfl, hfresh, fun _ _ _ => rfl, hev⟩
      | read sectorNb length =>
        exact ⟨_, s, σ, rfl, h, fun _ _ heq => (by cases heq),
          fun ev hev => (ftlRead_silent ev hev).1.not_collects⟩
    obtain ⟨hist, s', σ', hrun, hdone, hrets, hevs⟩ := ih hrest hfresh
    refine ⟨e :: hist, s', σ', ?_, hdone, List.forall_mem_cons.mpr ⟨hret, hrets⟩, ?_⟩
    · simp only [serveAll, hserve, hrun, Option.bind_eq_bind, Option.bind_some]
    · rw [eventLog, List.flatMap_cons, List.forall_mem_append]
      exact ⟨hev, hevs⟩

private theorem freePages_emptyStore_eq : freePages g emptyStore = g.pageMappingEntryNb := by
  have hfresh : ∀ β ∈ g.blocks, g.pageNb - emptyStore.fill β = g.pageNb := fun _ _ => rfl
  rw [freePages, sum_const_nat hfresh, Geometry.blocks, card_product, card_range, card_range,
    Geometry.pageMappingEntryNb]
  ring

/-- There are no more lpns than pages. -/
private theorem length_le_of_nodup {todo : List ℤ} (hnodup : todo.Nodup)
    (hrange : ∀ l ∈ todo, 0 ≤ l ∧ l < g.pageMappingEntryNb) :
    todo.length ≤ g.pageMappingEntryNb := by
  have hsub : todo.toFinset ⊆ (range g.pageMappingEntryNb).image fun n : ℕ => (n : ℤ) := by
    intro l hl
    obtain ⟨hnonneg, hlt⟩ := hrange l (List.mem_toFinset.mp hl)
    refine mem_image.mpr ⟨l.toNat, ?_, Int.toNat_of_nonneg hnonneg⟩
    rw [mem_range]
    omega
  calc todo.length = todo.toFinset.card := (List.toFinset_card_of_nodup hnodup).symm
    _ ≤ _ := card_le_card hsub
    _ ≤ #(range g.pageMappingEntryNb) := card_image_le
    _ = g.pageMappingEntryNb := card_range _

/-- **Writing once needs no collection.** Requests that write no logical page twice are all served,
up to a full device: every write succeeds, no page is copied and no block erased. -/
theorem writeOnce_succeeds (hdvd : g.planesPerFlash ∣ g.blockNb) (hfuel : allocFuel g ≤ fuel)
    {reqs : List Request} (hreqs : ∀ req ∈ reqs, req.InRange g)
    (honce : (reqs.flatMap fun req => (req.pages g).map Prod.fst).Nodup) :
    ∃ hist s, serveAll g fuel reqs (ftlInit g) = some (hist, s) ∧ s.gcCount = 0 ∧
      (∀ e ∈ hist, ∀ sectorNb length, e.request = .write sectorNb length → e.ret = .success) ∧
      ∀ ev ∈ eventLog hist, ¬ ev.call.Collects := by
  have hrange : ∀ l : ℤ, l ∈ (reqs.flatMap fun req => (req.pages g).map Prod.fst) →
      0 ≤ l ∧ l < g.pageMappingEntryNb := by
    intro l hl
    obtain ⟨req, hreq, hl⟩ := List.mem_flatMap.mp hl
    obtain ⟨w, hw, rfl⟩ := List.mem_map.mp hl
    cases req with
    | read sectorNb length => cases hw
    | write sectorNb length => exact pieces_lpn length 0 (fun _ => .start (hreqs _ hreq)) w hw
  have hfresh : Fresh g (ftlInit g) emptyStore
      (reqs.flatMap fun req => (req.pages g).map Prod.fst) :=
    { inv := ftlInit_inv hdvd
      dense := fun _ _ hi => absurd hi (Nat.not_lt_zero _)
      nodup := honce
      unmapped := fun _ _ => rfl
      room := freePages_emptyStore_eq (g := g) ▸ length_le_of_nodup honce hrange
      gcCount := rfl }
  obtain ⟨hist, s, σ, hrun, hdone, hrets, hevs⟩ := serveAll_fresh hfuel hreqs hfresh
  exact ⟨hist, s, hrun, hdone.gcCount, hrets, hevs⟩

/-- The small device, filled to the last page, with a read in between. -/
theorem writeOnce_succeeds_smallDevice : ∃ hist s,
    serveAll smallDevice (allocFuel smallDevice)
      [.write 4 4, .write 0 4, .read 2 3, .write 12 4, .write 8 3] (ftlInit smallDevice) =
        some (hist, s) ∧ s.gcCount = 0 ∧
      (∀ e ∈ hist, ∀ sectorNb length, e.request = .write sectorNb length → e.ret = .success) ∧
      ∀ ev ∈ eventLog hist, ¬ ev.call.Collects :=
  writeOnce_succeeds (by decide) le_rfl (by decide) (by decide +kernel)

end Vssim
