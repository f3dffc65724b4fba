import Vssim.Ftl.Failure

/-!
# Garbage collection keeps up

Requests of more than one page. `GC_CHECK` runs only after a request, so the first collection after
a request of `n` pages may find no more than `PAGE_NB - n` pages free, and gives up if its victim
has more valid pages than that. While fewer than `PAGE_NB - n + 1` logical pages to a victim are in
use, the best victim has no more (`exists_cheapVictim`), the collection succeeds and leaves a
block's worth of free pages for the next request (`gcCheck_keepsUp`). So it goes on
(`boundedWrites_succeed`), however long the run and however its writes are spread.
-/

namespace Vssim

open FlashStore Finset LinkedHeap

variable {g : Geometry} {s s' : Ftl} {σ σ' : Store} {L : ListView} {fuel : ℕ}
  {events : List Event}

/-! ### The pages of a request -/

/-- A request has no more pages than its sectors and the beginning of its first page can fill. -/
private theorem length_pieces (rounds : ℕ) {c : Cursor} (k : ℕ) (hc : 0 < c.remain → c.Ok g) :
    (pieces g rounds c k).length * g.sectorsPerPage ≤
      c.leftSkip + c.remain + g.sectorsPerPage - 1 := by
  induction rounds generalizing c k with
  | zero => simp [pieces]
  | succ rounds ih =>
    rw [pieces]
    split
    swap
    · simp
    next hpos =>
    have hok := hc hpos
    have hskip := hok.leftSkip_lt
    have hsects := hok.sects_eq
    have hrem := hok.next_remain
    rw [List.length_cons, Nat.add_mul, Nat.one_mul]
    by_cases hnext : 0 < (c.next g).remain
    · have hrest := ih (k + 1) fun h => hok.next h
      have hzero : (c.next g).leftSkip = 0 := rfl
      omega
    · have hnil : pieces g rounds (c.next g) (k + 1) = [] := by
        cases rounds with
        | zero => rfl
        | succ rounds => rw [pieces, if_neg hnext]
      rw [hnil, List.length_nil]
      omega

/-- A request of `length` sectors, wherever it begins. -/
theorem length_requestPages {sectorNb : ℤ} {length : ℕ} (hreq : InRange g sectorNb length) :
    (requestPages g sectorNb length).length ≤
      (length + 2 * g.sectorsPerPage - 2) / g.sectorsPerPage := by
  have hok := Cursor.Ok.start hreq
  have hskip := hok.leftSkip_lt
  have hlen := length_pieces (g := g) length 0 fun _ => hok
  have hremain : (Cursor.start g sectorNb length).remain = length := rfl
  have hpos := hreq.pos
  refine (Nat.le_div_iff_mul_le g.sectorsPerPage_pos).mpr (hlen.trans ?_)
  omega

/-- The logical pages of a request that ends at `top`. -/
theorem mem_requestPages_lt {sectorNb : ℤ} {length top : ℕ} (hreq : InRange g sectorNb length)
    (htop : sectorNb + length ≤ top) {w : ℤ × ℕ × Bool} (hw : w ∈ requestPages g sectorNb length) :
    0 ≤ w.1 ∧ w.1 ≤ ((top - 1) / g.sectorsPerPage : ℕ) := by
  obtain ⟨sector, hlo, hhi, hlpn⟩ :=
    (mem_pieces_iff length 0 (fun _ => Cursor.Ok.start hreq) le_rfl w.1).mp ⟨w, hw, rfl⟩
  have hlo : sectorNb ≤ sector := hlo
  have hhi : sector < sectorNb + length := hhi
  have hspp : (0 : ℤ) < g.sectorsPerPage := by exact_mod_cast g.sectorsPerPage_pos
  have hnonneg := hreq.nonneg
  rw [← hlpn]
  refine ⟨Int.ediv_nonneg (by omega) hspp.le, ?_⟩
  push_cast
  exact Int.ediv_le_ediv hspp (by omega)

/-! ### Cheap victims -/

/-- **Counting argument**: if all victims have `k` valid pages, that many pages are mapped. -/
theorem victims_mul_le_mapped (h : FtlInv g s σ) (hL : ListInv g s.lists L σ.fill σ.limbo)
    (hlimbo : σ.limbo = ∅) {k : ℕ}
    (hall : ∀ i < g.emptyTableEntryNb, ∀ x ∈ L.victim i, k ≤ validPages g s.tables x.2) :
    s.lists.totalVictimBlockNb * k ≤ mappedPages g s.tables := by
  have hle : ∀ i ∈ range g.emptyTableEntryNb, (L.victim i).length * k ≤
      ((L.blocks i).map fun β => (s.tables.getBlockStateEntry g β.1 β.2).validPageNb).sum := by
    intro i hi
    have hvalid : ((L.victimBlocks i).map fun β =>
        (s.tables.getBlockStateEntry g β.1 β.2).validPageNb).length * k ≤
          ((L.victimBlocks i).map fun β =>
            (s.tables.getBlockStateEntry g β.1 β.2).validPageNb).sum := by
      refine List.card_nsmul_le_sum _ _ fun n hn => ?_
      simp only [ListView.victimBlocks, List.map_map, List.mem_map, Function.comp_apply] at hn
      obtain ⟨x, hx, rfl⟩ := hn
      exact hall i (mem_range.mp hi) x hx
    rw [List.length_map, ListView.victimBlocks, List.length_map] at hvalid
    rw [ListView.blocks, List.map_append, List.sum_append]
    exact hvalid.trans (Nat.le_add_left _ _)
  rw [mappedPages, ← card_valid_eq_card_mapped h.tables hlimbo, ← sum_validPageNb h.tables,
    hL.rep.totalVictim, sum_mul]
  have hlive : g.blocks \ σ.limbo = g.blocks := by rw [hlimbo, sdiff_empty]
  rw [← hlive, ← hL.placed.buckets.sum_eq]
  exact sum_le_sum hle

/-- With few blocks on the empty lists and few lpns mapped, some victim has few valid pages. -/
theorem exists_cheapVictim (h : FtlInv g s σ) (hL : ListInv g s.lists L σ.fill σ.limbo)
    (hlimbo : σ.limbo = ∅) (htotal : s.lists.totalEmptyBlockNb ≤ g.emptyTableEntryNb) {k : ℕ}
    (hmapped : mappedPages g s.tables <
      (g.blockMappingEntryNb - g.emptyTableEntryNb) * (k + 1)) :
    ∃ i < g.emptyTableEntryNb, ∃ x ∈ L.victim i, validPages g s.tables x.2 ≤ k := by
  by_contra hno
  push Not at hno
  have hsum := hL.total_eq hlimbo
  have hle := victims_mul_le_mapped (k := k + 1) h hL hlimbo hno
  have hmul : (g.blockMappingEntryNb - g.emptyTableEntryNb) * (k + 1) ≤
      s.lists.totalVictimBlockNb * (k + 1) := Nat.mul_le_mul_right _ (by omega)
  omega

/-- A collection with a cheap victim and as many free pages as it has valid ones. -/
private theorem garbageCollection_gains {r : Ret} {k : ℕ} (h : FtlInv g s σ)
    (hL : ListInv g s.lists L σ.fill σ.limbo) (hk : k < g.pageNb)
    (hcheap : ∃ i < g.emptyTableEntryNb, ∃ x ∈ L.victim i, validPages g s.tables x.2 ≤ k)
    (hfree : k ≤ freePages g σ) (hrun : garbageCollection g fuel s = some (r, s', events)) :
    r = .success ∧ ∃ labels σ', Sim g σ s' events labels σ' ∧ hostWrites labels = [] ∧
      ¬ GcAborted events ∧ σ'.limbo = σ.limbo ∧ g.pageNb ≤ freePages g σ' := by
  obtain ⟨labels, σ', hsim, hhost, hout⟩ := garbageCollection_sim h hL hrun
  obtain ⟨i, hi, x, hx, hle⟩ := hcheap
  cases hout with
  | nothing hs hσ hev hfull =>
    have hvalid := hfull i hi x hx
    omega
  | aborted hv hlimbo hev hlt hfull =>
    have hbest := hv.2.2 i hi x hx
    omega
  | collected hv hlimbo hev hgain =>
    have hbest := hv.2.2 i hi x hx
    exact ⟨rfl, labels, σ', hsim, hhost, hev, hlimbo, by omega⟩

/-- **`GC_CHECK` after a request** leaves a block's worth of free pages. -/
theorem gcCheck_keepsUp {u : Unit} {k : ℕ} (h : FtlInv g s σ) (hlimbo : σ.limbo = ∅)
    (hvictim : 1 ≤ g.gcVictimNb) (hk : k < g.pageNb) (hfree : k ≤ freePages g σ)
    (hmapped : mappedPages g s.tables <
      (g.blockMappingEntryNb - g.emptyTableEntryNb) * (k + 1))
    (hrun : gcCheck g fuel s = some (u, s', events)) :
    ∃ labels σ', Sim g σ s' events labels σ' ∧ hostWrites labels = [] ∧ ¬ GcAborted events ∧
      σ'.limbo = ∅ ∧ g.pageNb ≤ freePages g σ' := by
  obtain ⟨L, hL⟩ := h.lists
  rw [gcCheck] at hrun
  split at hrun
  · rename_i htotal
    have hcheap := exists_cheapVictim h hL hlimbo htotal hmapped
    obtain ⟨n, hn⟩ := Nat.exists_eq_add_of_le' hvictim
    rw [hn, collectLoop] at hrun
    simp only [Option.bind_eq_bind, Option.bind_eq_some_iff] at hrun
    obtain ⟨⟨r, s₁, ev₁⟩, hgc, hrun⟩ := hrun
    obtain ⟨rfl, ls₁, σ₁, hsim₁, hhost₁, hev₁, hlimbo₁, hfree₁⟩ :=
      garbageCollection_gains h hL hk hcheap hfree hgc
    simp only [Option.bind_eq_some_iff] at hrun
    obtain ⟨⟨u', s₂, ev₂⟩, hloop, hrun⟩ := hrun
    cases hrun
    -- a block's worth of pages is enough for the collections that follow
    obtain ⟨ls₂, σ₂, hsim₂, hhost₂, hkept, hmono, -⟩ :=
      collectLoop_keeps hsim₁.inv (by omega) hloop
    refine ⟨_, σ₂, hsim₁.append hsim₂, ?_, ?_, ?_, hmono hfree₁⟩
    · rw [hostWrites_append, hhost₁, hhost₂]
      rfl
    · rw [gcAborted_append, not_or]
      exact ⟨hev₁, hkept.noAbort⟩
    · rw [hkept.limbo, hlimbo₁, hlimbo]
  · rename_i htotal
    cases hrun
    exact ⟨[], σ, .refl h, rfl, by simp, hlimbo, hL.reserve (not_le.mp htotal)⟩

/-! ### Requests -/

/-- The lpns in use after a step: those of before, and those the host has written. -/
private theorem Sim.mapped_mem {labels : List (Act × List Event)} (h : Sim g σ s' events labels σ')
    {W : Finset ℤ} (hW : ∀ l, σ.map l ≠ none → l ∈ W) :
    ∀ l, σ'.map l ≠ none → l ∈ W ∪ ((hostWrites labels).map Prod.fst).toFinset := by
  intro l hl
  rcases (h.mapped l).mp hl with hl | ⟨w, hw, rfl⟩
  · exact mem_union_left _ (hW l hl)
  · exact mem_union_right _ (List.mem_toFinset.mpr (List.mem_map_of_mem hw))

/-- A write of at most `n` pages, from a state with a block's worth of free pages. -/
private theorem ftlWrite_keepsUp {sectorNb : ℤ} {length n : ℕ} {r : Ret} (h : FtlInv g s σ)
    (hlimbo : σ.limbo = ∅) (hvictim : 1 ≤ g.gcVictimNb) (hn : n ≤ g.pageNb)
    (hreq : InRange g sectorNb length) (hpages : (requestPages g sectorNb length).length ≤ n)
    (hfree : g.pageNb ≤ freePages g σ) {W : Finset ℤ} (hW : ∀ l, σ.map l ≠ none → l ∈ W)
    (hcard : #(W ∪ ((requestPages g sectorNb length).map Prod.fst).toFinset) <
      (g.blockMappingEntryNb - g.emptyTableEntryNb) * (g.pageNb - n + 1))
    (hrun : ftlWrite g fuel sectorNb length s = some (r, s', events)) :
    r = .success ∧ ∃ labels σ', Sim g σ s' events labels σ' ∧
      hostWrites labels = requestPages g sectorNb length ∧ ¬ GcAborted events ∧ σ'.limbo = ∅ ∧
      g.pageNb ≤ freePages g σ' := by
  obtain ⟨r₁, s₁, ev₁, hloop, hend⟩ := ftlWrite_cases hreq hrun
  obtain ⟨ls₁, σ₁, hsim₁, hlimbo₁, habort₁, hwritten⟩ :=
    writePages_sim h (fun _ => .start hreq) hloop
  have halloc : Sim g σ s [⟨.allocIoRequest sectorNb length .write, s⟩] _ σ :=
    .silent (by simpa using ⟨trivial, h⟩) h
  have hpos : 0 < (requestPages g sectorNb length).length :=
    List.length_pos_iff.mpr (requestPages_ne_nil hreq)
  rcases hend with ⟨rfl, -⟩ | ⟨ev₂, rfl, hcheck, rfl⟩
  · have hlt : freePages g σ < (requestPages g sectorNb length).length := hwritten.2.2.1
    omega
  obtain ⟨hhost, hleft, hret⟩ := hwritten
  have hleft : freePages g σ = freePages g σ₁ + (requestPages g sectorNb length).length := hleft
  have hW₁ := hsim₁.mapped_mem hW
  rw [hhost] at hW₁
  obtain ⟨ls₂, σ₂, hsim₂, hhost₂, habort₂, hlimbo₂, hfree₂⟩ :=
    gcCheck_keepsUp (k := g.pageNb - n) hsim₁.inv (hlimbo₁.trans hlimbo) hvictim (by omega)
      (by omega) ((hsim₁.inv.mappedPages_le hW₁).trans_lt hcard) hcheck
  have hincr : Sim g σ₁ s₁ [⟨.increaseIoRequestSeqNb, s₁⟩] _ σ₁ :=
    .silent (by simpa using ⟨trivial, hsim₁.inv⟩) hsim₁.inv
  refine ⟨hret.trans (if_neg (requestPages_ne_nil hreq)), _, σ₂,
    halloc.append (hsim₁.append (hincr.append hsim₂)), ?_, by simp [habort₁, habort₂], hlimbo₂,
    hfree₂⟩
  simp only [hostWrites_append, hostWrites_skip, hhost₂, hhost, List.append_nil,
    List.singleton_append]
  rfl

private theorem readPages_noAbort {n rounds k : ℕ} {c : Cursor} {ret : Ret} :
    ¬ GcAborted (readPages g n s rounds c k ret).2 := by
  induction rounds generalizing c k ret with
  | zero => simp [readPages]
  | succ rounds ih =>
    rw [readPages]
    split
    · simpa using ih
    · simp

/-- A read collects nothing. -/
private theorem ftlRead_noAbort {sectorNb : ℤ} {length : ℕ} :
    ¬ GcAborted (ftlRead g sectorNb length s).2 := by
  rw [ftlRead]
  split
  · simp
  split
  · simpa using readPages_noAbort
  · simp

variable (g) in
/-- The logical pages that requests write. -/
def lpnsWritten (reqs : List Request) : Finset ℤ :=
  (reqs.flatMap fun req => (req.pages g).map Prod.fst).toFinset

private theorem lpnsWritten_cons (req : Request) (reqs : List Request) :
    lpnsWritten g (req :: reqs) =
      ((req.pages g).map Prod.fst).toFinset ∪ lpnsWritten g reqs := by
  rw [lpnsWritten, List.flatMap_cons, List.toFinset_append, lpnsWritten]

/-- Requests from a state with a block's worth of free pages. `W` are the lpns mapped before. -/
private theorem boundedWrites_keepUp (hvictim : 1 ≤ g.gcVictimNb) {n : ℕ} (hn : n ≤ g.pageNb)
    {hist : List Served} (htrace : Trace (Serve g) s hist s')
    (hpages : ∀ e ∈ hist, (e.request.pages g).length ≤ n) (h : FtlInv g s σ)
    (hlimbo : σ.limbo = ∅) (hfree : g.pageNb ≤ freePages g σ) {W : Finset ℤ}
    (hW : ∀ l, σ.map l ≠ none → l ∈ W)
    (hcard : #(W ∪ lpnsWritten g (hist.map Served.request)) <
      (g.blockMappingEntryNb - g.emptyTableEntryNb) * (g.pageNb - n + 1)) :
    ∀ e ∈ hist, (∀ sectorNb length, e.request = .write sectorNb length → e.ret = .success) ∧
      ¬ GcAborted e.events := by
  induction htrace generalizing σ W with
  | nil => simp
  | @cons s s₁ s₂ e es hserve _ ih =>
    rw [List.map_cons, lpnsWritten_cons, ← union_assoc] at hcard
    have hcard₁ := (card_le_card subset_union_left).trans_lt hcard
    obtain ⟨hfirst, hrest⟩ := List.forall_mem_cons.mp hpages
    cases hserve with
    | @write _ sectorNb length fuel r events hreq hrun =>
      obtain ⟨rfl, labels, σ₁, hsim, hhost, habort, hlimbo₁, hfree₁⟩ :=
        ftlWrite_keepsUp h hlimbo hvictim hn hreq hfirst hfree hW hcard₁ hrun
      have hW₁ := hsim.mapped_mem hW
      rw [hhost] at hW₁
      exact List.forall_mem_cons.mpr ⟨⟨fun _ _ _ => rfl, habort⟩,
        ih hrest hsim.inv hlimbo₁ hfree₁ hW₁ hcard⟩
    | @read sectorNb length r events hreq hrun =>
      have hev : events = (ftlRead g sectorNb length s).2 := by rw [hrun]
      refine List.forall_mem_cons.mpr ⟨⟨fun _ _ heq => (nomatch heq), hev ▸ ftlRead_noAbort⟩, ?_⟩
      refine ih hrest h hlimbo hfree hW ?_
      rwa [show ((Request.read sectorNb length).pages g).map Prod.fst = [] from rfl,
        List.toFinset_nil, union_empty] at hcard

/-- Requests on a fresh device. -/
theorem boundedWrites_run (hdvd : g.planesPerFlash ∣ g.blockNb) (hvictim : 1 ≤ g.gcVictimNb)
    {n : ℕ} (hn : n ≤ g.pageNb) {hist : List Served} (hrun : Run g hist s)
    (hpages : ∀ req ∈ hist.map Served.request, (req.pages g).length ≤ n)
    (hlpns : #(lpnsWritten g (hist.map Served.request)) <
      (g.blockMappingEntryNb - g.emptyTableEntryNb) * (g.pageNb - n + 1)) :
    ∀ e ∈ hist, (∀ sectorNb length, e.request = .write sectorNb length → e.ret = .success) ∧
      ¬ GcAborted e.events := by
  refine boundedWrites_keepUp hvictim hn hrun (fun e he => hpages _ (List.mem_map_of_mem he))
    (ftlInit_inv hdvd) rfl freePages_emptyStore (W := ∅) (fun l hl => absurd rfl hl) ?_
  rwa [empty_union]

/-- **Garbage collection keeps up with writes of `n` pages.** On a device with one plane to a chip,
requests that write no more than `n` pages each are all served, whatever they are and however many,
as long as they use fewer lpns than `PAGE_NB - n + 1` to each of the blocks beyond one per list:
every write succeeds and no collection gives up. -/
theorem boundedWrites_succeed (hplanes : g.planesPerFlash = 1) (hvictim : 1 ≤ g.gcVictimNb)
    {n : ℕ} (hn : n ≤ g.pageNb) (reqs : List Request)
    (hreqs : ∀ req ∈ reqs, req.InRange g ∧ (req.pages g).length ≤ n)
    (hlpns : #(lpnsWritten g reqs) <
      (g.blockMappingEntryNb - g.emptyTableEntryNb) * (g.pageNb - n + 1)) :
    (∀ fuel, allocFuel g ≤ fuel → (serveAll g fuel reqs (ftlInit g)).isSome) ∧
    ∀ hist s, Run g hist s → hist.map Served.request = reqs →
      ∀ e ∈ hist, (∀ sectorNb length, e.request = .write sectorNb length → e.ret = .success) ∧
        ¬ GcAborted e.events := by
  have hdvd : g.planesPerFlash ∣ g.blockNb := hplanes ▸ one_dvd _
  refine ⟨fun fuel hfuel => ?_, fun hist s hrun hhist => ?_⟩
  · obtain ⟨hist, s, hserve⟩ := serveAll_returns hplanes hfuel (ftlInit_inv hdvd)
      fun req hreq => (hreqs req hreq).1
    rw [hserve]
    rfl
  · subst hhist
    exact boundedWrites_run hdvd hvictim hn hrun (fun req hreq => (hreqs req hreq).2) hlpns

/-- Four pages to a block, four blocks, and two pages to a request, written over and over. -/
theorem boundedWrites_succeed_oneChip :
    let g := oneChip 4 4 (by decide) (by decide)
    let reqs : List Request := (List.range 20).flatMap fun i =>
      [.write (2 * i % 7) 2, .write (3 * i % 7) 2, .read (i % 6) 2]
    (serveAll g (allocFuel g) reqs (ftlInit g)).isSome ∧
    ∀ hist s, Run g hist s → hist.map Served.request = reqs →
      ∀ e ∈ hist, (∀ sectorNb length, e.request = .write sectorNb length → e.ret = .success) ∧
        ¬ GcAborted e.events := by
  intro g reqs
  have hmain := boundedWrites_succeed (g := g) rfl (by decide) (n := 2) (by decide) reqs
    (by decide +kernel) (by decide +kernel)
  exact ⟨hmain.1 _ le_rfl, hmain.2⟩

end Vssim
