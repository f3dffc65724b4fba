import Vssim.Ftl.Run

/-!
# The allocator's loops end

`GET_EMPTY_BLOCK` loops until it finds a block with an unwritten page, so a request could hang.
On well-formed lists it does not: over all chips, each round either moves on towards the next
list that is not empty or retires a block (`getEmptyBlockLoop_overall_returns`), and on a chip
with one plane the in-chip search has only one list to look at. `allocFuel` bounds the rounds
for any state, and with it every request returns (`ftlWrite_returns`).
-/

namespace Vssim

open FlashStore Finset

variable {g : Geometry} {l : BlockLists} {L : ListView} {fill : ℕ × ℕ → ℕ}
  {limbo : Finset (ℕ × ℕ)} {fuel : ℕ}

variable (g) in
/-- Enough rounds for `GET_EMPTY_BLOCK` in any state: once around the lists for each block. -/
def allocFuel : ℕ := (g.blockMappingEntryNb + 1) * g.emptyTableEntryNb

private theorem ListInv.totalEmpty_le (h : ListInv g l L fill limbo) :
    l.totalEmptyBlockNb ≤ g.blockMappingEntryNb := by
  have hle : l.totalEmptyBlockNb ≤ #(g.blocks \ limbo) := by
    rw [h.rep.totalEmpty, ← h.placed.buckets.sum_length]
    refine sum_le_sum fun i _ => ?_
    simp [ListView.blocks, ListView.emptyBlocks]
  have hcard : #g.blocks = g.blockMappingEntryNb := by
    rw [Geometry.blocks, card_product, card_range, card_range, Geometry.blockMappingEntryNb,
      Nat.mul_comm]
  exact hle.trans ((card_le_card sdiff_subset).trans_eq hcard)

/-! ### Once around the lists -/

variable (g) in
/-- The list `d` places after list `i` is not empty, if any is. -/
def NextList (l : BlockLists) (i d : ℕ) : Prop :=
  d < g.emptyTableEntryNb ∧
    (l.totalEmptyBlockNb ≠ 0 → (l.emptyBlockList ((i + d) % g.emptyTableEntryNb)).count ≠ 0)

private theorem ListInv.exists_nextList (h : ListInv g l L fill limbo) {i : ℕ}
    (hi : i < g.emptyTableEntryNb) : ∃ d, NextList g l i d := by
  have hE := g.emptyTableEntryNb_pos
  by_cases h0 : l.totalEmptyBlockNb = 0
  · exact ⟨0, hE, fun hne => absurd h0 hne⟩
  obtain ⟨j, hj, hne⟩ : ∃ j < g.emptyTableEntryNb, L.empty j ≠ [] := by
    by_contra hall
    push Not at hall
    refine h0 ?_
    rw [h.rep.totalEmpty]
    exact sum_eq_zero fun j hj => by rw [hall j (mem_range.mp hj), List.length_nil]
  refine ⟨(j + g.emptyTableEntryNb - i) % g.emptyTableEntryNb, Nat.mod_lt _ hE, fun _ => ?_⟩
  have hpos : (i + (j + g.emptyTableEntryNb - i) % g.emptyTableEntryNb) % g.emptyTableEntryNb = j := by
    rw [Nat.add_mod_mod, show i + (j + g.emptyTableEntryNb - i) = j + g.emptyTableEntryNb by omega,
      Nat.add_mod_right, Nat.mod_eq_of_lt hj]
  rw [hpos]
  exact fun hcount => hne ((h.rep.empty j hj).count_eq_zero.mp hcount)

/-- Past an empty list, the next one that is not is one place nearer. -/
private theorem NextList.advance {i d : ℕ} (hN : NextList g l i d) (hi : i < g.emptyTableEntryNb)
    (h0 : l.totalEmptyBlockNb ≠ 0) (hcount : (l.emptyBlockList i).count = 0) :
    ∃ d', d = d' + 1 ∧
      NextList g l (if i + 1 = g.emptyTableEntryNb then 0 else i + 1) d' := by
  obtain ⟨hd, hne⟩ := hN
  have hne := hne h0
  cases d with
  | zero =>
    rw [Nat.add_zero, Nat.mod_eq_of_lt hi] at hne
    exact absurd hcount hne
  | succ d' =>
    refine ⟨d', rfl, by omega, fun _ => ?_⟩
    have hpos : ((if i + 1 = g.emptyTableEntryNb then 0 else i + 1) + d') % g.emptyTableEntryNb =
        (i + (d' + 1)) % g.emptyTableEntryNb := by
      split
      · rename_i hwrap
        rw [Nat.zero_add, show i + (d' + 1) = d' + g.emptyTableEntryNb by omega, Nat.add_mod_right]
      · rw [Nat.add_right_comm, Nat.add_assoc]
    rw [hpos]
    exact hne

/-- Retiring a block pays for another round of the lists. -/
private theorem rounds_retire {T T' E d d' fuel : ℕ} (hT : T = T' + 1) (hd' : d' < E)
    (hfuel : T * E + d < fuel + 1) : T' * E + d' < fuel := by
  subst hT
  rw [Nat.succ_mul] at hfuel
  omega

theorem getEmptyBlockLoop_overall_returns {inputIndex mappingIndex d : ℕ}
    (h : ListInv g l L fill limbo) (hN : NextList g l l.emptyBlockTableIndex d)
    (hfuel : l.totalEmptyBlockNb * g.emptyTableEntryNb + d < fuel) :
    ∃ r l', getEmptyBlockLoop g .overall inputIndex fuel mappingIndex l = some (r, l') := by
  induction fuel generalizing l L d with
  | zero => omega
  | succ fuel ih =>
    rw [getEmptyBlockLoop]
    by_cases h0 : l.totalEmptyBlockNb = 0
    · exact ⟨none, l, if_pos h0⟩
    simp only [h0, if_false]
    rcases h.head_cases h.index_lt with ⟨hcount, -⟩ | ⟨p, e, xs, n, hL, hcount, hhead, hcell⟩
    · obtain ⟨d', rfl, hN'⟩ := hN.advance h.index_lt h0 hcount
      simp only [hcount, if_true]
      exact ih h.advance hN' (by simp only [advanceTableIndex]; omega)
    simp only [hcount, if_false, hhead, hcell, Option.bind_eq_bind, Option.bind_some]
    by_cases hfull : e.currPhyPageNb = g.pageNb
    · obtain ⟨l₁, ys, hretire, h₁, -, htotal⟩ := retireFullBlock_spec h h.index_lt hL hfull
      obtain ⟨d', hN'⟩ := h₁.advance.exists_nextList h₁.advance.index_lt
      simp only [hfull, if_true, hretire, Option.bind_some]
      exact ih h₁.advance hN' (rounds_retire htotal hN'.1 hfuel)
    · exact ⟨_, _, if_neg hfull⟩

private theorem getEmptyBlockLoop_noparal_returns {inputIndex mappingIndex d : ℕ}
    (h : ListInv g l L fill limbo) (hi : mappingIndex = l.emptyBlockTableIndex)
    (hN : NextList g l mappingIndex d)
    (hfuel : l.totalEmptyBlockNb * g.emptyTableEntryNb + d < fuel) :
    ∃ r l', getEmptyBlockLoop g .noparal inputIndex fuel mappingIndex l = some (r, l') := by
  induction fuel generalizing l L mappingIndex d with
  | zero => omega
  | succ fuel ih =>
    have hlt : mappingIndex < g.emptyTableEntryNb := hi ▸ h.index_lt
    rw [getEmptyBlockLoop]
    by_cases h0 : l.totalEmptyBlockNb = 0
    · exact ⟨none, l, if_pos h0⟩
    simp only [h0, if_false]
    rcases h.head_cases hlt with ⟨hcount, -⟩ | ⟨p, e, xs, n, hL, hcount, hhead, hcell⟩
    · obtain ⟨d', rfl, hN'⟩ := hN.advance hlt h0 hcount
      simp only [hcount, if_true]
      split
      · rename_i hwrap
        rw [if_pos hwrap] at hN'
        exact ih (h.setIndex g.emptyTableEntryNb_pos) rfl hN' (by simp only; omega)
      · rename_i hwrap
        rw [if_neg hwrap] at hN'
        exact ih (h.setIndex (by omega)) (by simp only; omega) hN' (by simp only; omega)
    simp only [hcount, if_false, hhead, hcell, Option.bind_eq_bind, Option.bind_some]
    by_cases hfull : e.currPhyPageNb = g.pageNb
    · obtain ⟨l₁, ys, hretire, h₁, hidx, htotal⟩ := retireFullBlock_spec h hlt hL hfull
      obtain ⟨d', hN'⟩ := h₁.exists_nextList hlt
      simp only [hfull, if_true, hretire, Option.bind_some]
      exact ih h₁ (hi.trans hidx.symm) hN' (rounds_retire htotal hN'.1 hfuel)
    · exact ⟨_, _, if_neg hfull⟩

/-- With one plane the in-chip search stays on one list. -/
private theorem getEmptyBlockLoop_inchip_returns (hplanes : g.planesPerFlash = 1)
    {inputIndex mappingIndex : ℕ} (h : ListInv g l L fill limbo)
    (hi : mappingIndex < g.emptyTableEntryNb) (hfuel : l.totalEmptyBlockNb < fuel) :
    ∃ r l', getEmptyBlockLoop g .inchip inputIndex fuel mappingIndex l = some (r, l') := by
  induction fuel generalizing l L with
  | zero => omega
  | succ fuel ih =>
    rw [getEmptyBlockLoop]
    by_cases h0 : l.totalEmptyBlockNb = 0
    · exact ⟨none, l, if_pos h0⟩
    simp only [h0, if_false, hplanes, ne_eq, not_true_eq_false]
    rcases h.head_cases hi with ⟨hcount, -⟩ | ⟨p, e, xs, n, hL, hcount, hhead, hcell⟩
    · exact ⟨none, l, if_pos hcount⟩
    simp only [hcount, if_false, hhead, hcell, Option.bind_eq_bind, Option.bind_some]
    by_cases hfull : e.currPhyPageNb = g.pageNb
    · obtain ⟨l₁, ys, hretire, h₁, -, htotal⟩ := retireFullBlock_spec h hi hL hfull
      simp only [hfull, if_true, hretire, Option.bind_some]
      exact ih h₁ (by omega)
    · exact ⟨_, _, if_neg hfull⟩

/-! ### Handing out pages -/

private theorem getEmptyBlock_returns {mode : VictimMode} {mappingIndex : ℕ}
    (hmode : mode = .inchip → g.planesPerFlash = 1) (h : ListInv g l L fill limbo)
    (hm : ModeOk g mode mappingIndex l) (hfuel : allocFuel g ≤ fuel) :
    ∃ r l', getEmptyBlock g fuel mode mappingIndex l = some (r, l') := by
  have hE := g.emptyTableEntryNb_pos
  have hT : l.totalEmptyBlockNb * g.emptyTableEntryNb + g.emptyTableEntryNb ≤ fuel := by
    rw [← Nat.succ_mul]
    exact (Nat.mul_le_mul_right _ (Nat.succ_le_succ h.totalEmpty_le)).trans hfuel
  cases mode with
  | overall =>
    obtain ⟨d, hN⟩ := h.exists_nextList h.index_lt
    exact getEmptyBlockLoop_overall_returns h hN (by have := hN.1; omega)
  | inchip =>
    refine getEmptyBlockLoop_inchip_returns (hmode rfl) h hm ?_
    have hle := Nat.le_mul_of_pos_right l.totalEmptyBlockNb hE
    omega
  | noparal =>
    obtain ⟨d, hN⟩ := h.exists_nextList (show mappingIndex < _ from hm ▸ h.index_lt)
    exact getEmptyBlockLoop_noparal_returns h hm hN (by have := hN.1; omega)

private theorem takePage_returns {mode : VictimMode} {found : Option ℕ}
    (hgot : GotBlock g mode fill limbo found l) : ∃ taken l', takePage found l = some (taken, l') := by
  obtain ⟨L, h, hsome, -⟩ := hgot
  cases found with
  | none => exact ⟨none, l, rfl⟩
  | some p =>
    obtain ⟨i, hi, e, xs, hL, -⟩ := hsome p rfl
    obtain ⟨n, hcell⟩ := (h.rep.empty i hi).seg.cell_of_mem (show (p, e) ∈ L.empty i by simp [hL])
    exact ⟨_, _, by rw [takePage, hcell, Option.map_some]⟩

theorem getNewPage_returns {mode : VictimMode} {mappingIndex : ℕ}
    (hmode : mode = .inchip → g.planesPerFlash = 1) (h : ListInv g l L fill limbo)
    (hm : ModeOk g mode mappingIndex l) (hfuel : allocFuel g ≤ fuel) :
    ∃ taken l', getNewPage g fuel mode mappingIndex l = some (taken, l') := by
  obtain ⟨first, l₁, hfirst⟩ := getEmptyBlock_returns hmode h hm hfuel
  have hgot := getEmptyBlock_spec h hm hfirst
  simp only [getNewPage, hfirst, Option.bind_eq_bind, Option.bind_some]
  by_cases hretry : mode = .inchip ∧ first = none
  · obtain ⟨L₁, h₁, -⟩ := hgot
    have hm₁ : ModeOk g .overall mappingIndex l₁ := trivial
    obtain ⟨found, l₂, hfound⟩ := getEmptyBlock_returns (by simp) h₁ hm₁ hfuel
    simp only [hretry, if_true, and_self, hfound, Option.bind_some]
    exact takePage_returns (getEmptyBlock_spec h₁ hm₁ hfound)
  · simp only [hretry, if_false]
    exact takePage_returns hgot

theorem hostNewPage_returns (h : ListInv g l L fill limbo) (hfuel : allocFuel g ≤ fuel) :
    ∃ taken l', hostNewPage g fuel l = some (taken, l') := by
  rw [hostNewPage]
  split
  · exact getNewPage_returns (by simp) h (show ModeOk g .noparal _ _ from rfl) hfuel
  · exact getNewPage_returns (by simp) h (show ModeOk g .overall _ _ from trivial) hfuel

/-! ### Requests -/

section Requests

variable {s : Ftl} {σ : Store}

private theorem gcNewPage_returns (hplanes : g.planesPerFlash = 1) (h : ListInv g l L fill limbo)
    {v : VictimBlock} (hv : v.block ∈ g.blocks) (hfuel : allocFuel g ≤ fuel) :
    ∃ taken l', gcNewPage g fuel v l = some (taken, l') := by
  rw [gcNewPage]
  split
  · exact getNewPage_returns (by simp) h (show ModeOk g .overall _ _ from trivial) hfuel
  · exact getNewPage_returns (fun _ => hplanes) h
      (show ModeOk g .inchip _ _ from g.listOf_lt hv) hfuel

private theorem copyValidPages_returns (hplanes : g.planesPerFlash = 1) (hfuel : allocFuel g ≤ fuel)
    {v : VictimBlock} {k i c : ℕ} (h : FtlInv g s σ) (hv : v.block ∈ σ.limbo)
    (hk : i + k = g.pageNb) (hp : Pending g s.tables σ.map v.block i) :
    ∃ r s' events, copyValidPages g fuel v (List.range' i k) c s = some (r, s', events) := by
  induction k generalizing i c s σ with
  | zero => exact ⟨some c, s, [], rfl⟩
  | succ k ih =>
    obtain ⟨L, hL⟩ := h.lists
    have hvb : v.block ∈ g.blocks := hL.placed.limbo_sub hv
    rw [List.range'_succ, copyValidPages]
    by_cases hvalid : s.tables.cellAt g (v.block, i) = .valid
    swap
    · obtain ⟨r, s', events, hrun⟩ := ih (c := c) h hv (by omega) (hp.skip h.tables hvalid)
      exact ⟨r, s', events, (if_neg hvalid).trans hrun⟩
    rw [if_pos (show (s.tables.getBlockStateEntry g v.phyFlashNb v.phyBlockNb).validArray i = .valid
      from hvalid)]
    obtain ⟨taken, lists, hget⟩ := gcNewPage_returns hplanes hL hvb hfuel
    simp only [hget, Option.bind_eq_bind, Option.bind_some]
    cases taken with
    | none => exact ⟨_, _, _, rfl⟩
    | some e =>
      have hgot := gcNewPage_spec hL hvb hget
      have hmap := hp.next i le_rfl (by omega) hvalid
      obtain ⟨r, s', events, hrun⟩ := ih (c := c + 1) (relocate_step h hgot hmap hv).1 hv (by omega)
        (relocate_pending h hgot hmap hv hp).1
      simp only [oldPpn_eq, hrun, Option.bind_some]
      exact ⟨_, _, _, rfl⟩

private theorem garbageCollection_returns (hplanes : g.planesPerFlash = 1)
    (hfuel : allocFuel g ≤ fuel)
    (h : FtlInv g s σ) : ∃ r s' events, garbageCollection g fuel s = some (r, s', events) := by
  obtain ⟨L, hL⟩ := h.lists
  obtain ⟨sel, s₁, ev₁, hsel, hspec⟩ := selectVictimBlock_spec h hL
  simp only [garbageCollection, hsel, Option.bind_eq_bind, Option.bind_some]
  cases sel with
  | none => exact ⟨_, _, _, rfl⟩
  | some v =>
    obtain ⟨-, ⟨lists, rfl⟩, hL₁, ⟨i, hi, a, ha⟩, -⟩ := hspec
    obtain ⟨hvb, hvl⟩ := mem_sdiff.mp (hL.placed.victim_mem hi ha).1
    obtain ⟨hinv₁, -⟩ := collect_step h hL₁ hvl
    have hv₁ : v.block ∈ insert v.block σ.limbo := mem_insert_self ..
    have hpend : Pending g s.tables σ.map v.block 0 := .start h hvb hvl
    obtain ⟨r, s₂, ev₂, hcopy⟩ := copyValidPages_returns (c := 0) hplanes hfuel hinv₁ hv₁
      (Nat.zero_add _) hpend
    simp only [List.range_eq_range', hcopy, Option.bind_some]
    cases r with
    | none => exact ⟨_, _, _, rfl⟩
    | some n =>
      dsimp only
      split
      · exact ⟨_, _, _, rfl⟩
      · obtain ⟨labels, σ₂, hsim, -, hlimbo, -⟩ :=
          copyValidPages_sim hinv₁ hv₁ (Nat.zero_add _) hpend hcopy
        obtain ⟨L₂, hL₂⟩ := hsim.inv.lists
        have hv₂ : v.block ∈ σ₂.limbo := hlimbo.symm ▸ hv₁
        obtain ⟨lists', -, hinsert, -⟩ := insertEmptyBlock_spec hL₂ hv₂
        have hinsert : insertEmptyBlock g v.phyFlashNb v.phyBlockNb s₂.lists = some lists' := hinsert
        simp only [hinsert, Option.bind_some]
        exact ⟨_, _, _, rfl⟩

private theorem collectLoop_returns (hplanes : g.planesPerFlash = 1) (hfuel : allocFuel g ≤ fuel)
    {n : ℕ} (h : FtlInv g s σ) : ∃ s' events, collectLoop g fuel n s = some ((), s', events) := by
  induction n generalizing s σ with
  | zero => exact ⟨s, [], rfl⟩
  | succ n ih =>
    obtain ⟨L, hL⟩ := h.lists
    obtain ⟨r, s₁, ev₁, hgc⟩ := garbageCollection_returns hplanes hfuel h
    obtain ⟨labels, σ₁, hsim, -⟩ := garbageCollection_sim h hL hgc
    simp only [collectLoop, hgc, Option.bind_eq_bind, Option.bind_some]
    cases r with
    | fail => exact ⟨_, _, rfl⟩
    | success =>
      obtain ⟨s₂, ev₂, hloop⟩ := ih hsim.inv
      simp only [hloop, Option.bind_some]
      exact ⟨_, _, rfl⟩

private theorem gcCheck_returns (hplanes : g.planesPerFlash = 1) (hfuel : allocFuel g ≤ fuel)
    (h : FtlInv g s σ) : ∃ s' events, gcCheck g fuel s = some ((), s', events) := by
  rw [gcCheck]
  split
  · exact collectLoop_returns hplanes hfuel h
  · exact ⟨_, _, rfl⟩

private theorem writePages_returns (hfuel : allocFuel g ≤ fuel) (n rounds : ℕ) {c : Cursor} (k : ℕ)
    (ret : Ret) (h : FtlInv g s σ) (hc : 0 < c.remain → c.Ok g) :
    ∃ r s' events, writePages g fuel n rounds c k ret s = some (r, s', events) := by
  induction rounds generalizing c k ret s σ with
  | zero => exact ⟨_, _, _, rfl⟩
  | succ rounds ih =>
    rw [writePages]
    by_cases hpos : 0 < c.remain
    swap
    · exact ⟨_, _, _, if_neg hpos⟩
    obtain ⟨L, hL⟩ := h.lists
    obtain ⟨taken, lists, hget⟩ := hostNewPage_returns hL hfuel
    simp only [hpos, if_true, hget, Option.bind_eq_bind, Option.bind_some]
    cases taken with
    | none => exact ⟨_, _, _, rfl⟩
    | some e =>
      obtain ⟨hinv₁, -⟩ := program_step h (hostNewPage_spec hL hget) (hc hpos) hpos k n
      obtain ⟨r, s', events, hrun⟩ := ih (k + 1) .success hinv₁ fun hnext => (hc hpos).next hnext
      simp only [hrun, Option.bind_some]
      exact ⟨_, _, _, rfl⟩

/-- **Every write request returns**, on a device with one plane to a chip. -/
theorem ftlWrite_returns (hplanes : g.planesPerFlash = 1) (hfuel : allocFuel g ≤ fuel)
    {sectorNb : ℤ} {length : ℕ} (h : FtlInv g s σ) (hreq : InRange g sectorNb length) :
    ∃ r s' events, ftlWrite g fuel sectorNb length s = some (r, s', events) := by
  rw [ftlWrite, if_neg hreq.toU32_le]
  obtain ⟨r, s₁, ev₁, hrun⟩ := writePages_returns hfuel (ioPageNb g sectorNb length) length 0 .fail h
    fun _ => Cursor.Ok.start hreq
  simp only [hrun, Option.bind_eq_bind, Option.bind_some]
  cases r with
  | none => exact ⟨_, _, _, rfl⟩
  | some ret =>
    obtain ⟨labels, σ₁, hsim, -⟩ := writePages_sim h (fun _ => .start hreq) hrun
    obtain ⟨s₂, ev₂, hcheck⟩ := gcCheck_returns hplanes hfuel hsim.inv
    simp only [hcheck, Option.bind_some]
    exact ⟨_, _, _, rfl⟩

/-- **Every run can go on**: requests are served to the end, whatever they are. -/
theorem serveAll_returns (hplanes : g.planesPerFlash = 1) (hfuel : allocFuel g ≤ fuel)
    {reqs : List Request} (h : FtlInv g s σ) (hreqs : ∀ req ∈ reqs, req.InRange g) :
    ∃ hist s', serveAll g fuel reqs s = some (hist, s') := by
  induction reqs generalizing s σ with
  | nil => exact ⟨[], s, rfl⟩
  | cons req reqs ih =>
    have hreq := hreqs req (by simp)
    obtain ⟨e, s₁, hserve⟩ : ∃ e s₁, serve g fuel req s = some (e, s₁) := by
      cases req with
      | write sectorNb length =>
        obtain ⟨r, s₁, ev₁, hrun⟩ := ftlWrite_returns hplanes hfuel h hreq
        exact ⟨_, _, by rw [serve, hrun, Option.map_some]⟩
      | read sectorNb length => exact ⟨_, _, rfl⟩
    obtain ⟨labels, σ₁, hsim, -⟩ := (serve_spec hreq hserve).sim h
    obtain ⟨hist, s', hrest⟩ := ih hsim.inv fun r hr => hreqs r (List.mem_cons_of_mem _ hr)
    simp only [serveAll, hserve, hrest, Option.bind_eq_bind, Option.bind_some]
    exact ⟨_, _, rfl⟩

end Requests

end Vssim
