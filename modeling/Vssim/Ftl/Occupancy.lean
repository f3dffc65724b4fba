import Vssim.Ftl.Stock
import Mathlib.Algebra.BigOperators.Group.Finset.Piecewise

/-!
# The programmed pages, for every geometry

A page is programmed while its `valid_array` cell is `'V'` or `'I'`. Along a run the number of
programmed pages is what its calls add up to: one for every page write, minus a block for every
erase (`run_programmed`). A page write is a partial one exactly when the host writes only a part
of a logical page that the run has written before (`run_merges`).

Both hold for every geometry, so they rest on `Stock` and not on `ListInv`.
-/

namespace Vssim

open FlashStore Finset Function

variable (g : Geometry)

/-- The pages that are programmed and not erased. -/
def programmed (t : PageTables) : Finset Page :=
  {q ∈ g.blocks ×ˢ range g.pageNb | t.cellAt g q = .valid ∨ t.cellAt g q = .invalid}

/-- What a call adds to their number. -/
def Call.programs : Call → ℤ
  | .ssdPageWrite .. | .ssdPagePartialWrite .. => 1
  | .ssdBlockErase .. => -g.pageNb
  | _ => 0

/-- What the calls of a log add to their number. -/
def programs (events : List Event) : ℤ := (events.map fun e => e.call.programs g).sum

/-- A write that reads the old copy of its page first. -/
def Call.IsPartial : Call → Prop
  | .ssdPagePartialWrite .. => True
  | _ => False

instance : DecidablePred Call.IsPartial
  | .ssdPagePartialWrite .. => .isTrue trivial
  | .allocIoRequest .. | .increaseIoRequestSeqNb | .getNewPage _ | .ssdPageWrite ..
  | .ssdPageRead .. | .ssdBlockErase .. | .garbageCollection | .error _ => .isFalse id

/-- Page `w'` of a request is not a part of the logical page that `w` is of. -/
def NoMerge (w w' : ℤ × ℕ × Bool) : Prop := w.1 = w'.1 → w'.2.2 = false

instance : DecidableRel NoMerge := fun _ _ => inferInstanceAs (Decidable (_ → _))

/-- The state represents the store, as far as it does for every geometry. -/
structure StockInv (s : Ftl) (σ : Store) : Prop where
  stock : Stock g s.lists σ.fill σ.limbo
  tables : TableInv g s.tables σ.map σ.fill σ.limbo
  cells : ∀ q, g.IsPage q → s.tables.cellAt g q ≠ .nul

variable {g} {s s' s₁ s₂ : Ftl} {σ σ' σ₁ σ₂ : Store} {fuel : ℕ} {events ev₁ ev₂ : List Event}

@[simp] theorem programs_nil : programs g [] = 0 := rfl

@[simp] theorem programs_cons (e : Event) (es : List Event) :
    programs g (e :: es) = e.call.programs g + programs g es := rfl

@[simp] theorem programs_append (xs ys : List Event) :
    programs g (xs ++ ys) = programs g xs + programs g ys := by
  simp [programs]

private theorem Call.Silent.programs {c : Call} (hc : c.Silent) :
    c.programs g = 0 ∧ ¬c.IsPartial := by
  cases c <;> first | exact ⟨rfl, id⟩ | exact hc.elim

/-! ### Counting -/

private theorem card_filter_lt {f n : ℕ} (h : f ≤ n) : #{i ∈ range n | i < f} = f := by
  have hrange : {i ∈ range n | i < f} = range f := by
    ext i
    simp only [mem_filter, mem_range]
    omega
  rw [hrange, card_range]

theorem card_programmed_le (t : PageTables) : #(programmed g t) ≤ g.pageMappingEntryNb := by
  refine (card_filter_le _ _).trans (Nat.le_of_eq ?_)
  rw [card_product, Geometry.blocks, card_product, card_range, card_range, card_range,
    Geometry.pageMappingEntryNb]
  ring

/-- A page is programmed or free. -/
private theorem StockInv.card_programmed (h : StockInv g s σ) :
    #(programmed g s.tables) + freePages g σ = g.pageMappingEntryNb := by
  have hused : ∀ q, g.IsPage q → (s.tables.cellAt g q = .valid ∨ s.tables.cellAt g q = .invalid ↔
      q.2 < σ.fill q.1) := fun q hq => by
    have hempty := h.tables.cell_empty q hq
    have hnul := h.cells q hq
    cases hcell : s.tables.cellAt g q <;> simp_all
  have hcard : #(programmed g s.tables) = ∑ β ∈ g.blocks, σ.fill β := by
    rw [programmed, card_filter, sum_product]
    refine sum_congr rfl fun β hβ => ?_
    rw [← card_filter]
    refine Eq.trans ?_ (card_filter_lt (h.stock.fill_le β hβ))
    exact congrArg card (filter_congr fun i hi => hused (β, i) ⟨hβ, mem_range.mp hi⟩)
  have hpage : ∀ β ∈ g.blocks, σ.fill β + (g.pageNb - σ.fill β) = g.pageNb := fun β hβ => by
    have := h.stock.fill_le β hβ
    omega
  rw [hcard, freePages, ← sum_add_distrib, sum_const_nat hpage, Geometry.blocks, card_product,
    card_range, card_range, Geometry.pageMappingEntryNb]
  ring

/-! ### Steps -/

variable (g) in
/-- The calls of a step programmed host pages `pages` and are accounted for. -/
structure Tallied (σ : Store) (s' : Ftl) (events : List Event) (pages : List (ℤ × ℕ × Bool))
    (σ' : Store) : Prop where
  inv : StockInv g s' σ'
  tally : (freePages g σ' : ℤ) + programs g events = freePages g σ
  unmapped : ∀ lpn, σ'.map lpn = none ↔ σ.map lpn = none ∧ ∀ w ∈ pages, w.1 ≠ lpn
  merges : (∀ e ∈ events, ¬e.call.IsPartial) ↔
    (∀ w ∈ pages, w.2.2 = true → σ.map w.1 = none) ∧ pages.Pairwise NoMerge

namespace Tallied

variable {pages pages₁ pages₂ : List (ℤ × ℕ × Bool)}

/-- Calls that program nothing. -/
private theorem silent (h : StockInv g s' σ)
    (hev : ∀ e ∈ events, e.call.programs g = 0 ∧ ¬e.call.IsPartial) : Tallied g σ s' events [] σ := by
  have hzero : programs g events = 0 :=
    List.sum_eq_zero (List.forall_mem_map.mpr fun e he => (hev e he).1)
  exact ⟨h, by rw [hzero, add_zero], by simp, by simpa using fun e he => (hev e he).2⟩

private theorem append (h₁ : Tallied g σ s₁ ev₁ pages₁ σ₁) (h₂ : Tallied g σ₁ s₂ ev₂ pages₂ σ₂) :
    Tallied g σ s₂ (ev₁ ++ ev₂) (pages₁ ++ pages₂) σ₂ := by
  refine ⟨h₂.inv, ?_, fun lpn => ?_, ?_⟩
  · have ht₁ := h₁.tally
    have ht₂ := h₂.tally
    rw [programs_append]
    omega
  · rw [h₂.unmapped, h₁.unmapped, List.forall_mem_append, and_assoc]
  · rw [List.forall_mem_append, h₁.merges, h₂.merges, List.forall_mem_append, List.pairwise_append]
    simp only [h₁.unmapped]
    -- what is unmapped after the first part was so before, and is no page of the first part
    constructor
    · rintro ⟨⟨hall₁, hpair₁⟩, hall₂, hpair₂⟩
      refine ⟨⟨hall₁, fun w hw hpart => (hall₂ w hw hpart).1⟩, hpair₁, hpair₂, ?_⟩
      intro v hv w hw heq
      exact eq_false_of_ne_true fun hpart => (hall₂ w hw hpart).2 v hv heq
    · rintro ⟨⟨hall₁, hall₂⟩, hpair₁, hpair₂, hcross⟩
      refine ⟨⟨hall₁, hpair₁⟩, fun w hw hpart => ⟨hall₂ w hw hpart, fun v hv heq => ?_⟩, hpair₂⟩
      exact absurd hpart (ne_true_of_eq_false (hcross v hv w hw heq))

end Tallied

section pages

variable {e : EmptyBlock} {lists : BlockLists} (h : StockInv g s σ)
  (hgot : GotStock g σ.fill σ.limbo lists (some e))

include hgot in
/-- The page handed out, and its number. -/
private theorem GotStock.page :
    g.IsPage (e.block, σ.fill e.block) ∧ e.ppn g = g.ppnOf (e.block, σ.fill e.block) := by
  obtain ⟨hlive, hcurr, hlt, -⟩ := hgot
  exact ⟨⟨(mem_sdiff.mp hlive).1, hlt⟩, by rw [Geometry.ppn_eq_ppnOf, hcurr]⟩

/-- No cell is left uninitialised by a new mapping. -/
private theorem updateNewPageMapping_cells {t : PageTables}
    (ht : ∀ q, g.IsPage q → t.cellAt g q ≠ .nul)
    (lpn : ℤ) {q : Page} (hq : g.IsPage q) (r : Page) (hr : g.IsPage r) :
    (updateNewPageMapping g lpn (g.ppnOf q) t).cellAt g r ≠ .nul := by
  rw [(updateNewPageMapping_spec t lpn hq rfl).2.2.1 r hr, update_apply]
  split
  · simp
  · exact ht r hr

include h

/-- Nor by the end of an old one. -/
private theorem StockInv.updateOldPageMapping_cells (lpn : ℤ) (r : Page) (hr : g.IsPage r) :
    (updateOldPageMapping g lpn s.tables).cellAt g r ≠ .nul := by
  cases hm : σ.map lpn with
  | none =>
    rw [updateOldPageMapping, if_pos (h.tables.unmapped lpn hm)]
    exact h.cells r hr
  | some q =>
    obtain ⟨hq, -, -, hmap, -⟩ := h.tables.mapped lpn q hm
    rw [(updateOldPageMapping_spec hq hmap rfl).2.2.1 r hr, update_apply]
    split
    · simp
    · exact h.cells r hr

private theorem StockInv.isPartial_programCall (c : Cursor) (newPpn : ℤ) (k n : ℕ) :
    (programCall g s.tables c newPpn k n).IsPartial ↔
      c.part g = true ∧ σ.map (c.lpn g) ≠ none := by
  have hmapped : s.tables.mappingTable (c.lpn g) ≠ -1 ↔ σ.map (c.lpn g) ≠ none :=
    (h.tables.map_eq_none _).not
  rw [Cursor.part, decide_eq_true_iff, ← hmapped]
  simp only [programCall]
  split
  · rename_i hpart
    exact iff_of_true trivial hpart
  · rename_i hpart
    exact iff_of_false id hpart

include hgot

/-- A page of a write request. -/
private theorem StockInv.program {c : Cursor} (hc : c.Ok g) (hpos : 0 < c.remain) (k n : ℕ) :
    Tallied g σ
      { s with
        lists
        tables := updateNewPageMapping g (c.lpn g) (e.ppn g)
          (updateOldPageMapping g (c.lpn g) s.tables) }
      [⟨.getNewPage (some e), s⟩, ⟨programCall g s.tables c (e.ppn g) k n, { s with lists }⟩]
      [(c.lpn g, k, c.part g)] (σ.place (c.lpn g) e.block) := by
  obtain ⟨hpage, hppn⟩ := hgot.page
  have hpart := h.isPartial_programCall c (e.ppn g) k n
  have hone : (programCall g s.tables c (e.ppn g) k n).programs g = 1 := by
    rw [programCall]
    split <;> rfl
  rw [hppn] at hpart hone ⊢
  refine ⟨⟨hgot.2.2.2, h.tables.write hc.lpn_nonneg (hc.lpn_lt hpos) hpage rfl,
    updateNewPageMapping_cells (h.updateOldPageMapping_cells _) _ hpage⟩, ?_, fun lpn => ?_, ?_⟩
  · have hfree : freePages g σ = freePages g (σ.place (c.lpn g) e.block) + 1 :=
      freePages_place (c.lpn g) hpage.1 hpage.2
    rw [programs_cons, programs_cons, programs_nil, hone, show Call.programs g (.getNewPage _) = 0
      from rfl]
    omega
  · by_cases hlpn : lpn = c.lpn g
    · simp [Store.place, hlpn]
    · simp [Store.place, hlpn, Ne.symm hlpn]
  · simp only [List.forall_mem_cons, List.not_mem_nil, false_imp_iff, implies_true, and_true, hpart,
      List.pairwise_singleton]
    rw [not_and, not_not]
    exact and_iff_right id

/-- A page of a victim. -/
private theorem StockInv.relocate {lpn : ℤ} {q : Page} (hmap : σ.map lpn = some q)
    (hq : q.1 ∈ σ.limbo) (f b i : ℕ) :
    Tallied g σ { s with lists, tables := updateNewPageMapping g lpn (e.ppn g) s.tables }
      [⟨.getNewPage (some e), s⟩, ⟨.ssdPageRead f b i i .gcRead (-1), { s with lists }⟩,
        ⟨.ssdPageWrite (calcFlash g (e.ppn g)) (calcBlock g (e.ppn g)) (calcPage g (e.ppn g)) i
          .gcWrite (-1), { s with lists }⟩]
      [] (σ.place lpn e.block) := by
  obtain ⟨hpage, hppn⟩ := hgot.page
  rw [hppn]
  refine ⟨⟨hgot.2.2.2, h.tables.copy hmap hq hpage rfl, updateNewPageMapping_cells h.cells _ hpage⟩,
    ?_, fun k => ?_, by simp [Call.IsPartial]⟩
  · have hfree : freePages g σ = freePages g (σ.place lpn e.block) + 1 :=
      freePages_place lpn hpage.1 hpage.2
    simp only [programs_cons, programs_nil, Call.programs]
    omega
  · by_cases hk : k = lpn
    · simp [Store.place, hk, hmap]
    · simp [Store.place, hk]

end pages

/-! ### Collection -/

private theorem StockInv.pending (h : StockInv g s σ) {β : ℕ × ℕ} (hβ : β ∈ g.blocks \ σ.limbo) :
    Pending g s.tables σ.map β 0 := by
  obtain ⟨hmem, hlimbo⟩ := mem_sdiff.mp hβ
  exact ⟨fun _ _ hj hv => h.tables.valid _ ⟨hmem, hj⟩ hlimbo hv, fun _ _ _ => Nat.zero_le _⟩

/-- The copy loop; when it gets to the end, nothing is mapped into the victim. -/
private theorem copyValidPages_tallied {v : VictimBlock} {k i c : ℕ} {r : Option ℕ}
    (h : StockInv g s σ)
    (hv : v.block ∈ σ.limbo) (hk : i + k = g.pageNb) (hp : Pending g s.tables σ.map v.block i)
    (hrun : copyValidPages g fuel v (List.range' i k) c s = some (r, s', events)) :
    ∃ σ', Tallied g σ s' events [] σ' ∧ σ'.limbo = σ.limbo ∧
      (r ≠ none → ∀ lpn q, σ'.map lpn = some q → q.1 ≠ v.block) := by
  induction k generalizing i c s σ events with
  | zero =>
    cases hrun
    refine ⟨σ, .silent h (by simp), rfl, fun _ lpn q hq hqv => ?_⟩
    have hle := hp.done lpn q.2 (by rw [hq, ← hqv])
    have hlt := (h.tables.mapped lpn q hq).1.2
    omega
  | succ k ih =>
    have hvb : v.block ∈ g.blocks := h.stock.limbo_sub hv
    rw [List.range'_succ] at hrun
    rcases copyValidPages_cons hrun with ⟨hvalid, hrun⟩ | ⟨-, rfl, lists, hget, rfl, rfl⟩ |
      ⟨hvalid, e, lists, ev₁, hget, hloop, rfl⟩
    · exact ih h hv (by omega) (hp.skip h.tables hvalid) hrun
    · have hs : StockInv g { s with lists } σ := ⟨gcNewPage_stock h.stock hget, h.tables, h.cells⟩
      exact ⟨σ, .silent hs (by simp [Call.programs, Call.IsPartial]), rfl, fun hne => absurd rfl hne⟩
    · have hgot : GotStock g σ.fill σ.limbo lists (some e) := gcNewPage_stock h.stock hget
      have hmap := hp.next i le_rfl (by omega) hvalid
      generalize s.tables.inverseMappingTable (g.ppnOf (v.block, i)) = lpn at hmap hloop
      have hstep := h.relocate hgot hmap hv v.block.1 v.block.2 i
      obtain ⟨hpage, hppn⟩ := hgot.page
      have hne : e.block ≠ v.block := fun heq => (mem_sdiff.mp hgot.1).2 (heq ▸ hv)
      have hpend := hp.copy h.tables hvb hmap hpage hne rfl
      rw [← hppn] at hpend
      obtain ⟨σ', htally, hlimbo, hdone⟩ := ih hstep.inv hv (by omega) hpend hloop
      exact ⟨σ', hstep.append htally, hlimbo, hdone⟩

private theorem garbageCollection_tallied {r : Ret} (h : StockInv g s σ)
    (hrun : garbageCollection g fuel s = some (r, s', events)) :
    ∃ σ', Tallied g σ s' events [] σ' := by
  have hentered : Tallied g σ s [⟨.garbageCollection, s⟩] [] σ :=
    .silent h (by simp [Call.programs, Call.IsPartial])
  rcases garbageCollection_cases hrun with ⟨ev₁, hselect, -, rfl⟩ |
    ⟨v, s₁, ev₁, copied, s₂, ev₂, hselect, hcopy, hend⟩
  · rcases selectVictimBlock_cases hselect with ⟨-, ⟨c, rfl⟩, hev⟩ | ⟨_, _, _, hv, -⟩
    · refine ⟨σ, hentered.append (.silent ⟨h.stock, h.tables, h.cells⟩ fun e he => ?_)⟩
      rw [hev e he]
      exact ⟨rfl, id⟩
    · cases hv
  rcases selectVictimBlock_cases hselect with ⟨hv, -⟩ | ⟨a, c, lists, hv, hc, heject, rfl, rfl⟩
  · cases hv
  cases hv
  obtain ⟨hstock, hvb⟩ := ejectVictimBlock_stock h.stock hc heject
  generalize c.val = v at *
  -- the victim is in limbo while its pages are copied
  have h₁ : StockInv g { s with lists } { σ with limbo := insert v.block σ.limbo } :=
    ⟨hstock, h.tables.collect _, h.cells⟩
  obtain ⟨σ₂, hcopied, hlimbo, hdone⟩ :=
    copyValidPages_tallied h₁ (mem_insert_self ..) (Nat.zero_add _) (h.pending hvb) hcopy
  have htally : Tallied g σ s₂ (⟨.garbageCollection, s⟩ :: ev₂) [] σ₂ :=
    hentered.append ⟨hcopied.inv, hcopied.tally, hcopied.unmapped, hcopied.merges⟩
  rcases hend with ⟨-, -, rfl, rfl⟩ | ⟨n, rfl, ⟨-, -, rfl, rfl⟩ | ⟨lists', -, hinsert, -, rfl, rfl⟩⟩
  · exact ⟨σ₂, htally⟩
  · exact ⟨σ₂, htally.append (.silent hcopied.inv (by simp [Call.programs, Call.IsPartial]))⟩
  · have hv₂ : v.block ∈ σ₂.limbo := hlimbo ▸ mem_insert_self ..
    have hblock := (mem_sdiff.mp hvb).1
    have hfull := hcopied.inv.stock.limbo_full _ hv₂
    refine ⟨{ σ₂ with fill := update σ₂.fill v.block 0, limbo := σ₂.limbo.erase v.block },
      htally.append ⟨⟨insertEmptyBlock_stock hcopied.inv.stock hv₂ hinsert,
        hcopied.inv.tables.erase hblock (hdone (by simp)), fun q hq => ?_⟩, ?_, by simp,
        by simp [Call.IsPartial]⟩⟩
    · rw [(updateBlockState_empty_spec hblock s₂.tables rfl).2.2.1 q hq]
      split
      · simp
      · exact hcopied.inv.cells q hq
    · simp only [programs_cons, programs_nil, Call.programs]
      rw [freePages_erase hblock hfull rfl]
      omega

private theorem collectLoop_tallied {n : ℕ} {u : Unit} (h : StockInv g s σ)
    (hrun : collectLoop g fuel n s = some (u, s', events)) : ∃ σ', Tallied g σ s' events [] σ' := by
  induction n generalizing s σ events with
  | zero =>
    cases hrun
    exact ⟨σ, .silent h (by simp)⟩
  | succ n ih =>
    simp only [collectLoop, Option.bind_eq_bind, Option.bind_eq_some_iff] at hrun
    obtain ⟨⟨r, s₁, ev₁⟩, hgc, hrun⟩ := hrun
    obtain ⟨σ₁, h₁⟩ := garbageCollection_tallied h hgc
    cases r with
    | fail =>
      cases hrun
      exact ⟨σ₁, h₁⟩
    | success =>
      simp only [Option.bind_eq_some_iff] at hrun
      obtain ⟨⟨u', s₂, ev₂⟩, hloop, heq⟩ := hrun
      cases heq
      obtain ⟨σ₂, h₂⟩ := ih h₁.inv hloop
      exact ⟨σ₂, h₁.append h₂⟩

private theorem gcCheck_tallied {u : Unit} (h : StockInv g s σ)
    (hrun : gcCheck g fuel s = some (u, s', events)) : ∃ σ', Tallied g σ s' events [] σ' := by
  rw [gcCheck] at hrun
  split at hrun
  · exact collectLoop_tallied h hrun
  · cases hrun
    exact ⟨σ, .silent h (by simp)⟩

/-! ### Requests -/

/-- The page loop of a write programs the pages of the request, all of them unless it fails. -/
private theorem writePages_tallied {n rounds k : ℕ} {c : Cursor} {ret : Ret} {r : Option Ret}
    (h : StockInv g s σ) (hc : 0 < c.remain → c.Ok g)
    (hrun : writePages g fuel n rounds c k ret s = some (r, s', events)) :
    ∃ pages σ', Tallied g σ s' events pages σ' ∧ (r ≠ none → pages = pieces g rounds c k) := by
  induction rounds generalizing c k ret s σ events with
  | zero =>
    cases hrun
    exact ⟨[], σ, .silent h (by simp), fun _ => rfl⟩
  | succ rounds ih =>
    rw [pieces]
    by_cases hpos : 0 < c.remain
    · rw [if_pos hpos]
      rcases writePages_succ hpos hrun with ⟨rfl, lists, hget, rfl, rfl⟩ |
        ⟨e, lists, ev₁, hget, hloop, rfl⟩
      · have hs : StockInv g { s with lists } σ :=
          ⟨hostNewPage_stock h.stock hget, h.tables, h.cells⟩
        exact ⟨[], σ, .silent hs (by simp [Call.programs, Call.IsPartial]), fun hne => absurd rfl hne⟩
      · have hstep := h.program (hostNewPage_stock h.stock hget) (hc hpos) hpos k n
        obtain ⟨pages, σ', htally, hpages⟩ :=
          ih hstep.inv (fun hnext => (hc hpos).next hnext) hloop
        exact ⟨_ :: pages, σ', hstep.append htally, fun hne => by rw [hpages hne]⟩
    · rw [writePages, if_neg hpos] at hrun
      cases hrun
      exact ⟨[], σ, .silent h (by simp), fun _ => by rw [if_neg hpos]⟩

/-- One served request. -/
private theorem Serve.tallied {e : Served} (h : StockInv g s σ) (hserve : Serve g s e s') :
    ∃ pages σ', Tallied g σ s' e.events pages σ' ∧
      ((∀ sectorNb length, e.request = .write sectorNb length → e.ret = .success) →
        pages = e.request.pages g) := by
  cases hserve with
  | @write _ sectorNb length fuel r events hreq hrun =>
    obtain ⟨r₁, s₁, ev₁, hloop, hend⟩ := ftlWrite_cases hreq hrun
    obtain ⟨pages, σ₁, htally, hpages⟩ := writePages_tallied h (fun _ => .start hreq) hloop
    have halloc : Tallied g σ s [⟨.allocIoRequest sectorNb length .write, s⟩] [] σ :=
      .silent h (by simp [Call.programs, Call.IsPartial])
    rcases hend with ⟨rfl, rfl, rfl, rfl⟩ | ⟨ev₂, rfl, hcheck, rfl⟩
    · exact ⟨pages, σ₁, halloc.append htally, fun hok => absurd (hok sectorNb length rfl) (by simp)⟩
    · obtain ⟨σ₂, hgc⟩ := gcCheck_tallied htally.inv hcheck
      have hincr : Tallied g σ₁ s₁ [⟨.increaseIoRequestSeqNb, s₁⟩] [] σ₁ :=
        .silent htally.inv (by simp [Call.programs, Call.IsPartial])
      refine ⟨pages, σ₂, ?_, fun _ => hpages (by simp)⟩
      simpa using halloc.append (htally.append (hincr.append hgc))
  | @read sectorNb length r events hreq hrun =>
    refine ⟨[], σ, .silent h fun e he => ?_, fun _ => rfl⟩
    have hev : events = (ftlRead g sectorNb length s).2 := by rw [hrun]
    obtain ⟨hsilent, -⟩ := ftlRead_silent e (hev ▸ he)
    exact hsilent.programs

/-- Served requests, one after the other. -/
private theorem serves_tallied {hist : List Served} (h : StockInv g s σ)
    (htrace : Trace (Serve g) s hist s') :
    ∃ pages σ', Tallied g σ s' (eventLog hist) pages σ' ∧
      ((∀ e ∈ hist, ∀ sectorNb length, e.request = .write sectorNb length → e.ret = .success) →
        pages = hist.flatMap fun e => e.request.pages g) := by
  induction htrace generalizing σ with
  | nil s => exact ⟨[], σ, .silent h (by simp [eventLog]), fun _ => rfl⟩
  | cons hserve _ ih =>
    obtain ⟨pages₁, σ₁, h₁, hpages₁⟩ := hserve.tallied h
    obtain ⟨pages₂, σ₂, h₂, hpages₂⟩ := ih h₁.inv
    refine ⟨pages₁ ++ pages₂, σ₂, h₁.append h₂, fun hok => ?_⟩
    rw [hpages₁ (hok _ (by simp)), hpages₂ fun e he => hok e (List.mem_cons_of_mem _ he)]
    rfl

private theorem ftlInit_stockInv : StockInv g (ftlInit g) emptyStore :=
  ⟨ftlInit_stock, ftlInit_tableInv, fun q hq => by rw [ftlInit_tables.2.1 q hq]; simp⟩

/-! ### Runs -/

variable {hist : List Served}

/-- **The programmed pages of a run** are those its calls add up to. -/
theorem run_programmed (hrun : Run g hist s) :
    (#(programmed g s.tables) : ℤ) = programs g (eventLog hist) := by
  obtain ⟨pages, σ, htally, -⟩ := serves_tallied ftlInit_stockInv hrun
  have hstart := (ftlInit_stockInv (g := g)).card_programmed
  have hnone : #(programmed g (ftlInit g).tables) = 0 := by
    rw [card_eq_zero, programmed, filter_eq_empty_iff]
    intro q hq
    obtain ⟨hβ, hi⟩ := mem_product.mp hq
    rw [ftlInit_tables.2.1 q ⟨hβ, mem_range.mp hi⟩]
    simp
  have hend := htally.inv.card_programmed
  have hsum := htally.tally
  omega

/-- **When a run merges**: its partial writes are those of logical pages written before. -/
theorem run_merges (hrun : Run g hist s)
    (hok : ∀ e ∈ hist, ∀ sectorNb length, e.request = .write sectorNb length → e.ret = .success) :
    (∀ e ∈ eventLog hist, ¬e.call.IsPartial) ↔
      (hist.flatMap fun e => e.request.pages g).Pairwise NoMerge := by
  obtain ⟨pages, σ, htally, hpages⟩ := serves_tallied ftlInit_stockInv hrun
  rw [htally.merges, hpages hok]
  exact and_iff_right fun _ _ _ => rfl

end Vssim
