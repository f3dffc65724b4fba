import Vssim.Ftl.Refine
import Vssim.Ftl.Victim

/-!
# Garbage collection refines the page store

`SELECT_VICTIM_BLOCK` finds a victim with the fewest valid pages or reports that nothing can be
reclaimed (`selectVictimBlock_spec`); the copy loop relocates every page mapped into the
victim, or gives up when no page is free (`copyValidPages_sim`); a whole collection is a
trace of the abstract store (`garbageCollection_sim`).
-/

namespace Vssim

open FlashStore Finset LinkedHeap

variable {g : Geometry} {s s' : Ftl} {σ : Store} {L : ListView}

/-! ### Selecting a victim -/

variable (g) in
/-- What `SELECT_VICTIM_BLOCK` finds: nothing, and then every victim is all valid, or a victim
that is not, with the fewest valid pages; it is then off its list. -/
def Selected (s : Ftl) (L : ListView) (σ : Store) (s' : Ftl) (events : List Event) :
    Option VictimBlock → Prop
  | none => (∃ c, s' = { s with failCnt := c }) ∧
      (∀ e ∈ events, e = ⟨.error .selectVictimBlockNoVictim, s⟩) ∧
      ∀ i < g.emptyTableEntryNb, ∀ x ∈ L.victim i, validPages g s.tables x.2 = g.pageNb
  | some v => events = [] ∧ (∃ lists, s' = { s with lists }) ∧
      (∃ L', ListInv g s'.lists L' σ.fill (insert v.block σ.limbo)) ∧
      (∃ i < g.emptyTableEntryNb, ∃ a, (a, v) ∈ L.victim i) ∧
      validPages g s.tables v < g.pageNb ∧
      ∀ i < g.emptyTableEntryNb, ∀ x ∈ L.victim i, validPages g s.tables v ≤ validPages g s.tables x.2

theorem countValid_le (arr : ℕ → PageState) (n : ℕ) : countValid arr n ≤ n := by
  induction n with
  | zero => exact le_rfl
  | succ n ih =>
    rw [countValid]
    split <;> omega

private theorem FtlInv.victimLists (h : FtlInv g s σ) (hL : ListInv g s.lists L σ.fill σ.limbo) :
    VictimLists g s L.victim where
  rep := hL.rep.victim
  total := hL.rep.totalVictim
  own _ hi _ hx := (hL.placed.victim_mem hi hx).2
  valid_le i hi x hx := by
    have hβ := (mem_sdiff.mp (hL.placed.victim_mem hi hx).1).1
    exact (h.tables.counts x.2.block hβ).trans_le (countValid_le _ _)

theorem selectVictimBlock_spec (h : FtlInv g s σ) (hL : ListInv g s.lists L σ.fill σ.limbo) :
    ∃ r s' events, selectVictimBlock g s = some (r, s', events) ∧ Selected g s L σ s' events r := by
  have hV := h.victimLists hL
  by_cases hall : ∀ x ∈ scanOrder g L.victim, validPages g s.tables x.2 = g.pageNb
  · obtain ⟨c, events, hrun, hev⟩ := selectVictimBlock_fail hV hall
    exact ⟨none, _, events, hrun, ⟨c, rfl⟩, hev,
      fun i hi x hx => hall x (mem_scanOrder.mpr ⟨i, hi, hx⟩)⟩
  obtain ⟨⟨a, v⟩, hbest, hlt⟩ := hV.exists_best hall
  obtain ⟨i, hi, hxi⟩ := mem_scanOrder.mp (List.argmin_mem hbest)
  obtain ⟨lists, L', heject, hL', -⟩ := ejectVictimBlock_spec hL hi hxi
  refine ⟨some v, { s with lists }, [], selectVictimBlock_take hV hbest hlt heject,
    rfl, ⟨lists, rfl⟩, ⟨L', hL'⟩, ⟨i, hi, a, hxi⟩, hlt, fun j hj x hx => ?_⟩
  exact List.le_of_mem_argmin (f := fun x : ℕ × VictimBlock => validPages g s.tables x.2)
    (mem_scanOrder.mpr ⟨j, hj, hx⟩) hbest

/-! ### Copying the valid pages -/

variable (g) in
/-- Pages `i` and up of block `β` are still to be copied: those marked `'V'` are mapped to by the
lpn of their inverse entry, and nothing is mapped to an earlier page. -/
structure Pending (t : PageTables) (map : ℤ → Option Page) (β : ℕ × ℕ) (i : ℕ) : Prop where
  next : ∀ j, i ≤ j → j < g.pageNb → t.cellAt g (β, j) = .valid →
    map (t.inverseMappingTable (g.ppnOf (β, j))) = some (β, j)
  done : ∀ lpn j, map lpn = some (β, j) → i ≤ j

/-- Outside limbo, all of a block is still to be copied. -/
theorem Pending.start (h : FtlInv g s σ) {β : ℕ × ℕ} (hβ : β ∈ g.blocks) (hlimbo : β ∉ σ.limbo) :
    Pending g s.tables σ.map β 0 :=
  ⟨fun _ _ hj hv => h.tables.valid _ ⟨hβ, hj⟩ hlimbo hv, fun _ _ _ => Nat.zero_le _⟩

/-- A page that is not marked `'V'` needs no copy. -/
theorem Pending.skip {β : ℕ × ℕ} {i : ℕ} (h : TableInv g s.tables σ.map σ.fill σ.limbo)
    (hp : Pending g s.tables σ.map β i) (hv : s.tables.cellAt g (β, i) ≠ .valid) :
    Pending g s.tables σ.map β (i + 1) where
  next j hj := hp.next j (by omega)
  done lpn j hm := by
    have hle := hp.done lpn j hm
    have hne : j ≠ i := by
      rintro rfl
      exact hv (h.mapped lpn _ hm).2.2.2.2.1
    omega

/-- Copying page `i` to page `q` of another block. -/
theorem Pending.copy {β : ℕ × ℕ} {i : ℕ} {t t' : PageTables} {map : ℤ → Option Page}
    {fill : ℕ × ℕ → ℕ} {limbo : Finset (ℕ × ℕ)} (h : TableInv g t map fill limbo)
    (hβ : β ∈ g.blocks) (hp : Pending g t map β i) {lpn : ℤ} (hlpn : map lpn = some (β, i))
    {q : Page} (hq : g.IsPage q) (hqβ : q.1 ≠ β)
    (ht' : t' = updateNewPageMapping g lpn (g.ppnOf q) t) :
    Pending g t' (Function.update map lpn (some q)) β (i + 1) := by
  obtain ⟨-, hinv, hcell, -⟩ := updateNewPageMapping_spec t lpn hq ht'
  refine ⟨fun j hj hlt hv => ?_, fun k j hm => ?_⟩
  · have hpage : g.IsPage (β, j) := ⟨hβ, hlt⟩
    have hjq : (β, j) ≠ q := fun heq => hqβ (heq ▸ rfl)
    rw [hcell _ hpage, Function.update_of_ne hjq] at hv
    rw [hinv, Function.update_of_ne ((Geometry.ppnOf_inj hpage hq).not.mpr hjq)]
    have hmap := hp.next j (by omega) hlt hv
    rw [Function.update_of_ne, hmap]
    intro heq
    rw [heq, hlpn, Option.some.injEq, Prod.mk.injEq] at hmap
    omega
  · by_cases hk : k = lpn
    · rw [hk, Function.update_self, Option.some.injEq] at hm
      exact absurd (congrArg Prod.fst hm) hqβ
    · rw [Function.update_of_ne hk] at hm
      have hle := hp.done k j hm
      have hne : j ≠ i := by
        rintro rfl
        exact hk (h.map_inj hm hlpn)
      omega

/-- Did a collection give up in its copy loop? -/
def GcAborted (events : List Event) : Prop :=
  ∃ e ∈ events, e.call = .error .garbageCollectionGetNewPageFail

@[simp] theorem gcAborted_nil : ¬ GcAborted [] := by simp [GcAborted]

@[simp] theorem gcAborted_cons (e : Event) (es : List Event) : GcAborted (e :: es) ↔
    e.call = .error .garbageCollectionGetNewPageFail ∨ GcAborted es := by simp [GcAborted]

@[simp] theorem gcAborted_append (xs ys : List Event) :
    GcAborted (xs ++ ys) ↔ GcAborted xs ∨ GcAborted ys := by
  simp [GcAborted, or_and_right, exists_or]

/-- The number the code computes for a page of the victim. -/
theorem oldPpn_eq (v : VictimBlock) (i : ℕ) :
    ((v.phyFlashNb * g.pagesPerFlash + v.phyBlockNb * g.pageNb + i : ℕ) : ℤ) =
      g.ppnOf (v.block, i) := by
  simp only [Geometry.ppnOf, VictimBlock.block, Geometry.pagesPerFlash]
  congr 1
  ring

variable (g) in
/-- What the copy loop leaves when it has copied `n` pages, or gave up with `n` to copy. -/
def Copied (σ : Store) (β : ℕ × ℕ) (n : ℕ) (σ' : Store) (events : List Event) (c : ℕ) :
    Option ℕ → Prop
  | some c' => c' = c + n ∧ (∀ lpn q, σ'.map lpn = some q → q.1 ≠ β) ∧
      freePages g σ = freePages g σ' + n ∧ ¬ GcAborted events
  | none => (∀ γ ∈ g.blocks, σ'.fill γ = g.pageNb) ∧ freePages g σ < n ∧ GcAborted events

/-- One round of the copy loop. -/
theorem copyValidPages_cons {fuel i c : ℕ} {v : VictimBlock} {is : List ℕ} {r : Option ℕ}
    {events : List Event} (hrun : copyValidPages g fuel v (i :: is) c s = some (r, s', events)) :
    (s.tables.cellAt g (v.block, i) ≠ .valid ∧
      copyValidPages g fuel v is c s = some (r, s', events)) ∨
    (s.tables.cellAt g (v.block, i) = .valid ∧ r = none ∧ ∃ lists,
      gcNewPage g fuel v s.lists = some (none, lists) ∧ s' = { s with lists } ∧
      events = [⟨.getNewPage none, s⟩,
        ⟨.error .garbageCollectionGetNewPageFail, { s with lists }⟩]) ∨
    (s.tables.cellAt g (v.block, i) = .valid ∧ ∃ e lists events',
      gcNewPage g fuel v s.lists = some (some e, lists) ∧
      copyValidPages g fuel v is (c + 1)
        { s with
          lists
          tables := updateNewPageMapping g
            (s.tables.inverseMappingTable (g.ppnOf (v.block, i))) (e.ppn g) s.tables } =
        some (r, s', events') ∧
      events = [⟨.getNewPage (some e), s⟩,
        ⟨.ssdPageRead v.block.1 v.block.2 i i .gcRead (-1), { s with lists }⟩,
        ⟨.ssdPageWrite (calcFlash g (e.ppn g)) (calcBlock g (e.ppn g)) (calcPage g (e.ppn g)) i
          .gcWrite (-1), { s with lists }⟩] ++ events') := by
  rw [copyValidPages] at hrun
  by_cases hvalid : s.tables.cellAt g (v.block, i) = .valid
  · rw [if_pos (show (s.tables.getBlockStateEntry g v.phyFlashNb v.phyBlockNb).validArray i = .valid
      from hvalid)] at hrun
    simp only [Option.bind_eq_bind, Option.bind_eq_some_iff] at hrun
    obtain ⟨⟨taken, lists⟩, hget, hrun⟩ := hrun
    cases taken with
    | none =>
      simp only [Option.some.injEq, Prod.mk.injEq] at hrun
      obtain ⟨rfl, rfl, rfl⟩ := hrun
      exact .inr (.inl ⟨hvalid, rfl, lists, hget, rfl, rfl⟩)
    | some e =>
      simp only [Option.bind_eq_some_iff, oldPpn_eq] at hrun
      obtain ⟨⟨r₁, s₁, ev₁⟩, hloop, hrun⟩ := hrun
      simp only [Option.some.injEq, Prod.mk.injEq] at hrun
      obtain ⟨rfl, rfl, rfl⟩ := hrun
      exact .inr (.inr ⟨hvalid, e, lists, ev₁, hget, hloop, rfl⟩)
  · rw [if_neg (show (s.tables.getBlockStateEntry g v.phyFlashNb v.phyBlockNb).validArray i ≠ .valid
      from hvalid)] at hrun
    exact .inl ⟨hvalid, hrun⟩

/-- A page handed out for a page of the victim: one relocation. -/
theorem relocate_step (h : FtlInv g s σ) {e : EmptyBlock} {lists : BlockLists}
    (hgot : GotPage g σ.fill σ.limbo lists (some e)) {lpn : ℤ} {q : Page}
    (hmap : σ.map lpn = some q) (hq : q.1 ∈ σ.limbo) :
    FtlInv g { s with lists, tables := updateNewPageMapping g lpn (e.ppn g) s.tables }
      (σ.place lpn e.block) ∧
    FtlStep g σ (.relocate lpn e.block, [⟨.getNewPage (some e), s⟩,
      ⟨.ssdPageRead q.1.1 q.1.2 q.2 q.2 .gcRead (-1), { s with lists }⟩,
      ⟨.ssdPageWrite (calcFlash g (e.ppn g)) (calcBlock g (e.ppn g)) (calcPage g (e.ppn g)) q.2
        .gcWrite (-1), { s with lists }⟩]) (σ.place lpn e.block) := by
  obtain ⟨hlive, hcurr, hlt, hL₁⟩ := hgot
  obtain ⟨heb, hel⟩ := mem_sdiff.mp hlive
  have hnew : g.IsPage (e.block, σ.fill e.block) := ⟨heb, hlt⟩
  have hppn : e.ppn g = g.ppnOf (e.block, σ.fill e.block) := by
    rw [Geometry.ppn_eq_ppnOf, hcurr]
  rw [hppn, Geometry.calcFlash_ppnOf hnew, Geometry.calcBlock_ppnOf hnew,
    Geometry.calcPage_ppnOf hnew]
  exact ⟨⟨hL₁, h.tables.copy hmap hq hnew rfl⟩, .relocate hmap hq hel hlt,
    e, s, { s with lists }, q, h, heb, rfl, hcurr, hmap, rfl⟩

/-- After the relocation of page `i`, the rest of the victim is as before. -/
theorem relocate_pending (h : FtlInv g s σ) {e : EmptyBlock} {lists : BlockLists}
    (hgot : GotPage g σ.fill σ.limbo lists (some e)) {lpn : ℤ} {β : ℕ × ℕ} {i : ℕ}
    (hmap : σ.map lpn = some (β, i)) (hβ : β ∈ σ.limbo) (hp : Pending g s.tables σ.map β i) :
    Pending g (updateNewPageMapping g lpn (e.ppn g) s.tables) (σ.place lpn e.block).map β (i + 1) ∧
    ∀ j < g.pageNb, (updateNewPageMapping g lpn (e.ppn g) s.tables).cellAt g (β, j) =
      s.tables.cellAt g (β, j) := by
  obtain ⟨hlive, hcurr, hlt, -⟩ := hgot
  obtain ⟨heb, hel⟩ := mem_sdiff.mp hlive
  have hβb : β ∈ g.blocks := (h.tables.mapped lpn _ hmap).1.1
  have heβ : e.block ≠ β := fun heq => hel (heq ▸ hβ)
  have hnew : g.IsPage (e.block, σ.fill e.block) := ⟨heb, hlt⟩
  have hppn : e.ppn g = g.ppnOf (e.block, σ.fill e.block) := by
    rw [Geometry.ppn_eq_ppnOf, hcurr]
  obtain ⟨-, -, hcell, -⟩ := updateNewPageMapping_spec s.tables lpn hnew rfl
  rw [hppn]
  refine ⟨hp.copy h.tables hβb hmap hnew heβ rfl, fun j hj => ?_⟩
  rw [hcell _ ⟨hβb, hj⟩, Function.update_of_ne fun heq => heβ (congrArg Prod.fst heq).symm]

/-- **The copy loop** relocates the pages of the victim one by one. -/
theorem copyValidPages_sim {fuel : ℕ} {v : VictimBlock} {k i c : ℕ} {r : Option ℕ}
    {events : List Event} (h : FtlInv g s σ) (hv : v.block ∈ σ.limbo) (hk : i + k = g.pageNb)
    (hp : Pending g s.tables σ.map v.block i)
    (hrun : copyValidPages g fuel v (List.range' i k) c s = some (r, s', events)) :
    ∃ labels σ', Sim g σ s' events labels σ' ∧ hostWrites labels = [] ∧ σ'.limbo = σ.limbo ∧
      (∀ j < g.pageNb, s'.tables.cellAt g (v.block, j) = s.tables.cellAt g (v.block, j)) ∧
      Copied g σ v.block ((List.range' i k).countP fun j =>
        s.tables.cellAt g (v.block, j) = .valid) σ' events c r := by
  induction k generalizing i c s σ events with
  | zero =>
    simp only [List.range'_zero, copyValidPages, Option.some.injEq, Prod.mk.injEq] at hrun
    obtain ⟨rfl, rfl, rfl⟩ := hrun
    refine ⟨[], σ, .refl h, rfl, rfl, fun _ _ => rfl, rfl, fun lpn q hq hqβ => ?_, rfl, by simp⟩
    have hle := hp.done lpn q.2 (by rw [hq, ← hqβ])
    have hlt := (h.tables.mapped lpn q hq).1.2
    omega
  | succ k ih =>
    obtain ⟨L, hL⟩ := h.lists
    have hvb : v.block ∈ g.blocks := hL.placed.limbo_sub hv
    rw [List.range'_succ] at hrun ⊢
    rcases copyValidPages_cons hrun with ⟨hvalid, hrun⟩ | ⟨hvalid, rfl, lists, hget, rfl, rfl⟩ |
      ⟨hvalid, e, lists, ev₁, hget, hloop, rfl⟩
    · rw [List.countP_cons_of_neg (by simpa using hvalid)]
      exact ih h hv (by omega) (hp.skip h.tables hvalid) hrun
    · -- no page is free: the loop gives up
      obtain ⟨⟨L₁, hL₁⟩, hfull⟩ := gcNewPage_spec hL hvb hget
      have hs₁ : FtlInv g { s with lists } σ := ⟨⟨L₁, hL₁⟩, h.tables⟩
      refine ⟨_, σ, .silent ?_ hs₁, rfl, rfl, fun _ _ => rfl, hfull, ?_, by simp⟩
      · simp only [List.mem_cons, List.not_mem_nil, or_false, forall_eq_or_imp, forall_eq]
        exact ⟨⟨trivial, h⟩, trivial, hs₁⟩
      · rw [freePages_eq_zero hfull, List.countP_cons_of_pos (by simpa using hvalid)]
        omega
    · have hgot := gcNewPage_spec hL hvb hget
      have hmap := hp.next i le_rfl (by omega) hvalid
      generalize s.tables.inverseMappingTable (g.ppnOf (v.block, i)) = lpn at hmap hloop
      obtain ⟨hinv₁, hstep⟩ := relocate_step h hgot hmap hv
      obtain ⟨hpend, hsame⟩ := relocate_pending h hgot hmap hv hp
      obtain ⟨labels, σ', hsim, hhost, hlimbo, hcells, hcopied⟩ :=
        ih hinv₁ hv (by omega) hpend hloop
      refine ⟨_, σ', (Sim.step hstep hinv₁).append hsim, hhost, hlimbo,
        fun j hj => (hcells j hj).trans (hsame j hj), ?_⟩
      -- the victim's own cells are not touched, so the same pages remain to be counted
      rw [List.countP_congr fun j hj => by
        rw [hsame j (by have := List.mem_range'_1.mp hj; omega)]] at hcopied
      rw [List.countP_cons_of_pos (by simpa using hvalid)]
      have hfree := freePages_place lpn (mem_sdiff.mp hgot.1).1 hgot.2.2.1
      cases r with
      | none =>
        obtain ⟨hfull, hlt', habort⟩ := hcopied
        exact ⟨hfull, by omega, by simp [habort]⟩
      | some c' =>
        obtain ⟨rfl, hnone, hsum, habort⟩ := hcopied
        exact ⟨by omega, hnone, by omega, by simp [habort]⟩

/-! ### A whole collection -/

private theorem countValid_eq_countP (arr : ℕ → PageState) (n : ℕ) :
    countValid arr n = (List.range' 0 n).countP fun j => arr j = .valid := by
  induction n with
  | zero => rfl
  | succ n ih =>
    rw [countValid, ih, List.range'_concat, List.countP_append]
    simp [List.countP_cons]

/-- `valid_page_nb` counts the cells marked `'V'`. -/
theorem TableInv.validPages_eq {t : PageTables} {map : ℤ → Option Page} {fill : ℕ × ℕ → ℕ}
    {limbo : Finset (ℕ × ℕ)} (h : TableInv g t map fill limbo) {v : VictimBlock}
    (hv : v.block ∈ g.blocks) : validPages g t v =
      (List.range' 0 g.pageNb).countP fun j => t.cellAt g (v.block, j) = .valid :=
  (h.counts v.block hv).trans (countValid_eq_countP _ _)

variable (g) in
/-- `v` is on a victim list and has the fewest valid pages, not all of them valid. -/
def BestVictim (s : Ftl) (L : ListView) (v : VictimBlock) : Prop :=
  (∃ i < g.emptyTableEntryNb, ∃ a, (a, v) ∈ L.victim i) ∧
    validPages g s.tables v < g.pageNb ∧
    ∀ i < g.emptyTableEntryNb, ∀ x ∈ L.victim i,
      validPages g s.tables v ≤ validPages g s.tables x.2

variable (g) in
/-- How a call of `GARBAGE_COLLECTION` can end. -/
inductive GcOutcome (s : Ftl) (L : ListView) (σ : Store) (s' : Ftl) (σ' : Store)
    (events : List Event) : Ret → Prop
  /-- There is nothing to reclaim; at most the failure counter has changed. -/
  | nothing (hs : ∃ c, s' = { s with failCnt := c }) (hσ : σ' = σ) (hev : ¬ GcAborted events)
      (hfull : ∀ i < g.emptyTableEntryNb, ∀ x ∈ L.victim i,
        validPages g s.tables x.2 = g.pageNb) : GcOutcome s L σ s' σ' events .fail
  /-- The copy loop ran out of pages; the victim stays in limbo. -/
  | aborted {v : VictimBlock} (hv : BestVictim g s L v)
      (hlimbo : σ'.limbo = insert v.block σ.limbo) (hev : GcAborted events)
      (hfree : freePages g σ < validPages g s.tables v)
      (hfull : ∀ γ ∈ g.blocks, σ'.fill γ = g.pageNb) : GcOutcome s L σ s' σ' events .fail
  /-- The victim was copied, erased and put back. -/
  | collected {v : VictimBlock} (hv : BestVictim g s L v) (hlimbo : σ'.limbo = σ.limbo)
      (hev : ¬ GcAborted events)
      (hfree : freePages g σ' + validPages g s.tables v = freePages g σ + g.pageNb) :
      GcOutcome s L σ s' σ' events .success

/-- The events of a collection, function by function. -/
theorem garbageCollection_cases {fuel : ℕ} {r : Ret} {events : List Event}
    (hrun : garbageCollection g fuel s = some (r, s', events)) :
    (∃ ev₁, selectVictimBlock g s = some (none, s', ev₁) ∧ r = .fail ∧
      events = ⟨.garbageCollection, s⟩ :: ev₁) ∨
    ∃ v s₁ ev₁ copied s₂ ev₂, selectVictimBlock g s = some (some v, s₁, ev₁) ∧
      copyValidPages g fuel v (List.range' 0 g.pageNb) 0 s₁ = some (copied, s₂, ev₂) ∧
      ((copied = none ∧ r = .fail ∧ s' = s₂ ∧
        events = ⟨.garbageCollection, s⟩ :: (ev₁ ++ ev₂)) ∨
      ∃ n, copied = some n ∧
        ((n ≠ validPages g s₂.tables v ∧ r = .fail ∧ s' = s₂ ∧
          events = ⟨.garbageCollection, s⟩ ::
            (ev₁ ++ ev₂ ++ [⟨.error .garbageCollectionValidPageNotCorrect, s₂⟩])) ∨
        ∃ lists, n = validPages g s₂.tables v ∧
          insertEmptyBlock g v.block.1 v.block.2 s₂.lists = some lists ∧ r = .success ∧
          s' = { s₂ with
            tables := updateBlockState g v.block.1 v.block.2 .emptyBlock s₂.tables
            lists
            gcCount := s₂.gcCount + 1 } ∧
          events = ⟨.garbageCollection, s⟩ ::
            (ev₁ ++ ev₂ ++ [⟨.ssdBlockErase v.block.1 v.block.2, s₂⟩]))) := by
  simp only [garbageCollection, Option.bind_eq_bind, Option.bind_eq_some_iff] at hrun
  obtain ⟨⟨selected, s₁, ev₁⟩, hselect, hrun⟩ := hrun
  cases selected with
  | none =>
    simp only [Option.some.injEq, Prod.mk.injEq] at hrun
    obtain ⟨rfl, rfl, rfl⟩ := hrun
    exact .inl ⟨ev₁, hselect, rfl, rfl⟩
  | some v =>
    simp only [Option.bind_eq_some_iff] at hrun
    obtain ⟨⟨copied, s₂, ev₂⟩, hcopy, hrun⟩ := hrun
    refine .inr ⟨v, s₁, ev₁, copied, s₂, ev₂, hselect, List.range_eq_range' ▸ hcopy, ?_⟩
    cases copied with
    | none =>
      simp only [Option.some.injEq, Prod.mk.injEq] at hrun
      obtain ⟨rfl, rfl, rfl⟩ := hrun
      exact .inl ⟨rfl, rfl, rfl, rfl⟩
    | some n =>
      refine .inr ⟨n, rfl, ?_⟩
      by_cases hn : n = validPages g s₂.tables v
      · simp only [hn, validPages, ne_eq, not_true_eq_false, if_false,
          Option.bind_eq_some_iff] at hrun
        obtain ⟨lists, hinsert, hrun⟩ := hrun
        simp only [Option.some.injEq, Prod.mk.injEq] at hrun
        obtain ⟨rfl, rfl, rfl⟩ := hrun
        exact .inr ⟨lists, hn, hinsert, rfl, rfl, rfl⟩
      · have hne : n ≠ (s₂.tables.getBlockStateEntry g v.phyFlashNb v.phyBlockNb).validPageNb := hn
        simp only [hne, ne_eq, not_false_eq_true, if_true, Option.some.injEq,
          Prod.mk.injEq] at hrun
        obtain ⟨rfl, rfl, rfl⟩ := hrun
        exact .inl ⟨hn, rfl, rfl, rfl⟩

/-- Taking the victim off its list: one step of the abstract store. -/
theorem collect_step (h : FtlInv g s σ) {v : VictimBlock} {lists : BlockLists}
    (hL : ∃ L', ListInv g lists L' σ.fill (insert v.block σ.limbo)) (hv : v.block ∉ σ.limbo) :
    FtlInv g { s with lists } { σ with limbo := insert v.block σ.limbo } ∧
    FtlStep g σ (.collect v.block, []) { σ with limbo := insert v.block σ.limbo } := by
  obtain ⟨L', hL'⟩ := hL
  exact ⟨⟨⟨L', hL'⟩, h.tables.collect _⟩,
    .collect hv (hL'.placed.limbo_full _ (mem_insert_self ..)), rfl⟩

/-- Erasing a victim nothing is mapped into and putting it back. -/
theorem erase_step (h : FtlInv g s σ) {β : ℕ × ℕ} (hβ : β ∈ σ.limbo)
    (hfree : ∀ lpn q, σ.map lpn = some q → q.1 ≠ β) {lists : BlockLists}
    (hrun : insertEmptyBlock g β.1 β.2 s.lists = some lists) {σ' : Store}
    (hσ' : σ' = { σ with fill := Function.update σ.fill β 0, limbo := σ.limbo.erase β }) :
    (∀ c, FtlInv g { s with
      tables := updateBlockState g β.1 β.2 .emptyBlock s.tables, lists, gcCount := c } σ') ∧
    FtlStep g σ (.erase β, [⟨.ssdBlockErase β.1 β.2, s⟩]) σ' := by
  subst hσ'
  obtain ⟨L, hL⟩ := h.lists
  obtain ⟨l', L', hrun', hL', -⟩ := insertEmptyBlock_spec hL hβ
  rw [hrun, Option.some.injEq] at hrun'
  subst hrun'
  exact ⟨fun c => ⟨⟨L', hL'⟩, h.tables.erase (hL.placed.limbo_sub hβ) hfree⟩,
    .erase hβ (hL.placed.limbo_full β hβ) hfree, s, h, rfl⟩

/-- **`GARBAGE_COLLECTION` refines the page store.** -/
theorem garbageCollection_sim {fuel : ℕ} {r : Ret} {events : List Event} (h : FtlInv g s σ)
    (hL : ListInv g s.lists L σ.fill σ.limbo)
    (hrun : garbageCollection g fuel s = some (r, s', events)) :
    ∃ labels σ', Sim g σ s' events labels σ' ∧ hostWrites labels = [] ∧
      GcOutcome g s L σ s' σ' events r := by
  obtain ⟨sel, t, evs, hsel, hspec⟩ := selectVictimBlock_spec h hL
  have hentered : Sim g σ s [⟨.garbageCollection, s⟩] _ σ :=
    .silent (by simpa using ⟨trivial, h⟩) h
  rcases garbageCollection_cases hrun with ⟨ev₁, hselect, rfl, rfl⟩ |
    ⟨v, s₁, ev₁, copied, s₂, ev₂, hselect, hcopy, hend⟩
  · rw [hsel, Option.some.injEq, Prod.mk.injEq, Prod.mk.injEq] at hselect
    obtain ⟨rfl, rfl, rfl⟩ := hselect
    obtain ⟨⟨c, rfl⟩, hev, hfull⟩ := hspec
    have hs : FtlInv g { s with failCnt := c } σ := ⟨h.lists, h.tables⟩
    have hsilent : ∀ e ∈ evs, e.call.Silent ∧ FtlInv g e.ftl σ := fun e he => by
      rw [hev e he]
      exact ⟨trivial, h⟩
    refine ⟨_, σ, hentered.append (.silent hsilent hs), rfl, .nothing ⟨c, rfl⟩ rfl ?_ hfull⟩
    rintro ⟨e, he, hcall⟩
    rcases List.mem_cons.mp he with rfl | he
    · cases hcall
    · rw [hev e he] at hcall
      cases hcall
  · rw [hsel, Option.some.injEq, Prod.mk.injEq, Prod.mk.injEq] at hselect
    obtain ⟨rfl, rfl, rfl⟩ := hselect
    obtain ⟨rfl, ⟨lists, rfl⟩, hL₁, hbest⟩ := hspec
    obtain ⟨i, hi, a, ha⟩ := hbest.1
    obtain ⟨hvb, hvl⟩ := mem_sdiff.mp (hL.placed.victim_mem hi ha).1
    obtain ⟨hinv₁, hcollect⟩ := collect_step h hL₁ hvl
    have hpend : Pending g s.tables σ.map v.block 0 := .start h hvb hvl
    obtain ⟨labels, σ₂, hsim, hhost, hlimbo, hcells, hcopied⟩ :=
      copyValidPages_sim hinv₁ (mem_insert_self ..) (Nat.zero_add _) hpend hcopy
    have hsim₂ := (hentered.append (.step hcollect hinv₁)).append hsim
    have hcount : (List.range' 0 g.pageNb).countP (fun j => decide
        (s.tables.cellAt g (v.block, j) = .valid)) = validPages g s.tables v :=
      (h.tables.validPages_eq hvb).symm
    rw [hcount] at hcopied
    rcases hend with ⟨rfl, rfl, rfl, rfl⟩ | ⟨n, rfl, hend⟩
    · obtain ⟨hfull, hfree, habort⟩ := hcopied
      exact ⟨_, σ₂, hsim₂, hhost, .aborted hbest hlimbo (by simp [habort]) hfree hfull⟩
    · obtain ⟨rfl, hnone, hfree, habort⟩ := hcopied
      have hsame : validPages g s₂.tables v = validPages g s.tables v := by
        rw [hsim.inv.tables.validPages_eq hvb, h.tables.validPages_eq hvb]
        refine List.countP_congr fun j hj => ?_
        rw [hcells j (by have := List.mem_range'_1.mp hj; omega)]
      rcases hend with ⟨hne, -⟩ | ⟨lists', -, hinsert, rfl, rfl, rfl⟩
      · exact absurd (by rw [hsame]; omega) hne
      have hv₂ : v.block ∈ σ₂.limbo := hlimbo ▸ mem_insert_self ..
      obtain ⟨L₂, hL₂⟩ := hsim.inv.lists
      have hvfull := hL₂.placed.limbo_full _ hv₂
      obtain ⟨hinv₃, herase⟩ := erase_step hsim.inv hv₂ hnone hinsert rfl
      refine ⟨_, _, hsim₂.append (.step herase (hinv₃ _)), by simpa using hhost,
        .collected hbest ?_ (by simpa using habort) ?_⟩
      · rw [hlimbo, erase_insert hvl]
      · rw [freePages_erase hvb hvfull rfl]
        have hsum : freePages g σ = freePages g σ₂ + validPages g s.tables v := hfree
        omega

end Vssim
