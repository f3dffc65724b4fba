import Vssim.Ftl.Run

/-!
# The calls of a request

What the I/O manager needs to know of the FTL, for **every** geometry: the block lists and the
mapping name blocks and pages of the device only (`Bounded`), which takes none of the invariants
that need `PLANES_PER_FLASH` to divide `BLOCK_NB`, and so every call is about one of
its chips. A served request allocates an I/O request, makes one call per page in order,
moves on to the next request number, and only then collects (`Script`).
-/

namespace Vssim

open LinkedHeap

variable (g : Geometry)

/-- The entry of a block that can be filled on. -/
def EmptyBlock.Bounded (e : EmptyBlock) : Prop := e.block ∈ g.blocks ∧ e.currPhyPageNb ≤ g.pageNb

/-- The lists name blocks of the device only. -/
structure BlockLists.Bounded (l : BlockLists) : Prop where
  empty : l.emptyHeap.All fun c => c.val.Bounded g
  victim : l.victimHeap.All fun c => c.val.block ∈ g.blocks

/-- The lists and the mapping name blocks and pages of the device only. -/
structure Ftl.Bounded (s : Ftl) : Prop where
  lists : s.lists.Bounded g
  mapped : ∀ lpn, s.tables.mappingTable lpn = -1 ∨
    ∃ q, g.IsPage q ∧ s.tables.mappingTable lpn = g.ppnOf q

variable {g} {s s' : Ftl} {l l' : BlockLists} {fuel : ℕ} {events : List Event}

/-! ### The allocator -/

private theorem insertEmptyBlock_bounded (h : l.Bounded g) {β : ℕ × ℕ} (hβ : β ∈ g.blocks)
    (hrun : insertEmptyBlock g β.1 β.2 l = some l') : l'.Bounded g := by
  obtain ⟨⟨h', r'⟩, hpush, rfl⟩ := Option.map_eq_some_iff.mp hrun
  exact ⟨sPush_all (P := fun e => e.Bounded g) h.empty ⟨hβ, Nat.zero_le _⟩ hpush, h.victim⟩

private theorem ejectVictimBlock_bounded (h : l.Bounded g) {p : ℕ}
    (hrun : ejectVictimBlock g p l = some l') : l'.Bounded g := by
  simp only [ejectVictimBlock, Option.bind_eq_bind, Option.bind_eq_some_iff] at hrun
  obtain ⟨c, -, ⟨h', r'⟩, hunlink, heq⟩ := hrun
  cases heq
  exact ⟨h.empty, dUnlink_all (P := fun v => v.block ∈ g.blocks) h.victim hunlink⟩

private theorem retireFullBlock_bounded (h : l.Bounded g) {i p : ℕ}
    (hrun : retireFullBlock g i p l = some l') : l'.Bounded g := by
  simp only [retireFullBlock, insertVictimBlock, Option.bind_eq_bind, Option.bind_eq_some_iff] at hrun
  obtain ⟨c, hc, l₁, ⟨c', hc', ⟨h', r'⟩, hpush, heq₁⟩, heq⟩ := hrun
  cases heq₁
  cases heq
  exact ⟨h.empty.free p, dPush_all (P := fun v => v.block ∈ g.blocks) h.victim (h.empty p c' hc').1 hpush⟩

section search

variable {I : BlockLists → Prop}
  (hindex : ∀ l k, I l → I { l with emptyBlockTableIndex := k })
  (hretire : ∀ l i p c l', I l → l.emptyHeap.cell p = some c → c.val.currPhyPageNb = g.pageNb →
    retireFullBlock g i p l = some l' → I l')

/-- A result of `GET_EMPTY_BLOCK`: an entry it returns is not full. -/
def FoundOpen (g : Geometry) (found : Option ℕ) (l : BlockLists) : Prop :=
  ∀ p, found = some p → ∃ c, l.emptyHeap.cell p = some c ∧ c.val.currPhyPageNb ≠ g.pageNb

include hindex hretire

/-- **Rule for `GET_EMPTY_BLOCK`**: what moving the index and retiring full blocks keep, the search
keeps. -/
theorem getEmptyBlockLoop_rule {mode : VictimMode} {inputIndex mappingIndex : ℕ}
    {found : Option ℕ} (h : I l)
    (hrun : getEmptyBlockLoop g mode inputIndex fuel mappingIndex l = some (found, l')) :
    I l' ∧ FoundOpen g found l' := by
  induction fuel generalizing l mappingIndex with
  | zero => simp [getEmptyBlockLoop] at hrun
  | succ fuel ih =>
    have hnone : some ((none : Option ℕ), l) = some (found, l') → I l' ∧ FoundOpen g found l' :=
      fun heq => by
        cases heq
        exact ⟨h, by simp [FoundOpen]⟩
    -- what the modes share once the list has an entry: `f` is what they do to the lists
    have hentry : ∀ {f : BlockLists → BlockLists} {i next : ℕ} {root : ListRoot},
        (∀ l, I l → I (f l) ∧ (f l).emptyHeap = l.emptyHeap) →
        (root.head.bind fun p => (l.emptyHeap.cell p).bind fun c =>
          if c.val.currPhyPageNb = g.pageNb then (retireFullBlock g i p l).bind fun l' =>
            getEmptyBlockLoop g mode inputIndex fuel next (f l')
          else some (some p, f l)) = some (found, l') → I l' ∧ FoundOpen g found l' := by
      intro f i next root hf hrun
      simp only [Option.bind_eq_some_iff] at hrun
      obtain ⟨p, -, c, hc, hrun⟩ := hrun
      split at hrun
      · rename_i hfull
        obtain ⟨l₁, hrun₁, hrun⟩ := Option.bind_eq_some_iff.mp hrun
        exact ih (hf _ (hretire l i p c l₁ h hc hfull hrun₁)).1 hrun
      · rename_i hne
        cases hrun
        refine ⟨(hf l h).1, fun q hq => ?_⟩
        cases hq
        exact ⟨c, by rw [(hf l h).2]; exact hc, hne⟩
    cases mode with
    | overall =>
      rw [getEmptyBlockLoop] at hrun
      split at hrun
      · exact hnone hrun
      dsimp only at hrun
      split at hrun
      · exact ih (hindex l _ h) hrun
      · exact hentry (f := advanceTableIndex g) (fun l hl => ⟨hindex l _ hl, rfl⟩) hrun
    | inchip =>
      rw [getEmptyBlockLoop] at hrun
      split at hrun
      · exact hnone hrun
      dsimp only at hrun
      split at hrun
      · split at hrun
        · split at hrun <;> split at hrun
          · exact hnone hrun
          · exact ih h hrun
          · exact hnone hrun
          · exact ih h hrun
        · exact hnone hrun
      · exact hentry (f := id) (fun l hl => ⟨hl, rfl⟩) hrun
    | noparal =>
      rw [getEmptyBlockLoop] at hrun
      split at hrun
      · exact hnone hrun
      dsimp only at hrun
      split at hrun
      · split at hrun
        · exact ih (hindex l 0 h) hrun
        · exact ih (hindex l _ h) hrun
      · exact hentry (f := id) (fun l hl => ⟨hl, rfl⟩) hrun

/-- **Rule for `GET_NEW_PAGE`**: it takes a page of an entry that is not full. -/
theorem getNewPage_rule {mode : VictimMode} {mappingIndex : ℕ} {taken : Option EmptyBlock} (h : I l)
    (hrun : getNewPage g fuel mode mappingIndex l = some (taken, l')) :
    ∃ found l₁, I l₁ ∧ FoundOpen g found l₁ ∧ takePage found l₁ = some (taken, l') := by
  rw [getNewPage, Option.bind_eq_bind, Option.bind_eq_some_iff] at hrun
  obtain ⟨⟨first, l₁⟩, hfirst, hrun⟩ := hrun
  obtain ⟨h₁, hopen₁⟩ := getEmptyBlockLoop_rule hindex hretire h hfirst
  by_cases hretry : mode = .inchip ∧ first = none
  · simp only [hretry, if_true, and_self, Option.bind_eq_some_iff] at hrun
    obtain ⟨⟨found, l₂⟩, hfound, hrun⟩ := hrun
    obtain ⟨h₂, hopen₂⟩ := getEmptyBlockLoop_rule hindex hretire h₁ hfound
    exact ⟨found, l₂, h₂, hopen₂, hrun⟩
  · simp only [hretry, if_false, Option.bind_some] at hrun
    exact ⟨first, l₁, h₁, hopen₁, hrun⟩

end search

/-- `GET_NEW_PAGE` hands out pages of the device. -/
private theorem getNewPage_bounded {mode : VictimMode} {mappingIndex : ℕ}
    {taken : Option EmptyBlock}
    (h : l.Bounded g) (hrun : getNewPage g fuel mode mappingIndex l = some (taken, l')) :
    l'.Bounded g ∧ ∀ e, taken = some e → ∃ q, g.IsPage q ∧ e.ppn g = g.ppnOf q := by
  obtain ⟨found, l₂, h₂, hfound, htake⟩ := getNewPage_rule (I := BlockLists.Bounded g)
    (fun _ k hl => ⟨hl.empty, hl.victim⟩)
    (fun _ _ _ _ _ hl _ _ hrun => retireFullBlock_bounded hl hrun) h hrun
  cases found with
  | none =>
    cases htake
    exact ⟨h₂, by simp⟩
  | some p =>
    obtain ⟨c, hc, hne⟩ := hfound p rfl
    obtain ⟨hblock, hle⟩ := h₂.empty p c hc
    have hlt := Nat.lt_of_le_of_ne hle hne
    simp only [takePage, hc, Option.map_some, Option.some.injEq, Prod.mk.injEq] at htake
    obtain ⟨rfl, rfl⟩ := htake
    refine ⟨⟨h₂.empty.modify p fun c' hc' => ?_, h₂.victim⟩, fun e he => ?_⟩
    · cases hc.symm.trans hc'
      exact ⟨hblock, hlt⟩
    · cases he
      exact ⟨_, ⟨hblock, hlt⟩, Geometry.ppn_eq_ppnOf _⟩

/-! ### The calls -/

variable (g) in
/-- The call for page `k` of a host request. -/
def Call.IsHost (k : ℕ) : Call → Prop
  | .ssdPageWrite f _ _ offset type _ => f < g.flashNb ∧ offset = k ∧ type = .write
  | .ssdPagePartialWrite f₀ _ _ f _ _ offset type _ =>
    f₀ < g.flashNb ∧ f < g.flashNb ∧ offset = k ∧ type = .write
  | .ssdPageRead f _ _ offset type _ => f < g.flashNb ∧ offset = k ∧ type = .read
  | _ => False

variable (g) in
/-- A call that is about no host page: those of the collector, and those that do not reach the
I/O manager. -/
def Call.IsOther : Call → Prop
  | .ssdPageWrite f _ _ _ type _ => f < g.flashNb ∧ type = .gcWrite
  | .ssdPageRead f _ _ _ type _ => f < g.flashNb ∧ type = .gcRead
  | .ssdBlockErase f _ => f < g.flashNb
  | .getNewPage _ | .garbageCollection | .error _ => True
  | _ => False

variable (g) in
/-- The calls for the pages from `k` up to `n` of a host request, among others. -/
def HostCalls (n : ℕ) : ℕ → List Event → Prop
  | k, [] => k = n
  | k, e :: es => e.call.IsOther g ∧ HostCalls n k es ∨ e.call.IsHost g k ∧ HostCalls n (k + 1) es

variable (g) in
/-- The events of a request of `n` pages. -/
def Script (n : ℕ) (events : List Event) : Prop :=
  ∃ sectorNb length ioType pages gc sAlloc sNext,
    events = ⟨.allocIoRequest sectorNb length ioType, sAlloc⟩ ::
      (pages ++ ⟨.increaseIoRequestSeqNb, sNext⟩ :: gc) ∧
    ioPageNb g sectorNb length = n ∧ 0 < n ∧ HostCalls g n 0 pages ∧ ∀ e ∈ gc, e.call.IsOther g

private theorem calcFlash_lt {q : Page} (hq : g.IsPage q) :
    calcFlash g (g.ppnOf q) < g.flashNb := by
  rw [Geometry.calcFlash_ppnOf hq]
  exact (g.mem_blocks.mp hq.1).1

private theorem Ftl.Bounded.flash_lt (h : s.Bounded g) {lpn : ℤ}
    (hne : s.tables.mappingTable lpn ≠ -1) :
    calcFlash g (s.tables.mappingTable lpn) < g.flashNb := by
  obtain ⟨q, hq, heq⟩ := (h.mapped lpn).resolve_left hne
  rw [heq]
  exact calcFlash_lt hq

/-- Mapping a logical page to a page of the device. -/
private theorem Ftl.Bounded.map (h : s.Bounded g) {lists : BlockLists} (hl : lists.Bounded g)
    {t : PageTables} (ht : t.mappingTable = s.tables.mappingTable) {q : Page} (hq : g.IsPage q)
    (lpn : ℤ) :
    Ftl.Bounded g { s with lists, tables := updateNewPageMapping g lpn (g.ppnOf q) t } := by
  refine ⟨hl, fun k => ?_⟩
  obtain ⟨hmap, -⟩ := updateNewPageMapping_spec t lpn hq rfl
  dsimp only
  rw [hmap, ht]
  by_cases hk : k = lpn
  · rw [hk, Function.update_self]
    exact .inr ⟨q, hq, rfl⟩
  · rw [Function.update_of_ne hk]
    exact h.mapped k

/-! ### Collection -/

private theorem copyValidPages_bounded {v : VictimBlock} {is : List ℕ} {c : ℕ} {r : Option ℕ}
    (h : s.Bounded g) (hv : v.block ∈ g.blocks)
    (hrun : copyValidPages g fuel v is c s = some (r, s', events)) :
    s'.Bounded g ∧ ∀ e ∈ events, e.call.IsOther g := by
  induction is generalizing s c events with
  | nil =>
    cases hrun
    exact ⟨h, by simp⟩
  | cons i is ih =>
    have hget : ∀ {taken lists}, gcNewPage g fuel v s.lists = some (taken, lists) →
        lists.Bounded g ∧ ∀ e, taken = some e → ∃ q, g.IsPage q ∧ e.ppn g = g.ppnOf q := by
      intro taken lists hget
      rw [gcNewPage] at hget
      split at hget <;> exact getNewPage_bounded h.lists hget
    rcases copyValidPages_cons hrun with ⟨-, hrun⟩ | ⟨-, -, lists, hnew, rfl, rfl⟩ |
      ⟨-, e, lists, ev₁, hnew, hloop, rfl⟩
    · exact ih h hrun
    · exact ⟨⟨(hget hnew).1, h.mapped⟩, by simp [Call.IsOther]⟩
    · obtain ⟨hl, hpage⟩ := hget hnew
      obtain ⟨q, hq, hppn⟩ := hpage e rfl
      rw [hppn] at hloop ⊢
      obtain ⟨h', hcalls⟩ := ih (h.map hl rfl hq _) hloop
      refine ⟨h', fun e he => ?_⟩
      simp only [List.cons_append, List.nil_append, List.mem_cons] at he
      rcases he with rfl | rfl | rfl | he
      · trivial
      · exact ⟨(g.mem_blocks.mp hv).1, rfl⟩
      · exact ⟨calcFlash_lt hq, rfl⟩
      · exact hcalls e he

/-- `SELECT_VICTIM_BLOCK` finds nothing, or takes a live entry off its list. -/
theorem selectVictimBlock_cases {v : Option VictimBlock}
    (hrun : selectVictimBlock g s = some (v, s', events)) :
    (v = none ∧ (∃ c, s' = { s with failCnt := c }) ∧
      ∀ e ∈ events, e.call = .error .selectVictimBlockNoVictim) ∨
    ∃ a c lists, v = some c.val ∧ s.lists.victimHeap.cell a = some c ∧
      ejectVictimBlock g a s.lists = some lists ∧ s' = { s with lists } ∧ events = [] := by
  rw [selectVictimBlock] at hrun
  split at hrun
  · cases hrun
    exact .inl ⟨rfl, ⟨s.failCnt, rfl⟩, by simp⟩
  simp only [Option.bind_eq_bind, Option.bind_eq_some_iff] at hrun
  obtain ⟨best, -, ⟨a, n⟩, -, hrun⟩ := hrun
  dsimp only at hrun
  split at hrun
  · cases hrun
    exact .inl ⟨rfl, ⟨s.failCnt + 1, rfl⟩, by simp⟩
  · simp only [Option.bind_eq_some_iff] at hrun
    obtain ⟨c, hc, lists, heject, heq⟩ := hrun
    cases heq
    exact .inr ⟨a, c, lists, rfl, hc, heject, rfl, rfl⟩

private theorem selectVictimBlock_bounded {v : Option VictimBlock} (h : s.Bounded g)
    (hrun : selectVictimBlock g s = some (v, s', events)) :
    s'.Bounded g ∧ (∀ v', v = some v' → v'.block ∈ g.blocks) ∧ ∀ e ∈ events, e.call.IsOther g := by
  rcases selectVictimBlock_cases hrun with ⟨rfl, ⟨c, rfl⟩, hev⟩ |
    ⟨a, c, lists, rfl, hc, heject, rfl, rfl⟩
  · refine ⟨⟨h.lists, h.mapped⟩, by simp, fun e he => ?_⟩
    rw [hev e he]
    trivial
  · refine ⟨⟨ejectVictimBlock_bounded h.lists heject, h.mapped⟩, fun v' hv' => ?_, by simp⟩
    cases hv'
    exact h.lists.victim a c hc

private theorem garbageCollection_bounded {r : Ret} (h : s.Bounded g)
    (hrun : garbageCollection g fuel s = some (r, s', events)) :
    s'.Bounded g ∧ ∀ e ∈ events, e.call.IsOther g := by
  rcases garbageCollection_cases hrun with ⟨ev₁, hselect, -, rfl⟩ |
    ⟨v, s₁, ev₁, copied, s₂, ev₂, hselect, hcopy, hend⟩
  · obtain ⟨h₁, -, hcalls⟩ := selectVictimBlock_bounded h hselect
    exact ⟨h₁, by simpa [Call.IsOther] using hcalls⟩
  obtain ⟨h₁, hv, hcalls₁⟩ := selectVictimBlock_bounded h hselect
  have hv := hv v rfl
  obtain ⟨h₂, hcalls₂⟩ := copyValidPages_bounded h₁ hv hcopy
  have hcalls : ∀ e ∈ ev₁ ++ ev₂, e.call.IsOther g := fun e he =>
    (List.mem_append.mp he).elim (hcalls₁ e) (hcalls₂ e)
  have hcons : ∀ {e : Event} {es : List Event}, e.call.IsOther g → (∀ e ∈ es, e.call.IsOther g) →
      ∀ e' ∈ e :: es, e'.call.IsOther g := fun he hes e' he' =>
    (List.mem_cons.mp he').elim (fun heq => heq ▸ he) (hes e')
  have happend : ∀ {e : Event}, e.call.IsOther g → ∀ e' ∈ ev₁ ++ ev₂ ++ [e], e'.call.IsOther g :=
    fun he e' he' => (List.mem_append.mp he').elim (hcalls e') fun hmem =>
      List.mem_singleton.mp hmem ▸ he
  rcases hend with ⟨-, -, rfl, rfl⟩ | ⟨n, -, ⟨-, -, rfl, rfl⟩ | ⟨lists, -, hinsert, -, rfl, rfl⟩⟩
  · exact ⟨h₂, hcons trivial hcalls⟩
  · exact ⟨h₂, hcons trivial (happend trivial)⟩
  · refine ⟨⟨insertEmptyBlock_bounded h₂.lists hv hinsert, fun lpn => ?_⟩,
      hcons trivial (happend (g.mem_blocks.mp hv).1)⟩
    obtain ⟨hmap, -⟩ := updateBlockState_empty_spec hv s₂.tables rfl
    dsimp only
    rw [hmap]
    exact h₂.mapped lpn

private theorem collectLoop_bounded {n : ℕ} {u : Unit} (h : s.Bounded g)
    (hrun : collectLoop g fuel n s = some (u, s', events)) :
    s'.Bounded g ∧ ∀ e ∈ events, e.call.IsOther g := by
  induction n generalizing s events with
  | zero =>
    cases hrun
    exact ⟨h, by simp⟩
  | succ n ih =>
    simp only [collectLoop, Option.bind_eq_bind, Option.bind_eq_some_iff] at hrun
    obtain ⟨⟨r, s₁, ev₁⟩, hgc, hrun⟩ := hrun
    obtain ⟨h₁, hcalls₁⟩ := garbageCollection_bounded h hgc
    cases r with
    | fail =>
      cases hrun
      exact ⟨h₁, hcalls₁⟩
    | success =>
      simp only [Option.bind_eq_some_iff] at hrun
      obtain ⟨⟨u', s₂, ev₂⟩, hloop, heq⟩ := hrun
      cases heq
      obtain ⟨h₂, hcalls₂⟩ := ih h₁ hloop
      exact ⟨h₂, fun e he => (List.mem_append.mp he).elim (hcalls₁ e) (hcalls₂ e)⟩

theorem gcCheck_bounded {u : Unit} (h : s.Bounded g)
    (hrun : gcCheck g fuel s = some (u, s', events)) :
    s'.Bounded g ∧ ∀ e ∈ events, e.call.IsOther g := by
  rw [gcCheck] at hrun
  split at hrun
  · exact collectLoop_bounded h hrun
  · cases hrun
    exact ⟨h, by simp⟩

/-! ### Requests -/

private theorem updateOldPageMapping_mappingTable (h : s.Bounded g) (lpn : ℤ) :
    (updateOldPageMapping g lpn s.tables).mappingTable = s.tables.mappingTable := by
  rcases h.mapped lpn with hnone | ⟨q, hq, hmap⟩
  · rw [updateOldPageMapping, if_pos hnone]
  · exact (updateOldPageMapping_spec hq hmap rfl).1

private theorem programCall_isHost (h : s.Bounded g) {q : Page} (hq : g.IsPage q) (c : Cursor)
    (k n : ℕ) : (programCall g s.tables c (g.ppnOf q) k n).IsHost g k := by
  rw [programCall]
  split
  · rename_i hpart
    exact ⟨h.flash_lt hpart.2, calcFlash_lt hq, rfl, rfl⟩
  · exact ⟨calcFlash_lt hq, rfl, rfl⟩

/-- The page loop of a write makes one call per page; one that gives up has made fewer. -/
theorem writePages_script {n rounds k : ℕ} {c : Cursor} {ret : Ret} {r : Option Ret}
    (h : s.Bounded g) (hrun : writePages g fuel n rounds c k ret s = some (r, s', events)) :
    s'.Bounded g ∧ ∃ m, HostCalls g m k events ∧ (r ≠ none → m = k + countPages g rounds c) ∧
      (r = none → m < k + countPages g rounds c) := by
  induction rounds generalizing s c k ret events with
  | zero =>
    cases hrun
    exact ⟨h, k, rfl, fun _ => rfl, by simp⟩
  | succ rounds ih =>
    by_cases hpos : 0 < c.remain
    · have hget : ∀ {taken lists}, hostNewPage g fuel s.lists = some (taken, lists) →
          lists.Bounded g ∧ ∀ e, taken = some e → ∃ q, g.IsPage q ∧ e.ppn g = g.ppnOf q := by
        intro taken lists hget
        rw [hostNewPage] at hget
        split at hget <;> exact getNewPage_bounded h.lists hget
      rw [countPages, if_pos hpos, Nat.add_comm (countPages ..) 1, ← Nat.add_assoc]
      rcases writePages_succ hpos hrun with ⟨rfl, lists, hnew, rfl, rfl⟩ |
        ⟨e, lists, ev₁, hnew, hloop, rfl⟩
      · refine ⟨⟨(hget hnew).1, h.mapped⟩, k, .inl ⟨trivial, .inl ⟨trivial, rfl⟩⟩,
          fun hne => absurd rfl hne, fun _ => ?_⟩
        omega
      · obtain ⟨hl, hpage⟩ := hget hnew
        obtain ⟨q, hq, hppn⟩ := hpage e rfl
        rw [hppn] at hloop ⊢
        obtain ⟨h', m, hcalls, hm⟩ :=
          ih (h.map hl (updateOldPageMapping_mappingTable h _) hq _) hloop
        exact ⟨h', m, .inl ⟨trivial, .inr ⟨programCall_isHost h hq c k n, hcalls⟩⟩, hm⟩
    · rw [writePages, if_neg hpos] at hrun
      cases hrun
      rw [countPages, if_neg hpos]
      exact ⟨h, k, rfl, fun _ => rfl, by simp⟩

/-- The page loop of a write that does not give up returns `SUCCESS` once it has made a round. -/
theorem writePages_ret {n rounds k : ℕ} {c : Cursor} {ret ret' : Ret}
    (hrun : writePages g fuel n rounds c k ret s = some (some ret', s', events))
    (hret : 0 < rounds ∧ 0 < c.remain ∨ ret = .success) : ret' = .success := by
  induction rounds generalizing s c k ret events with
  | zero =>
    cases hrun
    exact hret.resolve_left fun h => absurd h.1 (Nat.lt_irrefl 0)
  | succ rounds ih =>
    by_cases hpos : 0 < c.remain
    · obtain ⟨hnone, -⟩ | ⟨e, lists, ev₁, -, hloop, -⟩ := writePages_succ hpos hrun
      · cases hnone
      · exact ih hloop (.inr rfl)
    · rw [writePages, if_neg hpos] at hrun
      cases hrun
      exact hret.resolve_left fun h => hpos h.2

/-- The second pass of a read makes one call per page. -/
private theorem readPages_script (n : ℕ) {rounds : ℕ} {c : Cursor} (k : ℕ) (ret : Ret)
    (h : s.Bounded g) (hmapped : checkMapped g s.tables rounds c = true) :
    HostCalls g (k + countPages g rounds c) k (readPages g n s rounds c k ret).2 := by
  induction rounds generalizing c k ret with
  | zero => rfl
  | succ rounds ih =>
    rw [checkMapped] at hmapped
    rw [readPages, countPages]
    split at hmapped
    · rename_i hpos
      split at hmapped
      · cases hmapped
      · rename_i hne
        rw [if_pos hpos, if_pos hpos, Nat.add_comm (countPages ..) 1, ← Nat.add_assoc]
        exact .inr ⟨⟨h.flash_lt hne, rfl, rfl⟩, ih (k + 1) .success hmapped⟩
    · rename_i hpos
      rw [if_neg hpos, if_neg hpos]
      rfl

private theorem ioPageNb_pos {sectorNb : ℤ} {length : ℕ} (h : InRange g sectorNb length) :
    0 < ioPageNb g sectorNb length := by
  obtain ⟨n, rfl⟩ : ∃ n, length = n + 1 := ⟨length - 1, by have := h.pos; omega⟩
  rw [ioPageNb, countPages, if_pos (show 0 < (Cursor.start g sectorNb (n + 1)).remain from
    Nat.succ_pos n)]
  exact Nat.succ_pos _

/-- The number of pages of a request. -/
def Request.pageNb (g : Geometry) : Request → ℕ
  | .write sectorNb length | .read sectorNb length => ioPageNb g sectorNb length

/-- A write that found no free page. -/
def Served.Failed (e : Served) : Prop :=
  (∃ sectorNb length, e.request = .write sectorNb length) ∧ e.ret = .fail

variable (g) in
/-- The events of a request of `n` pages that was given up before the last of them. -/
def Truncated (n : ℕ) (events : List Event) : Prop :=
  ∃ sectorNb length ioType pages sAlloc m,
    events = ⟨.allocIoRequest sectorNb length ioType, sAlloc⟩ :: pages ∧
    ioPageNb g sectorNb length = n ∧ m < n ∧ HostCalls g m 0 pages

/-- A served request keeps the bounds. Its events follow the script, which a failed write gives
up; or there are none, and it is a read of pages that are not all mapped. -/
theorem Serve.outline {e : Served} (h : s.Bounded g) (hserve : Serve g s e s') :
    s'.Bounded g ∧ (e.Failed ∧ Truncated g (e.request.pageNb g) e.events ∨
      ¬e.Failed ∧ (e.events = [] ∨ Script g (e.request.pageNb g) e.events)) := by
  cases hserve with
  | @write _ sectorNb length fuel r events hreq hrun =>
    obtain ⟨r₁, s₁, ev₁, hloop, hend⟩ := ftlWrite_cases hreq hrun
    obtain ⟨h₁, m, hcalls, hall, hfew⟩ := writePages_script h hloop
    rw [Nat.zero_add] at hall hfew
    rcases hend with ⟨rfl, rfl, rfl, rfl⟩ | ⟨ev₂, rfl, hcheck, rfl⟩
    · exact ⟨h₁, .inl ⟨⟨⟨sectorNb, length, rfl⟩, rfl⟩, sectorNb, length, .write, ev₁, s, m, rfl, rfl,
        hfew rfl, hcalls⟩⟩
    · obtain ⟨h₂, hgc⟩ := gcCheck_bounded h₁ hcheck
      obtain rfl := hall (by simp)
      refine ⟨h₂, .inr ⟨fun hfail => ?_, .inr ⟨sectorNb, length, .write, ev₁, ev₂, s, s₁, rfl, rfl,
        ioPageNb_pos hreq, hcalls, hgc⟩⟩⟩
      have hret := writePages_ret hloop (.inl ⟨hreq.pos, hreq.pos⟩)
      cases hret.symm.trans hfail.2
  | @read sectorNb length r events hreq hrun =>
    have hread : ¬Served.Failed ⟨.read sectorNb length, r, events⟩ := fun ⟨⟨_, _, heq⟩, _⟩ => by
      cases heq
    refine ⟨h, .inr ⟨hread, ?_⟩⟩
    rw [ftlRead, if_neg hreq.toU32_le] at hrun
    split at hrun
    · rename_i hmapped
      cases hrun
      refine .inr ⟨sectorNb, length, .read, _, [], s, s, rfl, rfl, ioPageNb_pos hreq, ?_, by simp⟩
      have hpages := readPages_script (ioPageNb g sectorNb length) 0 .fail h hmapped
      rwa [Nat.zero_add] at hpages
    · cases hrun
      exact .inl rfl

/-- Unless it is a write that failed, the events of a request follow the script, or there are
none. -/
theorem Serve.script {e : Served} (h : s.Bounded g) (hserve : Serve g s e s') :
    s'.Bounded g ∧ ((∀ sectorNb length, e.request = .write sectorNb length → e.ret = .success) →
      e.events = [] ∨ Script g (e.request.pageNb g) e.events) := by
  obtain ⟨hs', hcases⟩ := hserve.outline h
  refine ⟨hs', fun hok => ?_⟩
  rcases hcases with ⟨⟨⟨_, _, hreq⟩, hfail⟩, -⟩ | ⟨-, hevents⟩
  · rw [hok _ _ hreq] at hfail
    cases hfail
  · exact hevents

/-! ### Start-up -/

/-- Building a list of blocks of the device. -/
private theorem initEmptyBlocks_all {i j : ℕ} (hj : j < g.flashNb) {ks : List ℕ}
    (hks : ∀ k ∈ ks, k < g.blockNb) {h : Heap (SNode EmptyBlock)} (r : ListRoot) (t : PageTables)
    (hall : h.All fun c => c.val.Bounded g) :
    (initEmptyBlocks g i j ks (h, r, t)).1.All fun c => c.val.Bounded g := by
  induction ks generalizing h r t with
  | nil => exact hall
  | cons k ks ih =>
    have halloc : (h.alloc ⟨⟨j, k, 0⟩, none⟩).All fun c => c.val.Bounded g :=
      hall.alloc ⟨g.mem_blocks.mpr ⟨hj, hks k (by simp)⟩, Nat.zero_le _⟩
    rw [initEmptyBlocks]
    refine ih (fun k hk => hks k (List.mem_cons_of_mem _ hk)) _ _ ?_
    split
    · exact halloc
    · split
      · exact halloc
      · exact halloc.modify _ fun c hc => halloc _ c hc

theorem ftlInit_bounded : (ftlInit g).Bounded g := by
  refine ⟨⟨?_, fun a v hv => by cases hv⟩, fun lpn => .inl (congrFun ftlInit_tables.1 lpn)⟩
  refine initEmptyBlockList_rule (P := fun _ st => st.1.All fun c => c.val.Bounded g)
    (fun a v hv => by cases hv) fun i hi j hj st hst => ?_
  exact initEmptyBlocks_all hj (fun k hk => ((mem_planeBlocks hi).mp hk).1) _ _ hst

end Vssim
