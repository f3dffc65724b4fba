import Vssim.Ftl.Bounds

/-!
# The stock of blocks, for every geometry

`ListInv` follows the pointers of the block lists and needs `PLANES_PER_FLASH` to divide
`BLOCK_NB`: otherwise the counts that `INIT_EMPTY_BLOCK_LIST` stores are not the lengths of the
lists, and blocks are lost. What a lost block cannot upset is looked at here through the heaps
alone: every live entry claims a block that no other entry claims, an empty-list entry is at its
block's fill, and a victim is full (`Stock`).
-/

namespace Vssim

open LinkedHeap Finset Function

/-! ### Claims -/

section claims

variable {ι β : Type} {f : ι → Option β}

/-- No two indices have the same value. -/
def Claims (f : ι → Option β) : Prop := ∀ x y b, f x = some b → f y = some b → x = y

variable [DecidableEq ι]

private theorem Claims.drop (h : Claims f) (x : ι) :
    Claims (update f x none) := fun y z b hy hz => by
  by_cases hyx : y = x
  · simp [hyx] at hy
  by_cases hzx : z = x
  · simp [hzx] at hz
  rw [update_of_ne hyx] at hy
  rw [update_of_ne hzx] at hz
  exact h y z b hy hz

/-- A value that is given up is claimed no more. -/
private theorem Claims.drop_ne (h : Claims f) {x : ι} {b : β} (hx : f x = some b) (y : ι) :
    update f x none y ≠ some b := fun hy => by
  by_cases hyx : y = x
  · simp [hyx] at hy
  · rw [update_of_ne hyx] at hy
    exact hyx (h y x b hy hx)

private theorem Claims.add (h : Claims f) (x : ι) {b : β} (hb : ∀ y, f y ≠ some b) :
    Claims (update f x (some b)) := fun y z c hy hz => by
  by_cases hyx : y = x
  · by_cases hzx : z = x
    · rw [hyx, hzx]
    · rw [hyx, update_self] at hy
      rw [update_of_ne hzx, ← hy] at hz
      exact absurd hz (hb z)
  · rw [update_of_ne hyx] at hy
    by_cases hzx : z = x
    · rw [hzx, update_self] at hz
      rw [← hz] at hy
      exact absurd hy (hb y)
    · rw [update_of_ne hzx] at hz
      exact h y z c hy hz

end claims

/-! ### The entries -/

namespace BlockLists

variable (l : BlockLists)

/-- The live empty-list entries, by address. -/
def empties : ℕ → Option EmptyBlock := l.emptyHeap.payloads SNode.val

/-- The live victim-list entries, by address. -/
def victims : ℕ → Option VictimBlock := l.victimHeap.payloads DNode.val

/-- The block of an entry of either kind. -/
def claim : ℕ ⊕ ℕ → Option (ℕ × ℕ) :=
  Sum.elim (fun a => (l.empties a).map EmptyBlock.block)
    fun a => (l.victims a).map VictimBlock.block

variable {l} {l' : BlockLists}

private theorem claim_empty {a : ℕ} {e : EmptyBlock} (he : l.empties a = some e) :
    l.claim (.inl a) = some e.block := congrArg (Option.map EmptyBlock.block) he

private theorem claim_victim {a : ℕ} {v : VictimBlock} (hv : l.victims a = some v) :
    l.claim (.inr a) = some v.block := congrArg (Option.map VictimBlock.block) hv

/-- Changing one empty-list entry. -/
private theorem claim_update_empty {a : ℕ} {x : Option EmptyBlock}
    (he : l'.empties = update l.empties a x) (hv : l'.victims = l.victims) :
    l'.claim = update l.claim (.inl a) (x.map EmptyBlock.block) := by
  funext y
  rcases y with b | b
  · by_cases hb : b = a
    · simp [claim, he, hb]
    · simp [claim, he, hb]
  · simp [claim, hv]

/-- Changing one victim-list entry. -/
private theorem claim_update_victim {a : ℕ} {x : Option VictimBlock} (he : l'.empties = l.empties)
    (hv : l'.victims = update l.victims a x) :
    l'.claim = update l.claim (.inr a) (x.map VictimBlock.block) := by
  funext y
  rcases y with b | b
  · simp [claim, he]
  · by_cases hb : b = a
    · simp [claim, hv, hb]
    · simp [claim, hv, hb]

end BlockLists

variable (g : Geometry)

/-- Every live entry is the only one of its block, and knows how far it is filled. -/
structure Stock (l : BlockLists) (fill : ℕ × ℕ → ℕ) (limbo : Finset (ℕ × ℕ)) : Prop where
  empty : ∀ a e, l.empties a = some e → e.currPhyPageNb = fill e.block
  victim : ∀ a v, l.victims a = some v → fill v.block = g.pageNb
  claims : Claims l.claim
  claim_mem : ∀ x β, l.claim x = some β → β ∈ g.blocks \ limbo
  limbo_sub : limbo ⊆ g.blocks
  limbo_full : ∀ β ∈ limbo, fill β = g.pageNb
  fill_le : ∀ β ∈ g.blocks, fill β ≤ g.pageNb

variable {g} {l l' : BlockLists} {fill : ℕ × ℕ → ℕ} {limbo : Finset (ℕ × ℕ)}

namespace Stock

/-- Only the live entries matter. -/
private theorem congr (h : Stock g l fill limbo) (he : l'.empties = l.empties)
    (hv : l'.victims = l.victims) : Stock g l' fill limbo := by
  have hclaim : l'.claim = l.claim := by rw [BlockLists.claim, BlockLists.claim, he, hv]
  exact ⟨he ▸ h.empty, hv ▸ h.victim, hclaim ▸ h.claims, hclaim ▸ h.claim_mem, h.limbo_sub,
    h.limbo_full, h.fill_le⟩

/-- A full entry becomes a victim. -/
private theorem retire (h : Stock g l fill limbo) {p b : ℕ} {e : EmptyBlock}
    (hp : l.empties p = some e)
    (hfull : e.currPhyPageNb = g.pageNb) (he : l'.empties = update l.empties p none)
    (hv : l'.victims = update l.victims b (some ⟨e.phyFlashNb, e.phyBlockNb⟩)) :
    Stock g l' fill limbo := by
  have hclaim : l'.claim = update (update l.claim (.inl p) none) (.inr b) (some e.block) := by
    let l₁ : BlockLists := { l with emptyHeap := l'.emptyHeap }
    have hmid : l₁.claim = update l.claim (.inl p) none :=
      BlockLists.claim_update_empty (show l₁.empties = _ from he) rfl
    rw [← hmid]
    exact BlockLists.claim_update_victim (show l'.empties = l₁.empties from rfl) hv
  have hown := h.claim_mem _ _ (BlockLists.claim_empty hp)
  refine ⟨fun a e' ha => ?_, fun a v ha => ?_, ?_, fun x β hx => ?_, h.limbo_sub, h.limbo_full,
    h.fill_le⟩
  · by_cases hap : a = p
    · simp [he, hap] at ha
    · rw [he, update_of_ne hap] at ha
      exact h.empty a e' ha
  · by_cases hab : a = b
    · rw [hv, hab, update_self, Option.some.injEq] at ha
      rw [← ha, ← hfull, h.empty p e hp]
      rfl
    · rw [hv, update_of_ne hab] at ha
      exact h.victim a v ha
  · rw [hclaim]
    exact (h.claims.drop _).add _ (h.claims.drop_ne (BlockLists.claim_empty hp))
  · rw [hclaim] at hx
    by_cases hxb : x = .inr b
    · rw [hxb, update_self, Option.some.injEq] at hx
      exact hx ▸ hown
    · rw [update_of_ne hxb] at hx
      by_cases hxp : x = .inl p
      · simp [hxp] at hx
      · rw [update_of_ne hxp] at hx
        exact h.claim_mem x β hx

/-- The next page of an entry is handed out. -/
private theorem take (h : Stock g l fill limbo) {p : ℕ} {e : EmptyBlock} (hp : l.empties p = some e)
    (hlt : e.currPhyPageNb < g.pageNb)
    (he : l'.empties = update l.empties p
      (some { e with currPhyPageNb := e.currPhyPageNb + 1 }))
    (hv : l'.victims = l.victims) :
    Stock g l' (update fill e.block (fill e.block + 1)) limbo := by
  have hown := BlockLists.claim_empty hp
  have hclaim : l'.claim = l.claim := by
    rw [BlockLists.claim_update_empty he hv]
    exact (congrArg (update l.claim (.inl p)) hown.symm).trans (update_eq_self _ _)
  have hcurr := h.empty p e hp
  have hother : ∀ {x β}, l.claim x = some β → x ≠ .inl p → β ≠ e.block := fun hx hne heq =>
    hne (h.claims _ _ _ (heq ▸ hx) hown)
  obtain ⟨hblock, hlimbo⟩ := mem_sdiff.mp (h.claim_mem _ _ hown)
  refine ⟨fun a e' ha => ?_, fun a v ha => ?_, hclaim ▸ h.claims, hclaim ▸ h.claim_mem, h.limbo_sub,
    fun β hβ => ?_, fun β hβ => ?_⟩
  · by_cases hap : a = p
    · rw [he, hap, update_self, Option.some.injEq] at ha
      subst ha
      exact (congrArg (· + 1) hcurr).trans (update_self (f := fill) e.block _).symm
    · rw [he, update_of_ne hap] at ha
      rw [update_of_ne (hother (BlockLists.claim_empty ha) (by simpa using hap))]
      exact h.empty a e' ha
  · rw [hv] at ha
    rw [update_of_ne (hother (BlockLists.claim_victim ha) (by simp))]
    exact h.victim a v ha
  · rw [update_of_ne fun heq : β = e.block => hlimbo (heq ▸ hβ)]
    exact h.limbo_full β hβ
  · by_cases hβe : β = e.block
    · rw [hβe, update_self]
      omega
    · rw [update_of_ne hβe]
      exact h.fill_le β hβ

/-- A victim is taken off its list. -/
private theorem eject (h : Stock g l fill limbo) {a : ℕ} {v : VictimBlock}
    (ha : l.victims a = some v)
    (he : l'.empties = l.empties) (hv : l'.victims = update l.victims a none) :
    Stock g l' fill (insert v.block limbo) ∧ v.block ∈ g.blocks \ limbo := by
  have hown := BlockLists.claim_victim ha
  have hmem := h.claim_mem _ _ hown
  have hclaim : l'.claim = update l.claim (.inr a) none := BlockLists.claim_update_victim he hv
  refine ⟨⟨he ▸ h.empty, fun b w hb => ?_, hclaim ▸ h.claims.drop _, fun x β hx => ?_, ?_, ?_,
    h.fill_le⟩, hmem⟩
  · by_cases hba : b = a
    · simp [hv, hba] at hb
    · rw [hv, update_of_ne hba] at hb
      exact h.victim b w hb
  · rw [hclaim] at hx
    have hne : β ≠ v.block := fun heq => h.claims.drop_ne hown x (heq ▸ hx)
    by_cases hxa : x = .inr a
    · simp [hxa] at hx
    · rw [update_of_ne hxa] at hx
      rw [sdiff_insert, mem_erase]
      exact ⟨hne, h.claim_mem x β hx⟩
  · exact insert_subset (mem_sdiff.mp hmem).1 h.limbo_sub
  · intro β hβ
    rcases mem_insert.mp hβ with rfl | hβ
    · exact h.victim a v ha
    · exact h.limbo_full β hβ

/-- An erased block in limbo gets an entry again. -/
private theorem putBack (h : Stock g l fill limbo) {β : ℕ × ℕ} (hβ : β ∈ limbo) {b : ℕ}
    (he : l'.empties = update l.empties b (some ⟨β.1, β.2, 0⟩)) (hv : l'.victims = l.victims) :
    Stock g l' (update fill β 0) (limbo.erase β) := by
  have hclaim : l'.claim = update l.claim (.inl b) (some β) := BlockLists.claim_update_empty he hv
  have hfree : ∀ x, l.claim x ≠ some β := fun x hx => (mem_sdiff.mp (h.claim_mem x β hx)).2 hβ
  have hother : ∀ {x γ}, l.claim x = some γ → γ ≠ β := fun hx heq => hfree _ (heq ▸ hx)
  refine ⟨fun a e ha => ?_, fun a v ha => ?_, ?_, fun x γ hx => ?_, ?_, fun γ hγ => ?_,
    fun γ hγ => ?_⟩
  · by_cases hab : a = b
    · rw [he, hab, update_self, Option.some.injEq] at ha
      subst ha
      exact (update_self (f := fill) β 0).symm
    · rw [he, update_of_ne hab] at ha
      rw [update_of_ne (hother (BlockLists.claim_empty ha))]
      exact h.empty a e ha
  · rw [hv] at ha
    rw [update_of_ne (hother (BlockLists.claim_victim ha))]
    exact h.victim a v ha
  · rw [hclaim]
    exact h.claims.add _ hfree
  · rw [hclaim] at hx
    rw [mem_sdiff, mem_erase, not_and]
    by_cases hxb : x = .inl b
    · rw [hxb, update_self, Option.some.injEq] at hx
      exact ⟨hx ▸ h.limbo_sub hβ, fun hne => absurd hx.symm hne⟩
    · rw [update_of_ne hxb] at hx
      obtain ⟨hmem, hlimbo⟩ := mem_sdiff.mp (h.claim_mem x γ hx)
      exact ⟨hmem, fun _ => hlimbo⟩
  · exact fun γ hγ => h.limbo_sub (mem_of_mem_erase hγ)
  · rw [update_of_ne (ne_of_mem_erase hγ)]
    exact h.limbo_full γ (mem_of_mem_erase hγ)
  · by_cases hγβ : γ = β
    · simp [hγβ]
    · rw [update_of_ne hγβ]
      exact h.fill_le γ hγ

end Stock

/-! ### The list functions -/

theorem insertEmptyBlock_stock (h : Stock g l fill limbo) {β : ℕ × ℕ} (hβ : β ∈ limbo)
    (hrun : insertEmptyBlock g β.1 β.2 l = some l') :
    Stock g l' (update fill β 0) (limbo.erase β) := by
  obtain ⟨⟨h', r'⟩, hpush, rfl⟩ := Option.map_eq_some_iff.mp hrun
  exact h.putBack hβ (sPush_payloads hpush) rfl

theorem ejectVictimBlock_stock (h : Stock g l fill limbo) {p : ℕ} {c : DNode VictimBlock}
    (hc : l.victimHeap.cell p = some c) (hrun : ejectVictimBlock g p l = some l') :
    Stock g l' fill (insert c.val.block limbo) ∧ c.val.block ∈ g.blocks \ limbo := by
  simp only [ejectVictimBlock, Option.bind_eq_bind, Option.bind_eq_some_iff] at hrun
  obtain ⟨c', -, ⟨h', r'⟩, hunlink, heq⟩ := hrun
  cases heq
  exact h.eject (congrArg (Option.map DNode.val) hc) rfl (dUnlink_payloads hunlink)

private theorem retireFullBlock_stock (h : Stock g l fill limbo) {i p : ℕ} {c : SNode EmptyBlock}
    (hc : l.emptyHeap.cell p = some c) (hfull : c.val.currPhyPageNb = g.pageNb)
    (hrun : retireFullBlock g i p l = some l') : Stock g l' fill limbo := by
  simp only [retireFullBlock, insertVictimBlock, hc, Option.bind_eq_bind, Option.bind_some,
    Option.bind_eq_some_iff] at hrun
  obtain ⟨l₁, ⟨⟨h', r'⟩, hpush, heq₁⟩, heq⟩ := hrun
  cases heq₁
  cases heq
  exact h.retire (congrArg (Option.map SNode.val) hc) hfull (Heap.payloads_free p)
    (dPush_payloads hpush)

variable (g) in
/-- What `GET_NEW_PAGE` leaves: a page is the next one of a block that is in use. -/
def GotStock (fill : ℕ × ℕ → ℕ) (limbo : Finset (ℕ × ℕ)) (l : BlockLists) :
    Option EmptyBlock → Prop
  | none => Stock g l fill limbo
  | some e => e.block ∈ g.blocks \ limbo ∧ e.currPhyPageNb = fill e.block ∧
      fill e.block < g.pageNb ∧ Stock g l (update fill e.block (fill e.block + 1)) limbo

private theorem getNewPage_stock {fuel : ℕ} {mode : VictimMode} {mappingIndex : ℕ}
    {taken : Option EmptyBlock} (h : Stock g l fill limbo)
    (hrun : getNewPage g fuel mode mappingIndex l = some (taken, l')) :
    GotStock g fill limbo l' taken := by
  obtain ⟨found, l₁, h₁, hfound, htake⟩ := getNewPage_rule (I := fun l => Stock g l fill limbo)
    (fun _ _ hl => hl.congr rfl rfl)
    (fun _ _ _ _ _ hl hc hfull hrun => retireFullBlock_stock hl hc hfull hrun) h hrun
  cases found with
  | none =>
    cases htake
    exact h₁
  | some p =>
    obtain ⟨c, hc, hne⟩ := hfound p rfl
    have hp : l₁.empties p = some c.val := congrArg (Option.map SNode.val) hc
    have hmem := h₁.claim_mem _ _ (BlockLists.claim_empty hp)
    have hcurr := h₁.empty p c.val hp
    have hle := h₁.fill_le _ (mem_sdiff.mp hmem).1
    simp only [takePage, hc, Option.map_some, Option.some.injEq, Prod.mk.injEq] at htake
    obtain ⟨rfl, rfl⟩ := htake
    refine ⟨hmem, hcurr, by omega, h₁.take hp (by omega) ?_ rfl⟩
    refine (Heap.payloads_modify p _).trans ?_
    rw [hc]
    rfl

theorem hostNewPage_stock {fuel : ℕ} {taken : Option EmptyBlock} (h : Stock g l fill limbo)
    (hrun : hostNewPage g fuel l = some (taken, l')) : GotStock g fill limbo l' taken := by
  rw [hostNewPage] at hrun
  split at hrun <;> exact getNewPage_stock h hrun

theorem gcNewPage_stock {fuel : ℕ} {v : VictimBlock} {taken : Option EmptyBlock}
    (h : Stock g l fill limbo) (hrun : gcNewPage g fuel v l = some (taken, l')) :
    GotStock g fill limbo l' taken := by
  rw [gcNewPage] at hrun
  split at hrun <;> exact getNewPage_stock h hrun

/-! ### Start-up -/

/-- Every entry is an erased block of `B`, and the only one of it. -/
structure Unused (B : Set (ℕ × ℕ)) (h : Heap (SNode EmptyBlock)) : Prop where
  erased : ∀ a e, h.payloads SNode.val a = some e → e.currPhyPageNb = 0 ∧ e.block ∈ B
  claims : Claims fun a => (h.payloads SNode.val a).map EmptyBlock.block

namespace Unused

variable {B C : Set (ℕ × ℕ)} {h h' : Heap (SNode EmptyBlock)}

private theorem mono (hu : Unused B h) (hBC : B ⊆ C) : Unused C h :=
  ⟨fun a e ha => ⟨(hu.erased a e ha).1, hBC (hu.erased a e ha).2⟩, hu.claims⟩

/-- An entry for one more block. -/
private theorem add (hu : Unused B h) {β : ℕ × ℕ} (hβ : β ∉ B) {b : ℕ}
    (hh' : h'.payloads SNode.val = update (h.payloads SNode.val) b (some ⟨β.1, β.2, 0⟩)) :
    Unused (insert β B) h' := by
  have hblocks : (fun a => (h'.payloads SNode.val a).map EmptyBlock.block) =
      update (fun a => (h.payloads SNode.val a).map EmptyBlock.block) b (some β) := by
    funext a
    by_cases hab : a = b
    · simp [hh', hab, EmptyBlock.block]
    · simp [hh', hab]
  refine ⟨fun a e ha => ?_, ?_⟩
  · by_cases hab : a = b
    · rw [hh', hab, update_self, Option.some.injEq] at ha
      subst ha
      exact ⟨rfl, Set.mem_insert _ _⟩
    · rw [hh', update_of_ne hab] at ha
      exact ⟨(hu.erased a e ha).1, Set.mem_insert_of_mem _ (hu.erased a e ha).2⟩
  · rw [hblocks]
    refine hu.claims.add b fun a ha => hβ ?_
    obtain ⟨e, he, rfl⟩ := Option.map_eq_some_iff.mp ha
    exact (hu.erased a e he).2

/-- Building one list adds its blocks. -/
theorem initEmptyBlocks {i j : ℕ} {ks : List ℕ} (hu : Unused B h) (hks : ks.Nodup)
    (hB : ∀ k ∈ ks, (j, k) ∉ B) (r : ListRoot) (t : PageTables) :
    Unused (B ∪ {β | β.1 = j ∧ β.2 ∈ ks}) (initEmptyBlocks g i j ks (h, r, t)).1 := by
  induction ks generalizing h r t B with
  | nil => exact hu.mono Set.subset_union_left
  | cons k ks ih =>
    obtain ⟨hk, hks⟩ := List.nodup_cons.mp hks
    have hset : insert (j, k) B ∪ {β | β.1 = j ∧ β.2 ∈ ks} ⊆
        B ∪ {β | β.1 = j ∧ β.2 ∈ k :: ks} := by
      rintro β ((rfl | hβ) | ⟨hj, hβ⟩)
      · exact .inr ⟨rfl, List.mem_cons_self ..⟩
      · exact .inl hβ
      · exact .inr ⟨hj, List.mem_cons_of_mem _ hβ⟩
    have hnext : ∀ k' ∈ ks, (j, k') ∉ insert (j, k) B := by
      rintro k' hk' (heq | hmem)
      · exact hk ((Prod.mk.inj heq).2 ▸ hk')
      · exact hB k' (List.mem_cons_of_mem _ hk') hmem
    refine (ih (hu.add (hB k (List.mem_cons_self ..)) (b := h.brk) ?_) hks hnext _ _).mono hset
    split
    · exact Heap.payloads_alloc _
    · split
      · exact Heap.payloads_alloc _
      · rename_i p _
        exact (Heap.payloads_relink p (f := SNode.link (some h.brk)) fun c => rfl).trans
          (Heap.payloads_alloc _)

end Unused

/-- **`FTL_INIT`** of a fresh device stocks every block once, erased. -/
theorem ftlInit_stock : Stock g (ftlInit g).lists (fun _ => 0) ∅ := by
  have hu : Unused {β | β ∈ g.blocks ∧ g.listOf β < g.emptyTableEntryNb}
      (ftlInit g).lists.emptyHeap := by
    refine initEmptyBlockList_rule (P := fun m st => Unused {β | β ∈ g.blocks ∧ g.listOf β < m} st.1)
      ⟨by rintro a e ⟨⟩, by rintro a b β ⟨⟩⟩ fun i hi j hj st hst => ?_
    have hlist : ∀ k ∈ planeBlocks g i, (j, k) ∈ g.blocks ∧ g.listOf (j, k) = i * g.flashNb + j :=
      fun k hk => by
        have hβ : (j, k) ∈ g.blocks := g.mem_blocks.mpr ⟨hj, ((mem_planeBlocks hi).mp hk).1⟩
        exact ⟨hβ, (listOf_eq_mul_add hβ hi hj).mpr ⟨rfl, hk⟩⟩
    refine (hst.initEmptyBlocks (nodup_planeBlocks i)
      (fun k hk hmem => absurd hmem.2 (by rw [(hlist k hk).2]; omega)) _ _).mono ?_
    rintro ⟨f, k⟩ (⟨hβ, hlt⟩ | ⟨rfl, hk⟩)
    · exact ⟨hβ, by omega⟩
    · exact ⟨(hlist k hk).1, by rw [(hlist k hk).2]; exact Nat.lt_succ_self _⟩
  have hvictims : (ftlInit g).lists.victims = fun _ => none := rfl
  refine ⟨fun a e ha => (hu.erased a e ha).1, by simp [hvictims], ?_, ?_, empty_subset _, by simp,
    fun _ _ => Nat.zero_le _⟩
  · rintro (a | a) (b | b) β ha hb
    · exact congrArg Sum.inl (hu.claims a b β ha hb)
    · cases hb
    · cases ha
    · cases ha
  · rintro (a | a) β ha
    · obtain ⟨e, he, rfl⟩ := Option.map_eq_some_iff.mp ha
      rw [sdiff_empty]
      exact (hu.erased a e he).2.1
    · cases ha

end Vssim
