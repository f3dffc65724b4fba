import Vssim.Ftl.Refine

/-!
# Start-up establishes the invariant

`FTL_INIT` without a saved state, for a number of planes that divides the number of blocks:
every list root gets the blocks of its plane and chip, all erased, and the count stored with
it is its length. The result represents the empty page store (`ftlInit_inv`).
-/

namespace Vssim

open LinkedHeap Finset

variable {g : Geometry}

/-! ### One list -/

/-- The tables part of the innermost loop does not depend on the lists. -/
private theorem initEmptyBlocks_tables (i j : ℕ) (ks : List ℕ) (h : Heap (SNode EmptyBlock))
    (r : ListRoot) (t : PageTables) : (initEmptyBlocks g i j ks (h, r, t)).2.2 =
      ks.foldl (fun t k => updateBlockState g j k .emptyBlock t) t := by
  induction ks generalizing h r t with
  | nil => rfl
  | cons k ks ih =>
    rw [initEmptyBlocks, List.foldl_cons]
    exact ih _ _ _

/-- Appending blocks to a list that has been started; nothing below `b` is touched. -/
private theorem initEmptyBlocks_append {i j b : ℕ} {ks : List ℕ} (hi : i ∉ ks)
    {h : Heap (SNode EmptyBlock)} {r : ListRoot} {xs : List (ℕ × EmptyBlock)} (hne : xs ≠ [])
    (hseg : SSeg h r.head xs none) (htail : r.tail = lastAddr none xs)
    (hb : ∀ a ∈ addrs xs, b ≤ a) (hbrk : b ≤ h.brk) (t : PageTables)
    {h' : Heap (SNode EmptyBlock)} {r' : ListRoot} {t' : PageTables}
    (hrun : initEmptyBlocks g i j ks (h, r, t) = (h', r', t')) :
    ∃ ys, SSeg h' r'.head (xs ++ ys) none ∧ r'.tail = lastAddr none (xs ++ ys) ∧
      ys.map Prod.snd = ks.map (fun k => ⟨j, k, 0⟩) ∧ (∀ a < b, h'.cell a = h.cell a) ∧
      b ≤ h'.brk := by
  induction ks generalizing h r t xs with
  | nil =>
    cases hrun
    exact ⟨[], by simpa using hseg, by simpa using htail, rfl, fun _ _ => rfl, hbrk⟩
  | cons k ks ih =>
    rw [List.mem_cons, not_or] at hi
    obtain ⟨hik, hiks⟩ := hi
    obtain ⟨us, u, rfl⟩ := (List.eq_nil_or_concat' xs).resolve_left hne
    rw [lastAddr_concat] at htail
    have hu : u.1 ∉ addrs us := hseg.last_notMem
    have hulb : b ≤ u.1 := hb u.1 (by simp)
    have hult : u.1 < h.brk := hseg.lt_brk (by simp)
    rw [initEmptyBlocks, if_neg (fun hki => hik hki.symm), htail] at hrun
    -- the segment after linking the new entry behind the tail
    have hold : SSeg (h.alloc ⟨⟨j, k, 0⟩, none⟩) r.head (us ++ [u]) none :=
      hseg.frame fun a ha => Heap.alloc_cell_of_ne _ _ (by have := hseg.lt_brk ha; omega)
    have hnew : SSeg ((h.alloc ⟨⟨j, k, 0⟩, none⟩).modify u.1 (SNode.link (some h.brk))) r.head
        ((us ++ [u]) ++ [(h.brk, ⟨j, k, 0⟩)]) none := by
      refine SSeg.append_iff.mpr ⟨_, hold.set_last hu (some h.brk), rfl, none, ?_, rfl⟩
      rw [Heap.modify_cell_of_ne _ _ (by omega), Heap.alloc_cell_self]
    obtain ⟨ys, hys, hytail, hyks, hframe, hbrk'⟩ := ih (r := { r with tail := some h.brk }) hiks
      (by simp) hnew (by rw [lastAddr_concat])
      (by
        intro a ha
        simp only [addrs, List.map_append, List.mem_append, List.map_cons, List.map_nil,
          List.mem_singleton] at ha hb
        rcases ha with ha | rfl
        · exact hb a ha
        · exact hbrk) (by simp [Heap.modify, Heap.alloc]; omega) _ hrun
    refine ⟨(h.brk, ⟨j, k, 0⟩) :: ys, by simpa using hys, by simpa using hytail, by simp [hyks],
      fun a ha => ?_, hbrk'⟩
    rw [hframe a ha, Heap.modify_cell_of_ne _ _ (by omega), Heap.alloc_cell_of_ne _ _ (by omega)]

/-- The list of plane `i` on chip `j`, built on a fresh heap region. -/
private theorem initEmptyBlocks_spec {i j : ℕ} {ks : List ℕ} (hi : i ∉ ks)
    (h : Heap (SNode EmptyBlock)) (t : PageTables)
    {h' : Heap (SNode EmptyBlock)} {r' : ListRoot} {t' : PageTables}
    (hrun : initEmptyBlocks g i j (i :: ks) (h, ⟨none, none, 0⟩, t) = (h', r', t')) :
    ∃ ys, SRep h' { r' with count := ks.length + 1 } ys ∧
      ys.map Prod.snd = (i :: ks).map (fun k => ⟨j, k, 0⟩) ∧
      (∀ a < h.brk, h'.cell a = h.cell a) ∧ h.brk ≤ h'.brk := by
  rw [initEmptyBlocks, if_pos rfl] at hrun
  have hone : SSeg (h.alloc ⟨⟨j, i, 0⟩, none⟩) (some h.brk) [(h.brk, ⟨j, i, 0⟩)] none :=
    ⟨rfl, none, by simp, rfl⟩
  obtain ⟨ys, hseg, htail, hks, hframe, hbrk⟩ := initEmptyBlocks_append (b := h.brk) hi
    (by simp) hone rfl (by simp) (by simp [Heap.alloc]) _ hrun
  refine ⟨_, ⟨hseg, ?_, fun _ => htail⟩, by simp [hks], fun a ha => ?_, hbrk⟩
  · have hlen := congrArg List.length hks
    simp only [List.length_map] at hlen
    simp [hlen]
  · rw [hframe a ha, Heap.alloc_cell_of_ne _ _ (by omega)]

/-! ### The blocks of a plane -/

theorem mem_planeBlocks {i k : ℕ} (hi : i < g.planesPerFlash) :
    k ∈ planeBlocks g i ↔ k < g.blockNb ∧ k % g.planesPerFlash = i := by
  have hP := g.planesPerFlash_pos
  -- the number of blocks of the plane is rounded up
  have hround : ∀ n, n < (g.blockNb - i + (g.planesPerFlash - 1)) / g.planesPerFlash ↔
      i + g.planesPerFlash * n < g.blockNb := fun n => by
    rw [← Nat.succ_le_iff, Nat.le_div_iff_mul_le hP, Nat.succ_mul, Nat.mul_comm]
    omega
  rw [planeBlocks, List.mem_range']
  constructor
  · rintro ⟨n, hn, rfl⟩
    exact ⟨(hround n).mp hn, by rw [Nat.add_mul_mod_self_left, Nat.mod_eq_of_lt hi]⟩
  · rintro ⟨hk, rfl⟩
    refine ⟨k / g.planesPerFlash, (hround _).mpr ?_, (Nat.mod_add_div k g.planesPerFlash).symm⟩
    rwa [Nat.mod_add_div]

theorem nodup_planeBlocks (i : ℕ) : (planeBlocks g i).Nodup :=
  List.nodup_range' _ g.planesPerFlash_pos

section Planes

variable (hdvd : g.planesPerFlash ∣ g.blockNb)
include hdvd

theorem planeBlocks_eq {i : ℕ} (hi : i < g.planesPerFlash) :
    planeBlocks g i = List.range' i g.eachEmptyTableEntryNb g.planesPerFlash := by
  obtain ⟨m, hm⟩ := hdvd
  have hP := g.planesPerFlash_pos
  have hB := g.blockNb_pos
  have hm0 : 0 < m := by
    rcases Nat.eq_zero_or_pos m with rfl | h
    · omega
    · exact h
  have heach : g.eachEmptyTableEntryNb = m := by
    rw [Geometry.eachEmptyTableEntryNb, hm, Nat.mul_div_cancel_left _ hP]
  rw [planeBlocks, heach]
  congr 1
  have hle : g.planesPerFlash ≤ g.blockNb := hm ▸ Nat.le_mul_of_pos_right _ hm0
  have hsplit : g.blockNb - i + (g.planesPerFlash - 1) =
      (g.planesPerFlash - 1 - i) + m * g.planesPerFlash := by
    rw [Nat.mul_comm m, ← hm]
    omega
  rw [hsplit, Nat.add_mul_div_right _ _ hP, Nat.div_eq_of_lt (by omega), Nat.zero_add]

private theorem planeBlocks_cons {i : ℕ} (hi : i < g.planesPerFlash) :
    ∃ ks, planeBlocks g i = i :: ks ∧ i ∉ ks ∧ ks.length + 1 = g.eachEmptyTableEntryNb := by
  have hP := g.planesPerFlash_pos
  obtain ⟨n, hn⟩ : ∃ n, g.eachEmptyTableEntryNb = n + 1 := by
    have hpos : 0 < g.eachEmptyTableEntryNb :=
      Nat.div_pos (Nat.le_of_dvd g.blockNb_pos hdvd) hP
    exact ⟨g.eachEmptyTableEntryNb - 1, by omega⟩
  refine ⟨List.range' (i + g.planesPerFlash) n g.planesPerFlash, ?_, ?_, by simp [hn]⟩
  · rw [planeBlocks_eq hdvd hi, hn, List.range'_succ]
  · rw [List.mem_range']
    rintro ⟨m, -, hm⟩
    omega

end Planes

/-! ### All lists -/

/-- Erasing the blocks `ks` of chip `j`. -/
private theorem resetBlocks_spec {j : ℕ} (hj : j < g.flashNb) {ks : List ℕ}
    (hks : ∀ k ∈ ks, k < g.blockNb) (t : PageTables) {t' : PageTables}
    (ht' : t' = ks.foldl (fun t k => updateBlockState g j k .emptyBlock t) t) :
    t'.mappingTable = t.mappingTable ∧ t'.inverseMappingTable = t.inverseMappingTable ∧
      (∀ r, g.IsPage r →
        t'.cellAt g r = if r.1.1 = j ∧ r.1.2 ∈ ks then .empty else t.cellAt g r) ∧
      (t.CountsOk g → t'.CountsOk g) := by
  induction ks generalizing t with
  | nil =>
    subst ht'
    exact ⟨rfl, rfl, fun r _ => by simp, id⟩
  | cons k ks ih =>
    have hβ : (j, k) ∈ g.blocks := g.mem_blocks.mpr ⟨hj, hks k (by simp)⟩
    obtain ⟨hmap, hinv, hcell, hcounts⟩ := updateBlockState_empty_spec hβ t rfl
    obtain ⟨hmap', hinv', hcell', hcounts'⟩ :=
      ih (fun m hm => hks m (List.mem_cons_of_mem _ hm)) _ ht'
    refine ⟨hmap'.trans hmap, hinv'.trans hinv, fun r hr => ?_, fun h => hcounts' (hcounts h)⟩
    rw [hcell' r hr, hcell r hr]
    by_cases hrj : r.1.1 = j
    · by_cases hrk : r.1.2 = k
      · simp [Prod.ext_iff, hrj, hrk]
      · simp [Prod.ext_iff, hrj, hrk]
    · simp [Prod.ext_iff, hrj]

variable (g) in
/-- The body of the nested loops of `INIT_EMPTY_BLOCK_LIST`. -/
def buildList (i : ℕ) (st : Heap (SNode EmptyBlock) × (ℕ → ListRoot) × PageTables)
    (j : ℕ) : Heap (SNode EmptyBlock) × (ℕ → ListRoot) × PageTables :=
  let r := initEmptyBlocks g i j (planeBlocks g i) (st.1, ⟨none, none, 0⟩, st.2.2)
  (r.1, Function.update st.2.1 (i * g.flashNb + j)
    { r.2.1 with count := g.eachEmptyTableEntryNb }, r.2.2)

private theorem initEmptyBlockList_eq (t : PageTables) : initEmptyBlockList g t =
    (List.range g.planesPerFlash).foldl
      (fun st i => (List.range g.flashNb).foldl (buildList g i) st)
      (Heap.empty, fun _ => ⟨none, none, 0⟩, t) := rfl

/-- **Rule for the nested loops**: what building one more list extends holds of all lists. -/
theorem initEmptyBlockList_rule
    {P : ℕ → Heap (SNode EmptyBlock) × (ℕ → ListRoot) × PageTables → Prop} {t : PageTables}
    (h0 : P 0 (Heap.empty, fun _ => ⟨none, none, 0⟩, t))
    (hstep : ∀ i < g.planesPerFlash, ∀ j < g.flashNb, ∀ st, P (i * g.flashNb + j) st →
      P (i * g.flashNb + j + 1) (buildList g i st j)) :
    P g.emptyTableEntryNb (initEmptyBlockList g t) := by
  have hchips : ∀ i < g.planesPerFlash, ∀ n ≤ g.flashNb, ∀ st, P (i * g.flashNb) st →
      P (i * g.flashNb + n) ((List.range n).foldl (buildList g i) st) := by
    intro i hi n hn st hst
    induction n with
    | zero => exact hst
    | succ n ih =>
      rw [List.range_succ, List.foldl_append]
      exact hstep i hi n hn _ (ih (by omega))
  have hplanes : ∀ n ≤ g.planesPerFlash, P (n * g.flashNb) ((List.range n).foldl
      (fun st i => (List.range g.flashNb).foldl (buildList g i) st)
      (Heap.empty, fun _ => ⟨none, none, 0⟩, t)) := by
    intro n hn
    induction n with
    | zero => simpa using h0
    | succ n ih =>
      rw [List.range_succ, List.foldl_append, Nat.succ_mul]
      exact hchips n hn _ le_rfl _ (ih (by omega))
  rw [initEmptyBlockList_eq, Geometry.emptyTableEntryNb, Nat.mul_comm]
  exact hplanes _ le_rfl

/-- Every list starts with the same count, whatever its length. -/
theorem ftlInit_count {x : ℕ} (hx : x < g.emptyTableEntryNb) :
    ((ftlInit g).lists.emptyBlockList x).count = g.eachEmptyTableEntryNb := by
  refine initEmptyBlockList_rule
    (P := fun m st => ∀ x < m, (st.2.1 x).count = g.eachEmptyTableEntryNb)
    (fun x hx => absurd hx (Nat.not_lt_zero x)) (fun i _ j _ st hst x hx => ?_) x hx
  rcases Nat.lt_succ_iff_lt_or_eq.mp hx with hlt | rfl
  · simp only [buildList, Function.update_of_ne (Nat.ne_of_lt hlt)]
    exact hst x hlt
  · simp only [buildList, Function.update_self]

/-! ### The tables -/

theorem listOf_eq_iff {β : ℕ × ℕ} (hβ : β.1 < g.flashNb) {x : ℕ} :
    g.listOf β = x ↔ β.2 % g.planesPerFlash = x / g.flashNb ∧ β.1 = x % g.flashNb := by
  have hF := g.flashNb_pos
  rw [Geometry.listOf, Geometry.mappingIndex]
  constructor
  · rintro rfl
    rw [Nat.add_comm, Nat.add_mul_div_right _ _ hF, Nat.div_eq_of_lt hβ, Nat.zero_add,
      Nat.add_mul_mod_self_right, Nat.mod_eq_of_lt hβ]
    exact ⟨rfl, rfl⟩
  · rintro ⟨hq, hr⟩
    rw [hq, hr, Nat.mul_comm]
    exact Nat.div_add_mod x g.flashNb

/-- The list of chip `j` and plane `i` is the one of its blocks. -/
theorem listOf_eq_mul_add {β : ℕ × ℕ} (hβ : β ∈ g.blocks) {i j : ℕ} (hi : i < g.planesPerFlash)
    (hj : j < g.flashNb) : g.listOf β = i * g.flashNb + j ↔ β.1 = j ∧ β.2 ∈ planeBlocks g i := by
  obtain ⟨hf, hb⟩ := g.mem_blocks.mp hβ
  have hdiv : (i * g.flashNb + j) / g.flashNb = i := by
    rw [Nat.add_comm, Nat.add_mul_div_right _ _ g.flashNb_pos, Nat.div_eq_of_lt hj, Nat.zero_add]
  have hmod : (i * g.flashNb + j) % g.flashNb = j := by
    rw [Nat.add_comm, Nat.add_mul_mod_self_right, Nat.mod_eq_of_lt hj]
  rw [listOf_eq_iff hf, hdiv, hmod, mem_planeBlocks hi]
  tauto

variable (g) in
/-- The blocks of the first `m` lists are erased and nothing is mapped. -/
private structure Erased (m : ℕ) (t : PageTables) : Prop where
  map : t.mappingTable = fun _ => -1
  inverse : t.inverseMappingTable = fun _ => -1
  cells : ∀ q, g.IsPage q → g.listOf q.1 < m → t.cellAt g q = .empty
  counts : t.CountsOk g

private theorem Erased.step {i j : ℕ} (hi : i < g.planesPerFlash) (hj : j < g.flashNb)
    {st : Heap (SNode EmptyBlock) × (ℕ → ListRoot) × PageTables}
    (h : Erased g (i * g.flashNb + j) st.2.2) :
    Erased g (i * g.flashNb + j + 1) (buildList g i st j).2.2 := by
  obtain ⟨hmap, hinv, hcell, hcounts⟩ := resetBlocks_spec hj
    (fun k hk => ((mem_planeBlocks hi).mp hk).1) st.2.2
    (initEmptyBlocks_tables (g := g) i j (planeBlocks g i) st.1 ⟨none, none, 0⟩ st.2.2)
  refine ⟨hmap.trans h.map, hinv.trans h.inverse, fun q hq hlt => ?_, hcounts h.counts⟩
  refine (hcell q hq).trans ?_
  split
  · rfl
  · rename_i hne
    rw [← listOf_eq_mul_add hq.1 hi hj] at hne
    exact h.cells q hq (by omega)

private theorem countValid_nul (n : ℕ) : countValid (fun _ => .nul) n = 0 := by
  induction n with
  | zero => rfl
  | succ n ih => simp [countValid, ih]

private theorem ftlInit_erased : Erased g g.emptyTableEntryNb (ftlInit g).tables :=
  initEmptyBlockList_rule (P := fun m st => Erased g m st.2.2)
    (t := { mappingTable := fun _ => -1
            inverseMappingTable := fun _ => -1
            blockStateTable := fun _ => ⟨0, .emptyBlock, fun _ => .nul⟩ })
    ⟨rfl, rfl, fun _ _ h0 => absurd h0 (Nat.not_lt_zero _),
      fun _ _ => (countValid_nul g.pageNb).symm⟩
    fun _ hi _ hj _ hst => hst.step hi hj

/-- A fresh device maps nothing and has every page erased. -/
theorem ftlInit_tables : (ftlInit g).tables.mappingTable = (fun _ => -1) ∧
    (∀ q, g.IsPage q → (ftlInit g).tables.cellAt g q = .empty) ∧
    (ftlInit g).tables.CountsOk g :=
  ⟨ftlInit_erased.map, fun q hq => ftlInit_erased.cells q hq (g.listOf_lt hq.1),
    ftlInit_erased.counts⟩

theorem ftlInit_inverse : (ftlInit g).tables.inverseMappingTable = fun _ => -1 :=
  ftlInit_erased.inverse

/-! ### The lists -/

variable (g) in
/-- The first `m` lists are built. -/
def Built (m : ℕ) (st : Heap (SNode EmptyBlock) × (ℕ → ListRoot) × PageTables) : Prop :=
  ∃ M : ℕ → List (ℕ × EmptyBlock), ∀ x < m, SRep st.1 (st.2.1 x) (M x) ∧
    (M x).map Prod.snd = (planeBlocks g (x / g.flashNb)).map fun k => ⟨x % g.flashNb, k, 0⟩

private theorem Built.step (hdvd : g.planesPerFlash ∣ g.blockNb) {i j : ℕ}
    (hi : i < g.planesPerFlash) (hj : j < g.flashNb)
    {st : Heap (SNode EmptyBlock) × (ℕ → ListRoot) × PageTables}
    (h : Built g (i * g.flashNb + j) st) :
    Built g (i * g.flashNb + j + 1) (buildList g i st j) := by
  have hdiv : (i * g.flashNb + j) / g.flashNb = i := by
    rw [Nat.add_comm, Nat.add_mul_div_right _ _ g.flashNb_pos, Nat.div_eq_of_lt hj, Nat.zero_add]
  have hmod : (i * g.flashNb + j) % g.flashNb = j := by
    rw [Nat.add_comm, Nat.add_mul_mod_self_right, Nat.mod_eq_of_lt hj]
  obtain ⟨ks, hks, hiks, hlen⟩ := planeBlocks_cons hdvd hi
  obtain ⟨h', r', t', hrun⟩ : ∃ h' r' t',
      initEmptyBlocks g i j (planeBlocks g i) (st.1, ⟨none, none, 0⟩, st.2.2) = (h', r', t') :=
    ⟨_, _, _, rfl⟩
  rw [hks] at hrun
  obtain ⟨ys, hrep, hys, hframe, -⟩ := initEmptyBlocks_spec hiks st.1 st.2.2 hrun
  obtain ⟨M, hM⟩ := h
  have hst : buildList g i st j = (h', Function.update st.2.1 (i * g.flashNb + j)
      { r' with count := g.eachEmptyTableEntryNb }, t') := by
    rw [buildList, hks, hrun]
  rw [hst]
  refine ⟨Function.update M (i * g.flashNb + j) ys, fun x hx => ?_⟩
  rcases Nat.lt_succ_iff_lt_or_eq.mp hx with hx | rfl
  · obtain ⟨hrep', hys'⟩ := hM x hx
    simp only [Function.update_of_ne (Nat.ne_of_lt hx)]
    exact ⟨hrep'.frame fun a ha => hframe a (hrep'.seg.lt_brk ha), hys'⟩
  · simp only [Function.update_self, hdiv, hmod]
    exact ⟨hlen ▸ hrep, hks ▸ hys⟩

/-! ### The empty store -/

/-- The store before the first request: nothing mapped, nothing handed out. -/
def emptyStore : Store where
  map _ := none
  fill _ := 0
  limbo := ∅

theorem ftlInit_tableInv :
    TableInv g (ftlInit g).tables emptyStore.map emptyStore.fill emptyStore.limbo := by
  obtain ⟨hmap, hcell, hcounts⟩ := ftlInit_tables (g := g)
  refine ⟨fun q hq => ?_, hcounts, fun lpn _ => congrFun hmap lpn, fun lpn q hq => ?_,
    fun q hq _ hv => ?_⟩
  · simp [hcell q hq, emptyStore]
  · simp [emptyStore] at hq
  · rw [hcell q hq] at hv
    cases hv

private theorem emptyStore_placed
    {M : ℕ → List (ℕ × EmptyBlock)}
    (hM : ∀ x < g.emptyTableEntryNb, (M x).map Prod.snd =
      (planeBlocks g (x / g.flashNb)).map fun k => ⟨x % g.flashNb, k, 0⟩) :
    Placed g ⟨M, fun _ => []⟩ emptyStore.fill emptyStore.limbo := by
  have hF := g.flashNb_pos
  have hplane : ∀ x < g.emptyTableEntryNb, x / g.flashNb < g.planesPerFlash := fun x hx => by
    rw [Nat.div_lt_iff_lt_mul hF, Nat.mul_comm]
    exact hx
  have hblocks : ∀ x < g.emptyTableEntryNb, ListView.blocks ⟨M, fun _ => []⟩ x =
      (planeBlocks g (x / g.flashNb)).map fun k => (x % g.flashNb, k) := fun x hx => by
    have hmap := congrArg (List.map EmptyBlock.block) (hM x hx)
    simp only [List.map_map] at hmap
    simp only [ListView.blocks, ListView.emptyBlocks, ListView.victimBlocks, List.map_nil,
      List.append_nil]
    exact hmap
  have hzero : ∀ x < g.emptyTableEntryNb, ∀ y ∈ M x, y.2.currPhyPageNb = 0 := by
    intro x hx y hy
    have hmem : y.2 ∈ (M x).map Prod.snd := List.mem_map_of_mem hy
    rw [hM x hx] at hmem
    obtain ⟨k, -, hk⟩ := List.mem_map.mp hmem
    rw [← hk]
  refine ⟨⟨fun β hβ => g.listOf_lt (mem_sdiff.mp hβ).1, fun x hx => ?_, fun x hx β => ?_⟩,
    hzero, fun _ _ _ _ => rfl, by simp, by simp [emptyStore], by simp [emptyStore],
    fun _ _ => Nat.zero_le _⟩
  · rw [hblocks x hx]
    exact (nodup_planeBlocks _).map fun a b hab => (Prod.mk.inj hab).2
  · rw [hblocks x hx, List.mem_map]
    simp only [emptyStore, sdiff_empty, g.mem_blocks]
    constructor
    · rintro ⟨k, hk, rfl⟩
      obtain ⟨hkB, hkmod⟩ := (mem_planeBlocks (hplane x hx)).mp hk
      have hlt := Nat.mod_lt x hF
      exact ⟨⟨hlt, hkB⟩, (listOf_eq_iff hlt).mpr ⟨hkmod, rfl⟩⟩
    · rintro ⟨⟨hβ₁, hβ₂⟩, hlist⟩
      obtain ⟨hmod, hchip⟩ := (listOf_eq_iff hβ₁).mp hlist
      exact ⟨β.2, (mem_planeBlocks (hplane x hx)).mpr ⟨hβ₂, hmod⟩, by rw [← hchip]⟩

/-- The lists of a fresh device hold the erased blocks of their planes, in order. -/
theorem ftlInit_lists (hdvd : g.planesPerFlash ∣ g.blockNb) :
    ∃ L, ListInv g (ftlInit g).lists L emptyStore.fill emptyStore.limbo ∧
      ∀ x < g.emptyTableEntryNb, (L.empty x).map Prod.snd =
        (planeBlocks g (x / g.flashNb)).map fun k => ⟨x % g.flashNb, k, 0⟩ := by
  obtain ⟨M, hM⟩ := initEmptyBlockList_rule (P := Built g)
    (t := { mappingTable := fun _ => -1
            inverseMappingTable := fun _ => -1
            blockStateTable := fun _ => ⟨0, .emptyBlock, fun _ => .nul⟩ })
    ⟨fun _ => [], fun x hx => absurd hx (Nat.not_lt_zero x)⟩
    fun _ hi _ hj _ hst => hst.step hdvd hi hj
  have hplaced := emptyStore_placed fun x hx => (hM x hx).2
  refine ⟨⟨M, fun _ => []⟩, ⟨⟨fun x hx => (hM x hx).1, fun x hx => ⟨rfl, rfl, rfl⟩, ?_, ?_⟩,
    hplaced, g.emptyTableEntryNb_pos⟩, fun x hx => (hM x hx).2⟩
  · -- the total counts every block of the device once
    have hsum := hplaced.buckets.sum_length
    simp only [ListView.blocks, ListView.emptyBlocks, ListView.victimBlocks, List.map_nil,
      List.append_nil, List.length_map, emptyStore, sdiff_empty] at hsum
    rw [hsum, Geometry.blocks, card_product, card_range, card_range, Nat.mul_comm]
    rfl
  · simp [ftlInit]

/-- **`FTL_INIT`** of a fresh device represents the empty store. -/
theorem ftlInit_inv (hdvd : g.planesPerFlash ∣ g.blockNb) : FtlInv g (ftlInit g) emptyStore := by
  obtain ⟨L, h, -⟩ := ftlInit_lists hdvd
  exact ⟨⟨L, h⟩, ftlInit_tableInv⟩

end Vssim
