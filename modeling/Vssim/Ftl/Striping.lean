import Vssim.Ftl.Allocation

/-!
# Striping

Which page call number `n` of `GET_NEW_PAGE(VICTIM_OVERALL, ...)` returns on a fresh device. The
lists are served in turn, one page each, so call `n` takes a page of list `n % E`, where `E` is the
number of lists, and it is page number `n / E` of that list (`stripe`).

The allocator stays in step with this although it also moves to the next list when it retires a full
block without taking a page: all lists run full in the same round, and the first call after that
retires the heads of all lists and is back at the first list (`sweep`). The contents of all lists
before each call are those of `stocked`, and one call takes them to those of the next
(`getNewPage_stripe`).
-/

namespace Vssim

open LinkedHeap Finset

variable (g : Geometry)

/-- The page of call number `n`, as the entry it is taken from. -/
def stripe (n : ℕ) : EmptyBlock where
  phyFlashNb := n % g.emptyTableEntryNb % g.flashNb
  phyBlockNb := n % g.emptyTableEntryNb / g.flashNb +
    g.planesPerFlash * (n / (g.emptyTableEntryNb * g.pageNb))
  currPhyPageNb := n / g.emptyTableEntryNb % g.pageNb

/-! ### Contents of the lists -/

/-- The blocks of list `x` from number `d` on, erased. -/
def erasedFrom (x d : ℕ) : List EmptyBlock :=
  (List.range' (x / g.flashNb + g.planesPerFlash * d) (g.eachEmptyTableEntryNb - d)
    g.planesPerFlash).map fun k => ⟨x % g.flashNb, k, 0⟩

/-- What is left of list `x` when its first `d` blocks have been retired and `c` pages of the next
one have been handed out. -/
def column (x d c : ℕ) : List EmptyBlock :=
  ⟨x % g.flashNb, x / g.flashNb + g.planesPerFlash * d, c⟩ :: erasedFrom g x (d + 1)

/-- The number of pages of list `x` that the first `n` calls have handed out. -/
def servedPages (n x : ℕ) : ℕ :=
  n / g.emptyTableEntryNb + if x < n % g.emptyTableEntryNb then 1 else 0

/-- The lists after `n` calls, with `d` blocks of each retired. -/
def stocked (d n x : ℕ) : List EmptyBlock := column g x d (servedPages g n x - d * g.pageNb)

/-- The entries of the empty lists are those of `col`. -/
def Loaded (l : BlockLists) (col : ℕ → List EmptyBlock) : Prop :=
  ∃ L, Filed g l L ∧ ∀ x < g.emptyTableEntryNb, (L.empty x).map Prod.snd = col x

variable {g} {l l' : BlockLists} {col col' : ℕ → List EmptyBlock} {n d fuel mappingIndex : ℕ}

private theorem Loaded.congr (h : Loaded g l col)
    (hcol : ∀ x < g.emptyTableEntryNb, col x = col' x) : Loaded g l col' := by
  obtain ⟨L, hL, heq⟩ := h
  exact ⟨L, hL, fun x hx => (heq x hx).trans (hcol x hx)⟩

private theorem erasedFrom_eq (x : ℕ) (hd : d < g.eachEmptyTableEntryNb) :
    erasedFrom g x d = column g x d 0 := by
  obtain ⟨k, hk⟩ : ∃ k, g.eachEmptyTableEntryNb = d + (k + 1) :=
    ⟨g.eachEmptyTableEntryNb - d - 1, by omega⟩
  rw [column, erasedFrom, erasedFrom, hk, Nat.add_sub_cancel_left, List.range'_succ, List.map_cons,
    Nat.add_assoc, ← Nat.mul_succ, Nat.add_comm k, ← Nat.add_assoc, Nat.add_sub_cancel_left]

private theorem servedPages_succ {x : ℕ} (hx : x < g.emptyTableEntryNb) :
    servedPages g (n + 1) x = servedPages g n x + if x = n % g.emptyTableEntryNb then 1 else 0 := by
  have hlt := Nat.mod_lt n g.emptyTableEntryNb_pos
  have hn := Nat.div_add_mod n g.emptyTableEntryNb
  obtain ⟨q, hq⟩ : ∃ q, q = n / g.emptyTableEntryNb := ⟨_, rfl⟩
  obtain ⟨r, hr⟩ : ∃ r, r = n % g.emptyTableEntryNb := ⟨_, rfl⟩
  rw [servedPages, servedPages, ← hq, ← hr]
  rw [← hq, ← hr] at hn
  rw [← hr] at hlt
  by_cases hwrap : r + 1 = g.emptyTableEntryNb
  · have hn' : n + 1 = g.emptyTableEntryNb * (q + 1) := by rw [Nat.mul_succ]; omega
    rw [hn', Nat.mul_div_cancel_left _ g.emptyTableEntryNb_pos, Nat.mul_mod_right,
      if_neg (Nat.not_lt_zero x)]
    split <;> split <;> omega
  · have hn' : n + 1 = g.emptyTableEntryNb * q + (r + 1) := by omega
    have hlt' : r + 1 < g.emptyTableEntryNb := by omega
    rw [hn', Nat.mul_add_div g.emptyTableEntryNb_pos, Nat.div_eq_of_lt hlt', Nat.mul_add_mod,
      Nat.mod_eq_of_lt hlt']
    split <;> split <;> split <;> omega

/-! ### One round of the search -/

/-- The next list in turn. -/
private theorem advanceTableIndex_eq (hi : l.emptyBlockTableIndex < g.emptyTableEntryNb) :
    (advanceTableIndex g l).emptyBlockTableIndex =
      (l.emptyBlockTableIndex + 1) % g.emptyTableEntryNb := by
  rw [advanceTableIndex]
  dsimp only
  split
  · next hwrap => rw [hwrap, Nat.mod_self]
  · rw [Nat.mod_eq_of_lt (by omega)]

/-- The search over all chips, up to the entry it finds. -/
private theorem getNewPage_overall : getNewPage g fuel .overall mappingIndex l =
    (getEmptyBlockLoop g .overall mappingIndex fuel mappingIndex l).bind fun x =>
      takePage x.1 x.2 := by
  simp only [getNewPage, getEmptyBlock, reduceCtorEq, false_and, if_false, Option.bind_eq_bind,
    Option.bind_some]

namespace Loaded

/-- What the search finds in the list whose turn it is. -/
private theorem head (h : Loaded g l col) {i : ℕ} (hi : i < g.emptyTableEntryNb) {e : EmptyBlock}
    {es : List EmptyBlock} (hcol : col i = e :: es) :
    ∃ L p xs n, Filed g l L ∧ (∀ x < g.emptyTableEntryNb, (L.empty x).map Prod.snd = col x) ∧
      (L.empty i = (p, e) :: xs ∧ xs.map Prod.snd = es) ∧ l.totalEmptyBlockNb ≠ 0 ∧
      (l.emptyBlockList i).count ≠ 0 ∧ (l.emptyBlockList i).head = some p ∧
      l.emptyHeap.cell p = some ⟨e, n⟩ := by
  obtain ⟨L, hL, heq⟩ := h
  have hlist := heq i hi
  rw [hcol] at hlist
  rcases hL.rep.head_cases hi with ⟨-, hnil⟩ | ⟨p, e', xs, n, hxs, hcount, hhead, hcell⟩
  · simp [hnil] at hlist
  · rw [hxs, List.map_cons, List.cons.injEq] at hlist
    obtain ⟨rfl, hes⟩ := hlist
    exact ⟨L, p, xs, n, hL, heq, ⟨hxs, hes⟩, (hL.rep.totalEmpty_pos hi (by simp [hxs])).ne', hcount,
      hhead, hcell⟩

/-- Replacing one list. -/
private theorem set {L : ListView}
    (heq : ∀ x < g.emptyTableEntryNb, (L.empty x).map Prod.snd = col x)
    {i : ℕ} {xs : List (ℕ × EmptyBlock)} {ys : List (ℕ × VictimBlock)}
    (hL : Filed g l' (L.set i xs ys)) : Loaded g l' (Function.update col i (xs.map Prod.snd)) := by
  refine ⟨_, hL, fun x hx => ?_⟩
  by_cases hxi : x = i
  · rw [hxi, ListView.set_empty_self, Function.update_self]
  · rw [ListView.set_empty_of_ne hxi, Function.update_of_ne hxi, heq x hx]

variable {i : ℕ} {e : EmptyBlock} {es : List EmptyBlock}

/-- A full head is retired, and it is the turn of the next list. -/
private theorem retire (h : Loaded g l col) (hindex : l.emptyBlockTableIndex = i)
    (hi : i < g.emptyTableEntryNb) (hcol : col i = e :: es) (hfull : e.currPhyPageNb = g.pageNb)
    (inputIndex fuel mappingIndex : ℕ) :
    ∃ l', getEmptyBlockLoop g .overall inputIndex (fuel + 1) mappingIndex l =
        getEmptyBlockLoop g .overall inputIndex fuel mappingIndex l' ∧
      Loaded g l' (Function.update col i es) ∧
      l'.emptyBlockTableIndex = (i + 1) % g.emptyTableEntryNb := by
  obtain ⟨L, p, xs, n, hL, heq, ⟨hxs, rfl⟩, h0, hcount, hhead, hcell⟩ := h.head hi hcol
  obtain ⟨l', ys, hretire, hL', hindex', -⟩ := hL.retire hi hxs
  rw [hindex] at hindex'
  refine ⟨advanceTableIndex g l', ?_, .set heq (hL'.setIndex _), ?_⟩
  · rw [getEmptyBlockLoop]
    simp only [h0, if_false, hindex, hcount, hhead, hcell, Option.bind_eq_bind, Option.bind_some,
      hfull, if_true, hretire]
  · rw [advanceTableIndex_eq (hindex'.symm ▸ hi), hindex']

/-- A head that is not full gives its next page, and it is the turn of the next list. -/
private theorem take (h : Loaded g l col) (hindex : l.emptyBlockTableIndex = i)
    (hi : i < g.emptyTableEntryNb) (hcol : col i = e :: es) (hlt : e.currPhyPageNb < g.pageNb)
    (fuel mappingIndex : ℕ) :
    ∃ l', getNewPage g (fuel + 1) .overall mappingIndex l = some (some e, l') ∧
      Loaded g l'
        (Function.update col i ({ e with currPhyPageNb := e.currPhyPageNb + 1 } :: es)) ∧
      l'.emptyBlockTableIndex = (i + 1) % g.emptyTableEntryNb := by
  obtain ⟨L, p, xs, n, hL, heq, ⟨hxs, rfl⟩, h0, hcount, hhead, hcell⟩ := h.head hi hcol
  have hL' := (hL.setIndex (advanceTableIndex g l).emptyBlockTableIndex).take hi hxs hlt
  refine ⟨_, ?_, .set heq hL', by rw [advanceTableIndex_eq (hindex.symm ▸ hi), hindex]⟩
  rw [getNewPage_overall, getEmptyBlockLoop]
  simp only [h0, if_false, hindex, hcount, hhead, hcell, Option.bind_eq_bind, Option.bind_some,
    hlt.ne, takePage, advanceTableIndex, Option.map_some]

/-- **When all lists have run full** the search retires all their heads and is back at the first
list. -/
theorem sweep (h : Loaded g l fun x => column g x d g.pageNb) (h0 : l.emptyBlockTableIndex = 0)
    (hd : d + 1 < g.eachEmptyTableEntryNb) (inputIndex mappingIndex : ℕ)
    (hi : i ≤ g.emptyTableEntryNb) (fuel : ℕ) :
    ∃ l', getEmptyBlockLoop g .overall inputIndex (fuel + i) mappingIndex l =
        getEmptyBlockLoop g .overall inputIndex fuel mappingIndex l' ∧
      Loaded g l' (fun x => if x < i then column g x (d + 1) 0 else column g x d g.pageNb) ∧
      l'.emptyBlockTableIndex = i % g.emptyTableEntryNb := by
  induction i generalizing fuel with
  | zero => exact ⟨l, rfl, by simpa using h, by rw [h0, Nat.zero_mod]⟩
  | succ i ih =>
    obtain ⟨l₁, hloop, h₁, hindex⟩ := ih (Nat.le_of_succ_le hi) (fuel + 1)
    rw [Nat.mod_eq_of_lt hi] at hindex
    have hcol : (if i < i then column g i (d + 1) 0 else column g i d g.pageNb) = _ :=
      if_neg (lt_irrefl i)
    obtain ⟨l₂, hround, h₂, hindex₂⟩ := h₁.retire hindex hi hcol rfl inputIndex fuel mappingIndex
    refine ⟨l₂, ?_, h₂.congr fun x _ => ?_, hindex₂⟩
    · rw [← hround, ← hloop, Nat.add_right_comm, Nat.add_assoc]
    · by_cases hx : x = i
      · rw [hx, Function.update_self, if_pos (Nat.lt_succ_self i), erasedFrom_eq i hd]
      · rw [Function.update_of_ne hx]
        exact if_congr (by omega) rfl rfl

end Loaded

/-! ### One call after the other -/

variable (g) in
/-- The lists before call number `n`. Full heads are still on their lists. -/
structure Striped (n : ℕ) (l : BlockLists) : Prop where
  loaded : Loaded g l (stocked g ((n - 1) / (g.emptyTableEntryNb * g.pageNb)) n)
  index : l.emptyBlockTableIndex = n % g.emptyTableEntryNb

/-- The pages of the device, list by list. -/
private theorem pageMappingEntryNb_eq (hdvd : g.planesPerFlash ∣ g.blockNb) : g.pageMappingEntryNb =
    g.emptyTableEntryNb * g.pageNb * g.eachEmptyTableEntryNb := by
  rw [Geometry.pageMappingEntryNb, ← Nat.mul_div_cancel' hdvd, Geometry.emptyTableEntryNb,
    Geometry.eachEmptyTableEntryNb]
  ring

/-- When all lists have had the same whole number `k` of blocks. -/
private theorem servedPages_mul (k x : ℕ) :
    servedPages g (g.emptyTableEntryNb * g.pageNb * k) x = k * g.pageNb := by
  rw [servedPages, Nat.mul_assoc, Nat.mul_div_cancel_left _ g.emptyTableEntryNb_pos,
    Nat.mul_mod_right, if_neg (Nat.not_lt_zero x), Nat.add_zero, Nat.mul_comm]

/-- Before it takes its page, a call may have to retire the heads of all lists. -/
private theorem Striped.retires (h : Striped g n l) (hdvd : g.planesPerFlash ∣ g.blockNb)
    (hn : n < g.pageMappingEntryNb) (hfuel : g.emptyTableEntryNb < fuel) (mappingIndex : ℕ) :
    ∃ fuel' l', getNewPage g fuel .overall mappingIndex l =
        getNewPage g (fuel' + 1) .overall mappingIndex l' ∧
      Loaded g l' (stocked g (n / (g.emptyTableEntryNb * g.pageNb)) n) ∧
      l'.emptyBlockTableIndex = n % g.emptyTableEntryNb := by
  obtain ⟨hload, hindex⟩ := h
  by_cases hsame : n / (g.emptyTableEntryNb * g.pageNb) =
    (n - 1) / (g.emptyTableEntryNb * g.pageNb)
  · exact ⟨fuel - 1, l, by rw [Nat.sub_add_cancel (by omega)], hsame ▸ hload, hindex⟩
  -- the call before has filled the last of the heads
  obtain ⟨n, rfl⟩ : ∃ n', n = n' + 1 :=
    Nat.exists_eq_succ_of_ne_zero (by rintro rfl; exact hsame rfl)
  rw [Nat.add_sub_cancel] at hload hsame
  have hfull : g.emptyTableEntryNb * g.pageNb ∣ n + 1 := by
    by_contra hfull
    exact hsame (Nat.succ_div_of_not_dvd hfull)
  have hdiv := Nat.succ_div_of_dvd hfull
  have hmul := Nat.mul_div_cancel' hfull
  obtain ⟨d, hd⟩ : ∃ d, d = n / (g.emptyTableEntryNb * g.pageNb) := ⟨_, rfl⟩
  rw [← hd] at hdiv hload
  rw [hdiv] at hmul
  have hlt : d + 1 < g.eachEmptyTableEntryNb := by
    rw [← hdiv]
    exact Nat.div_lt_of_lt_mul (pageMappingEntryNb_eq hdvd ▸ hn)
  have hmod : (n + 1) % g.emptyTableEntryNb = 0 :=
    Nat.mod_eq_zero_of_dvd ((Nat.dvd_mul_right _ _).trans hfull)
  have hload' : Loaded g l fun x => column g x d g.pageNb := hload.congr fun x _ => by
    rw [stocked, ← hmul, servedPages_mul, Nat.succ_mul, Nat.add_sub_cancel_left]
  obtain ⟨l', hloop, hsweep, hindex'⟩ := hload'.sweep (hindex.trans hmod) hlt mappingIndex
    mappingIndex le_rfl (fuel - g.emptyTableEntryNb - 1 + 1)
  refine ⟨fuel - g.emptyTableEntryNb - 1, l', ?_, hsweep.congr fun x hx => ?_, ?_⟩
  · rw [getNewPage_overall, getNewPage_overall, ← hloop]
    congr 2
    omega
  · rw [if_pos hx, stocked, hdiv, ← hmul, servedPages_mul, Nat.sub_self]
  · rw [hindex', Nat.mod_self, hmod]

/-- **Call number `n`** takes the page of its stripe. -/
theorem getNewPage_stripe (h : Striped g n l) (hdvd : g.planesPerFlash ∣ g.blockNb)
    (hn : n < g.pageMappingEntryNb) (hfuel : g.emptyTableEntryNb < fuel) (mappingIndex : ℕ) :
    ∃ l', getNewPage g fuel .overall mappingIndex l = some (some (stripe g n), l') ∧
      Striped g (n + 1) l' := by
  obtain ⟨fuel', l₁, hrun, hload, hindex⟩ := h.retires hdvd hn hfuel mappingIndex
  have hi := Nat.mod_lt n g.emptyTableEntryNb_pos
  -- pages of the head whose turn it is
  obtain ⟨d, hd⟩ : ∃ d, d = n / (g.emptyTableEntryNb * g.pageNb) := ⟨_, rfl⟩
  have hq := Nat.div_add_mod (n / g.emptyTableEntryNb) g.pageNb
  rw [Nat.div_div_eq_div_mul, ← hd, Nat.mul_comm] at hq
  have hhanded : servedPages g n (n % g.emptyTableEntryNb) = n / g.emptyTableEntryNb := by
    rw [servedPages, if_neg (lt_irrefl _), Nat.add_zero]
  have hcol : stocked g d n (n % g.emptyTableEntryNb) =
      stripe g n :: erasedFrom g (n % g.emptyTableEntryNb) (d + 1) := by
    rw [stocked, hhanded, ← hq, Nat.add_sub_cancel_left, column, stripe, ← hd]
  rw [← hd] at hload
  obtain ⟨l', htake, hload', hindex'⟩ :=
    hload.take hindex hi hcol (Nat.mod_lt _ g.pageNb_pos) fuel' mappingIndex
  refine ⟨l', hrun.trans htake, ⟨hload'.congr fun x hx => ?_, by rw [hindex', Nat.mod_add_mod]⟩⟩
  rw [Nat.add_sub_cancel, ← hd, stocked, servedPages_succ hx]
  by_cases hxi : x = n % g.emptyTableEntryNb
  · rw [hxi, Function.update_self, if_pos rfl, hhanded, column, stripe, ← hd]
    congr 2
    dsimp only
    omega
  · rw [Function.update_of_ne hxi, if_neg hxi, Nat.add_zero, stocked]

/-- A fresh device. -/
private theorem ftlInit_striped (hdvd : g.planesPerFlash ∣ g.blockNb) :
    Striped g 0 (ftlInit g).lists := by
  obtain ⟨L, h, hL⟩ := ftlInit_lists hdvd
  refine ⟨⟨L, h.filed, fun x hx => ?_⟩, rfl⟩
  have hplane : x / g.flashNb < g.planesPerFlash := by
    rw [Nat.div_lt_iff_lt_mul g.flashNb_pos, Nat.mul_comm]
    exact hx
  have hpos : 0 < g.eachEmptyTableEntryNb :=
    Nat.div_pos (Nat.le_of_dvd g.blockNb_pos hdvd) g.planesPerFlash_pos
  have hnone : servedPages g 0 x = 0 := by simp [servedPages]
  rw [hL x hx, planeBlocks_eq hdvd hplane, stocked, hnone, Nat.zero_sub, Nat.zero_sub, Nat.zero_div,
    ← erasedFrom_eq x hpos, erasedFrom, Nat.mul_zero, Nat.add_zero, Nat.sub_zero]

/-- The calls from number `n` on. -/
private theorem Striped.getNewPages (h : Striped g n l) (hdvd : g.planesPerFlash ∣ g.blockNb)
    {k : ℕ}
    (hk : n + k ≤ g.pageMappingEntryNb) (hfuel : g.emptyTableEntryNb < fuel) (mappingIndex : ℕ) :
    ∃ l', getNewPages g fuel mappingIndex k l =
      some ((List.range' n k).map fun i => some (stripe g i), l') := by
  induction k generalizing n l with
  | zero => exact ⟨l, rfl⟩
  | succ k ih =>
    obtain ⟨l₁, hcall, h₁⟩ := getNewPage_stripe h hdvd (by omega) hfuel mappingIndex
    obtain ⟨l₂, hrest⟩ := ih h₁ (by omega)
    refine ⟨l₂, ?_⟩
    simp only [Vssim.getNewPages, hcall, hrest, Option.bind_eq_bind, Option.bind_some,
      List.range'_succ, List.map_cons]

/-- The list of a page is that of its call. -/
private theorem listOf_stripe (n : ℕ) : g.listOf (stripe g n).block = n % g.emptyTableEntryNb := by
  have hplane : n % g.emptyTableEntryNb / g.flashNb < g.planesPerFlash := by
    rw [Nat.div_lt_iff_lt_mul g.flashNb_pos, Nat.mul_comm]
    exact Nat.mod_lt n g.emptyTableEntryNb_pos
  refine (listOf_eq_iff (Nat.mod_lt _ g.flashNb_pos)).mpr ⟨?_, rfl⟩
  simp only [EmptyBlock.block, stripe, Nat.add_mul_mod_self_left, Nat.mod_eq_of_lt hplane]

/-- **Striping.** On a fresh device the calls of `GET_NEW_PAGE` return the pages of their stripes,
and so the lists, one for every plane of every chip, get one page each in turn. -/
theorem getNewPages_stripes (hdvd : g.planesPerFlash ∣ g.blockNb)
    (hfuel : g.emptyTableEntryNb < fuel) (mappingIndex : ℕ) :
    (∃ l, getNewPages g fuel mappingIndex g.pageMappingEntryNb (ftlInit g).lists =
      some ((List.range g.pageMappingEntryNb).map fun n => some (stripe g n), l)) ∧
    ∀ n, g.listOf (stripe g n).block = n % g.emptyTableEntryNb := by
  refine ⟨?_, listOf_stripe⟩
  rw [List.range_eq_range']
  exact (ftlInit_striped hdvd).getNewPages hdvd (by omega) hfuel mappingIndex

/-- The eight pages of a chip with two planes. -/
theorem getNewPages_stripes_smallDevice :
    ∃ l, getNewPages smallDevice 3 0 8 (ftlInit smallDevice).lists = some ([⟨0, 0, 0⟩, ⟨0, 1, 0⟩,
      ⟨0, 0, 1⟩, ⟨0, 1, 1⟩, ⟨0, 2, 0⟩, ⟨0, 3, 0⟩, ⟨0, 2, 1⟩, ⟨0, 3, 1⟩].map some, l) :=
  (getNewPages_stripes (g := smallDevice) (by decide) (by decide) 0).1

end Vssim
