import Vssim.Ftl.Allocation
import Vssim.Ftl.Space

/-!
# The search confined to a chip

`GET_EMPTY_BLOCK(VICTIM_INCHIP, mapping_index)` is there to find an empty block on the chip of list
`mapping_index`. The lists of one chip are `FLASH_NB` apart. The search moves to the next list of
the table instead and turns round at the multiples of `PLANES_PER_FLASH`, so what it stays in is a
**group** of `PLANES_PER_FLASH` lists in a row (`inChipList`). It turns round to the second list of
the group: started at another list it never looks at the first one, and started at the first one it
never comes back to where it started, which is its only way out.

`inChipOk_iff` says when the search does what it is there for. There are three ways to fail, all
met by a device of two chips with two planes (`twoPlanes_inChip`): it returns a block of another
chip, it gives up too early, or it does not end.
-/

namespace Vssim

open LinkedHeap Finset

variable (g : Geometry)

/-! ### The lists of a search -/

/-- The list that follows `i` in the search. -/
def inChipNext (i : ℕ) : ℕ :=
  if (i + 1) % g.planesPerFlash = 0 then i + 1 - (g.planesPerFlash - 1) else i + 1

/-- List number `k` of a search that starts at list `m`: up to the end of the group of `m`, then on
from the second list of the group. -/
def inChipList (m k : ℕ) : ℕ :=
  m - m % g.planesPerFlash +
    if m % g.planesPerFlash + k < g.planesPerFlash then m % g.planesPerFlash + k
    else m % g.planesPerFlash + k + 1 - g.planesPerFlash

/-- The number of different lists of that search: the whole group, or all of it but the first. -/
def inChipListNb (m : ℕ) : ℕ :=
  if m % g.planesPerFlash = 0 then g.planesPerFlash else g.planesPerFlash - 1

/-- The search never meets its stop test again. -/
def NoWayOut (m : ℕ) : Prop := g.planesPerFlash ≠ 1 ∧ m % g.planesPerFlash = 0

instance (m : ℕ) : Decidable (NoWayOut g m) := inferInstanceAs (Decidable (_ ∧ _))

variable {g} {l l' : BlockLists} {L L' : ListView} {fill : ℕ × ℕ → ℕ} {limbo : Finset (ℕ × ℕ)}
  {m k fuel : ℕ}

private theorem inChipNext_eq (q : ℕ) {t : ℕ} (ht : t < g.planesPerFlash) :
    inChipNext g (g.planesPerFlash * q + t) =
      g.planesPerFlash * q + if t + 1 = g.planesPerFlash then 1 else t + 1 := by
  rw [inChipNext, Nat.add_assoc, Nat.mul_add_mod]
  by_cases hlast : t + 1 = g.planesPerFlash
  · rw [if_pos hlast, hlast, Nat.mod_self, if_pos rfl]
    omega
  · rw [if_neg hlast, Nat.mod_eq_of_lt (by omega), if_neg (Nat.succ_ne_zero t)]

private theorem inChipListNb_pos : 0 < inChipListNb g m := by
  have hP := g.planesPerFlash_pos
  have hr := Nat.mod_lt m hP
  rw [inChipListNb]
  split <;> omega

/-- The place of a list of the search in its group. -/
private theorem exists_inChipList_eq (hk : k < inChipListNb g m) : ∃ t < g.planesPerFlash,
    inChipList g m k = g.planesPerFlash * (m / g.planesPerFlash) + t ∧
      t = if m % g.planesPerFlash + k < g.planesPerFlash then m % g.planesPerFlash + k
        else m % g.planesPerFlash + k + 1 - g.planesPerFlash := by
  have hP := g.planesPerFlash_pos
  have hr := Nat.mod_lt m hP
  have hm := Nat.div_add_mod m g.planesPerFlash
  refine ⟨_, ?_, ?_, rfl⟩
  · rw [inChipListNb] at hk
    split at hk <;> split <;> omega
  · rw [inChipList, show m - m % g.planesPerFlash = g.planesPerFlash * (m / g.planesPerFlash) by
      omega]

@[simp] theorem inChipList_zero : inChipList g m 0 = m := by
  have hr := Nat.mod_lt m g.planesPerFlash_pos
  have hle := Nat.mod_le m g.planesPerFlash
  rw [inChipList, Nat.add_zero, if_pos hr]
  omega

/-- The lists of a search are in the group of the first one. -/
private theorem inChipList_div (hk : k < inChipListNb g m) :
    inChipList g m k / g.planesPerFlash = m / g.planesPerFlash := by
  obtain ⟨t, ht, heq, -⟩ := exists_inChipList_eq hk
  rw [heq, Nat.mul_add_div g.planesPerFlash_pos, Nat.div_eq_of_lt ht, Nat.add_zero]

private theorem inChipList_lt (hm : m < g.emptyTableEntryNb) (hk : k < inChipListNb g m) :
    inChipList g m k < g.emptyTableEntryNb := by
  have hP := g.planesPerFlash_pos
  rw [Geometry.emptyTableEntryNb, ← Nat.div_lt_iff_lt_mul hP] at hm ⊢
  rwa [inChipList_div hk]

private theorem inChipList_ne (hk : k < inChipListNb g m) (h0 : 0 < k) : inChipList g m k ≠ m := by
  obtain ⟨t, ht, heq, hval⟩ := exists_inChipList_eq hk
  have hr := Nat.mod_lt m g.planesPerFlash_pos
  have hm := Nat.div_add_mod m g.planesPerFlash
  have hne : t ≠ m % g.planesPerFlash := by
    rw [inChipListNb] at hk
    split at hk <;> split at hval <;> omega
  omega

private theorem inChipNext_inChipList (hk : k + 1 < inChipListNb g m) :
    inChipNext g (inChipList g m k) = inChipList g m (k + 1) := by
  obtain ⟨t, ht, heq, hval⟩ := exists_inChipList_eq (Nat.lt_of_succ_lt hk)
  obtain ⟨t', ht', heq', hval'⟩ := exists_inChipList_eq hk
  rw [heq, heq', inChipNext_eq _ ht]
  rw [inChipListNb] at hk
  have hnext : (if t + 1 = g.planesPerFlash then 1 else t + 1) = t' := by
    split at hk <;> split at hval <;> split at hval' <;> split <;> omega
  rw [hnext]

/-- After its last list the search is back at the first one, or at the second if the first one is
the first of the group. -/
private theorem inChipNext_last (hplanes : g.planesPerFlash ≠ 1) (hk : k + 1 = inChipListNb g m) :
    inChipNext g (inChipList g m k) =
      inChipList g m (if m % g.planesPerFlash = 0 then 1 else 0) := by
  obtain ⟨t, ht, heq, hval⟩ := exists_inChipList_eq (Nat.lt_of_succ_le hk.le)
  have hP := g.planesPerFlash_pos
  have hr := Nat.mod_lt m hP
  have hm := Nat.div_add_mod m g.planesPerFlash
  rw [inChipListNb] at hk
  by_cases hfirst : m % g.planesPerFlash = 0
  · rw [if_pos hfirst] at hk ⊢
    obtain ⟨t', -, heq', hval'⟩ :=
      exists_inChipList_eq (g := g) (m := m) (k := 1) (by rw [inChipListNb, if_pos hfirst]; omega)
    have hnext : (if t + 1 = g.planesPerFlash then 1 else t + 1) = t' := by
      split at hval <;> split at hval' <;> split <;> omega
    rw [heq, heq', inChipNext_eq _ ht, hnext]
  · rw [if_neg hfirst] at hk ⊢
    have hnext : (if t + 1 = g.planesPerFlash then 1 else t + 1) = m % g.planesPerFlash := by
      split at hval <;> split <;> omega
    rw [heq, inChipNext_eq _ ht, hnext, inChipList_zero, hm]

/-- A search that starts with the first list of its group goes through the whole group. -/
private theorem exists_inChipList {x : ℕ} (hfirst : m % g.planesPerFlash = 0)
    (hx : x / g.planesPerFlash = m / g.planesPerFlash) :
    ∃ k < inChipListNb g m, inChipList g m k = x := by
  have hlt := Nat.mod_lt x g.planesPerFlash_pos
  have hm := Nat.div_add_mod m g.planesPerFlash
  have hdiv := Nat.div_add_mod x g.planesPerFlash
  rw [hx] at hdiv
  refine ⟨x % g.planesPerFlash, by rw [inChipListNb, if_pos hfirst]; exact hlt, ?_⟩
  rw [inChipList, hfirst, Nat.zero_add, if_pos hlt]
  omega

/-! ### One round of the search -/

variable (g) in
/-- The lists in the course of a search. `U` are the lists that have a block with an unwritten page,
which are the same all along. -/
structure Searching (U : ℕ → Prop) (l : BlockLists) (L : ListView) : Prop where
  filed : Filed g l L
  unwritten : ∀ i < g.emptyTableEntryNb, U i ↔ ∃ x ∈ L.empty i, x.2.currPhyPageNb < g.pageNb

namespace Searching

variable {U : ℕ → Prop}

private theorem not_of_nil (h : Searching g U l L) {i : ℕ} (hi : i < g.emptyTableEntryNb)
    (hL : L.empty i = []) : ¬ U i := by
  rw [h.unwritten i hi, hL]
  simp

private theorem total_ne_zero (h : Searching g U l L) {i : ℕ} (hi : i < g.emptyTableEntryNb)
    (hU : U i) : l.totalEmptyBlockNb ≠ 0 :=
  fun h0 => h.not_of_nil hi (h.filed.rep.totalEmpty_eq_zero h0 hi) hU

/-- Retiring a full block. -/
private theorem retire (h : Searching g U l L) {i p : ℕ} (hi : i < g.emptyTableEntryNb)
    {e : EmptyBlock} {xs : List (ℕ × EmptyBlock)} (hL : L.empty i = (p, e) :: xs)
    (hfull : e.currPhyPageNb = g.pageNb) :
    ∃ l' ys, retireFullBlock g i p l = some l' ∧ Searching g U l' (L.set i xs ys) ∧
      l.totalEmptyBlockNb = l'.totalEmptyBlockNb + 1 := by
  obtain ⟨l', ys, hrun, h', -, htotal⟩ := h.filed.retire hi hL
  refine ⟨l', ys, hrun, ⟨h', fun j hj => ?_⟩, htotal⟩
  rw [h.unwritten j hj]
  by_cases hji : j = i
  · subst hji
    rw [ListView.set_empty_self, hL]
    simp [hfull]
  · rw [ListView.set_empty_of_ne hji]

/-- **One round**: the list is empty and the search moves on, or its head has an unwritten page and
is the result, or its head is full and is retired. -/
theorem round (h : Searching g U l L) {i : ℕ} (hi : i < g.emptyTableEntryNb)
    (h0 : l.totalEmptyBlockNb ≠ 0) (m fuel : ℕ) :
    (L.empty i = [] ∧ getEmptyBlockLoop g .inchip m (fuel + 1) i l =
      if g.planesPerFlash ≠ 1 then
        if inChipNext g i = m then some (none, l)
        else getEmptyBlockLoop g .inchip m fuel (inChipNext g i) l
      else some (none, l)) ∨
    (U i ∧ ∃ p e n, getEmptyBlockLoop g .inchip m (fuel + 1) i l = some (some p, l) ∧
      l.emptyHeap.cell p = some ⟨e, n⟩ ∧ e.phyFlashNb = i % g.flashNb ∧
      e.currPhyPageNb < g.pageNb) ∨
    L.empty i ≠ [] ∧ ∃ l' L',
      getEmptyBlockLoop g .inchip m (fuel + 1) i l = getEmptyBlockLoop g .inchip m fuel i l' ∧
      Searching g U l' L' ∧ (∀ x ≠ i, L'.empty x = L.empty x) ∧
      l.totalEmptyBlockNb = l'.totalEmptyBlockNb + 1 := by
  rw [getEmptyBlockLoop]
  simp only [h0, if_false]
  rcases h.filed.rep.head_cases hi with ⟨hcount, hnil⟩ | ⟨p, e, xs, n, hL, hcount, hhead, hcell⟩
  · exact .inl ⟨hnil, if_pos hcount⟩
  have hmem : (p, e) ∈ L.empty i := by simp [hL]
  simp only [hcount, if_false, hhead, hcell, Option.bind_eq_bind, Option.bind_some]
  by_cases hfull : e.currPhyPageNb = g.pageNb
  · obtain ⟨l', ys, hretire, h', htotal⟩ := h.retire hi hL hfull
    refine .inr (.inr ⟨by simp [hL], l', _, ?_, h', fun x hx => ListView.set_empty_of_ne hx,
      htotal⟩)
    simp only [hfull, if_true, hretire, Option.bind_some]
  · have hlt : e.currPhyPageNb < g.pageNb := lt_of_le_of_ne (h.filed.curr_le i hi _ hmem) hfull
    exact .inr (.inl ⟨(h.unwritten i hi).mpr ⟨_, hmem, hlt⟩, p, e, n, if_neg hfull, hcell,
      h.filed.chip_eq hi hmem, hlt⟩)

/-! ### Whole searches -/

/-- Past an empty list that is not the last one. -/
private theorem moves_on (hk : k + 1 < inChipListNb g m) (l : BlockLists) (fuel : ℕ) :
    (if g.planesPerFlash ≠ 1 then
      if inChipNext g (inChipList g m k) = m then some (none, l)
      else getEmptyBlockLoop g .inchip m fuel (inChipNext g (inChipList g m k)) l
    else some (none, l)) = getEmptyBlockLoop g .inchip m fuel (inChipList g m (k + 1)) l := by
  have hplanes : g.planesPerFlash ≠ 1 := by
    rw [inChipListNb] at hk
    split at hk <;> omega
  rw [if_pos hplanes, inChipNext_inChipList hk, if_neg (inChipList_ne hk (Nat.succ_pos k))]

/-- A search that has a list with an unwritten page ahead ends at the first such list. -/
private theorem finds (h : Searching g U l L) (hm : m < g.emptyTableEntryNb) {t : ℕ}
    (ht : t < inChipListNb g m) (hU : U (inChipList g m t)) (hkt : k ≤ t)
    (hbefore : ∀ j < t, ¬ U (inChipList g m j)) (hfuel : l.totalEmptyBlockNb + (t - k) < fuel) :
    ∃ p l' e n, getEmptyBlockLoop g .inchip m fuel (inChipList g m k) l = some (some p, l') ∧
      l'.emptyHeap.cell p = some ⟨e, n⟩ ∧ e.phyFlashNb = inChipList g m t % g.flashNb ∧
      e.currPhyPageNb < g.pageNb := by
  induction fuel generalizing l L k with
  | zero => omega
  | succ fuel ih =>
    have hi := inChipList_lt hm (hkt.trans_lt ht)
    have h0 := h.total_ne_zero (inChipList_lt hm ht) hU
    rcases h.round hi h0 m fuel with
      ⟨hnil, hround⟩ | ⟨hhit, p, e, n, hround, hcell, hchip, hlt⟩ |
      ⟨-, l', L', hround, h', -, htotal⟩
    · have hne : k ≠ t := by
        rintro rfl
        exact h.not_of_nil hi hnil hU
      rw [hround, moves_on (by omega)]
      exact ih h (by omega) (by omega)
    · have heq : k = t := by
        by_contra hne
        exact hbefore k (by omega) hhit
      exact ⟨p, l, e, n, hround, hcell, heq ▸ hchip, hlt⟩
    · rw [hround]
      exact ih h' hkt (by omega)

/-- A search without such a list gives up if it gets out, or if its group holds all that is left. -/
private theorem gives_up (h : Searching g U l L) (hm : m < g.emptyTableEntryNb)
    (hU : ∀ j < inChipListNb g m, ¬ U (inChipList g m j)) (hk : k < inChipListNb g m)
    (hpast : ∀ j < k, L.empty (inChipList g m j) = [])
    (hout : NoWayOut g m → ∀ x < g.emptyTableEntryNb,
      x / g.planesPerFlash ≠ m / g.planesPerFlash → L.empty x = [])
    (hfuel : l.totalEmptyBlockNb + (inChipListNb g m - k) < fuel) :
    ∃ l', getEmptyBlockLoop g .inchip m fuel (inChipList g m k) l = some (none, l') := by
  induction fuel generalizing l L k with
  | zero => omega
  | succ fuel ih =>
    by_cases h0 : l.totalEmptyBlockNb = 0
    · exact ⟨l, by rw [getEmptyBlockLoop, if_pos h0]⟩
    rcases h.round (inChipList_lt hm hk) h0 m fuel with
      ⟨hnil, hround⟩ | ⟨hhit, -⟩ | ⟨hcons, l', L', hround, h', hsame, htotal⟩
    · have hpast' : ∀ j < k + 1, L.empty (inChipList g m j) = [] := fun j hj => by
        rcases Nat.lt_succ_iff_lt_or_eq.mp hj with hj | rfl
        · exact hpast j hj
        · exact hnil
      rw [hround]
      by_cases hlast : k + 1 < inChipListNb g m
      · rw [moves_on hlast]
        exact ih h hlast hpast' hout (by omega)
      by_cases hplanes : g.planesPerFlash = 1
      · exact ⟨l, if_neg (not_not_intro hplanes)⟩
      have hk' : k + 1 = inChipListNb g m := by omega
      rw [if_pos hplanes, inChipNext_last hplanes hk']
      by_cases hfirst : m % g.planesPerFlash = 0
      · -- every list is empty, against the total
        refine absurd (h.filed.rep.totalEmpty.trans (sum_eq_zero fun x hx => ?_)) h0
        rw [List.length_eq_zero_iff]
        by_cases hx' : x / g.planesPerFlash = m / g.planesPerFlash
        · obtain ⟨j, hj, rfl⟩ := exists_inChipList hfirst hx'
          exact hpast' j (by omega)
        · exact hout ⟨hplanes, hfirst⟩ x (mem_range.mp hx) hx'
      · exact ⟨l, by rw [if_neg hfirst, inChipList_zero, if_pos rfl]⟩
    · exact absurd hhit (hU k hk)
    · rw [hround]
      refine ih h' hk (fun j hj => ?_) (fun hno x hx hxm => ?_) (by omega)
      · have hnil := hpast j hj
        rwa [hsame _ fun hjk => hcons (hjk ▸ hnil)]
      · rw [hsame x fun hxk => hxm (hxk ▸ inChipList_div hk)]
        exact hout hno x hx hxm

/-- A search without such a list and without a way out does not end as long as there are blocks
elsewhere. -/
private theorem spins (h : Searching g U l L) (hm : m < g.emptyTableEntryNb)
    (hU : ∀ j < inChipListNb g m, ¬ U (inChipList g m j)) (hno : NoWayOut g m)
    (hk : k < inChipListNb g m) {x : ℕ} (hx : x < g.emptyTableEntryNb)
    (hxm : x / g.planesPerFlash ≠ m / g.planesPerFlash) (hne : L.empty x ≠ []) (fuel : ℕ) :
    getEmptyBlockLoop g .inchip m fuel (inChipList g m k) l = none := by
  induction fuel generalizing l L k with
  | zero => rfl
  | succ fuel ih =>
    have h0 : l.totalEmptyBlockNb ≠ 0 := fun h0 => hne (h.filed.rep.totalEmpty_eq_zero h0 hx)
    rcases h.round (inChipList_lt hm hk) h0 m fuel with
      ⟨-, hround⟩ | ⟨hhit, -⟩ | ⟨-, l', L', hround, h', hsame, -⟩
    · rw [hround]
      by_cases hlast : k + 1 < inChipListNb g m
      · rw [moves_on hlast]
        exact ih h hlast hne
      · have hone : 1 < inChipListNb g m := by
          have hP := g.planesPerFlash_pos
          have := hno.1
          rw [inChipListNb, if_pos hno.2]
          omega
        rw [if_pos hno.1, inChipNext_last hno.1 (by omega), if_pos hno.2,
          if_neg (inChipList_ne hone Nat.one_pos)]
        exact ih h hone hne
    · exact absurd hhit (hU k hk)
    · rw [hround]
      refine ih h' hk ?_
      rwa [hsame x fun hxk => hxm (hxk ▸ inChipList_div hk)]

end Searching

/-! ### When the search does its job -/

variable (g) in
/-- Empty list `i` has a block with an unwritten page. -/
def HasUnwritten (l : BlockLists) (i : ℕ) : Prop :=
  ∃ e ∈ l.emptyEntries i, e.currPhyPageNb < g.pageNb

instance : Decidable (HasUnwritten g l k) := inferInstanceAs (Decidable (∃ e ∈ _, _))

variable (g) in
/-- The search for an empty block on the chip of list `m` ends. A block that it returns is on that
chip and has an unwritten page, and it returns `NULL` exactly if there is no such block. -/
def InChipOk (l : BlockLists) (m : ℕ) : Prop :=
  ∃ fuel₀, ∀ fuel ≥ fuel₀, ∃ r l', getEmptyBlock g fuel .inchip m l = some (r, l') ∧
    (∀ p, r = some p → ∃ c, l'.emptyHeap.cell p = some c ∧
      c.val.phyFlashNb = m % g.flashNb ∧ c.val.currPhyPageNb < g.pageNb) ∧
    (r = none ↔ ∀ i < g.emptyTableEntryNb, ∀ e ∈ l.emptyEntries i,
      e.phyFlashNb = m % g.flashNb → ¬ e.currPhyPageNb < g.pageNb)

variable (g) in
/-- The first list of the search with an unwritten page is one of the chip. Or there is no such list
in the search, and then neither on the chip, or, if the search has no way out, all blocks left are
in its group. -/
def InChipFits (l : BlockLists) (m : ℕ) : Prop :=
  (∃ k < inChipListNb g m, HasUnwritten g l (inChipList g m k) ∧
    (∀ j < k, ¬ HasUnwritten g l (inChipList g m j)) ∧
    inChipList g m k % g.flashNb = m % g.flashNb) ∨
  (∀ k < inChipListNb g m, ¬ HasUnwritten g l (inChipList g m k)) ∧
    if NoWayOut g m then ∀ i < g.emptyTableEntryNb,
      i / g.planesPerFlash ≠ m / g.planesPerFlash → l.emptyEntries i = []
    else ∀ i < g.emptyTableEntryNb, i % g.flashNb = m % g.flashNb → ¬ HasUnwritten g l i

instance : Decidable (InChipFits g l m) := inferInstanceAs (Decidable (_ ∨ _))

namespace Filed

private theorem emptyEntries_eq (h : Filed g l L) {i : ℕ} (hi : i < g.emptyTableEntryNb) :
    l.emptyEntries i = (L.empty i).map Prod.snd :=
  (h.rep.empty i hi).walk_eq

private theorem searching (h : Filed g l L) : Searching g (HasUnwritten g l) l L :=
  ⟨h, fun i hi => by
    simp only [HasUnwritten, h.emptyEntries_eq hi, List.mem_map, exists_exists_and_eq_and]⟩

/-- The blocks of a chip with an unwritten page, by lists. -/
private theorem chip_iff (h : Filed g l L) (m : ℕ) :
    (∀ i < g.emptyTableEntryNb, ∀ e ∈ l.emptyEntries i,
      e.phyFlashNb = m % g.flashNb → ¬ e.currPhyPageNb < g.pageNb) ↔
    ∀ i < g.emptyTableEntryNb, i % g.flashNb = m % g.flashNb → ¬ HasUnwritten g l i := by
  have hchip : ∀ i < g.emptyTableEntryNb, ∀ e ∈ l.emptyEntries i, e.phyFlashNb = i % g.flashNb := by
    intro i hi e he
    rw [h.emptyEntries_eq hi] at he
    obtain ⟨x, hx, rfl⟩ := List.mem_map.mp he
    exact h.chip_eq hi hx
  constructor
  · rintro hnone i hi him ⟨e, he, hlt⟩
    exact hnone i hi e he ((hchip i hi e he).trans him) hlt
  · intro hnone i hi e he hem hlt
    exact hnone i hi ((hchip i hi e he).symm.trans hem) ⟨e, he, hlt⟩

end Filed

/-- With a list with an unwritten page in the search, the first of them decides. -/
private theorem Filed.inChipOk_of_first (h : Filed g l L) (hm : m < g.emptyTableEntryNb) {t : ℕ}
    (ht : t < inChipListNb g m) (hU : HasUnwritten g l (inChipList g m t))
    (hbefore : ∀ j < t, ¬ HasUnwritten g l (inChipList g m j)) :
    InChipOk g l m ↔ inChipList g m t % g.flashNb = m % g.flashNb := by
  have hfinds : ∀ fuel > l.totalEmptyBlockNb + t, ∃ p l' e n,
      getEmptyBlock g fuel .inchip m l = some (some p, l') ∧
        l'.emptyHeap.cell p = some ⟨e, n⟩ ∧ e.phyFlashNb = inChipList g m t % g.flashNb ∧
        e.currPhyPageNb < g.pageNb := fun fuel hfuel => by
    have := h.searching.finds hm ht hU (Nat.zero_le t) hbefore (by simpa using hfuel)
    rwa [inChipList_zero] at this
  constructor
  · rintro ⟨fuel₀, hok⟩
    obtain ⟨r, l₁, hrun, hblock, -⟩ := hok (fuel₀ + (l.totalEmptyBlockNb + t + 1)) (by omega)
    obtain ⟨p, l', e, n, hrun', hcell, hchip, -⟩ :=
      hfinds (fuel₀ + (l.totalEmptyBlockNb + t + 1)) (by omega)
    rw [hrun] at hrun'
    cases hrun'
    obtain ⟨c, hc, hcm, -⟩ := hblock p rfl
    rw [hcell] at hc
    cases hc
    exact hchip.symm.trans hcm
  · intro hsame
    refine ⟨l.totalEmptyBlockNb + t + 1, fun fuel hfuel => ?_⟩
    obtain ⟨p, l', e, n, hrun, hcell, hchip, hlt⟩ := hfinds fuel hfuel
    refine ⟨some p, l', hrun, fun q hq => ?_, ?_⟩
    · cases hq
      exact ⟨_, hcell, hchip.trans hsame, hlt⟩
    · rw [h.chip_iff]
      exact ⟨fun hnone => absurd hnone (by simp),
        fun hnone => absurd hU (hnone _ (inChipList_lt hm ht) hsame)⟩

/-- Without one it is enough to know whether the search ends. -/
private theorem Filed.inChipOk_of_none (h : Filed g l L) (hm : m < g.emptyTableEntryNb)
    (hU : ∀ k < inChipListNb g m, ¬ HasUnwritten g l (inChipList g m k)) :
    InChipOk g l m ↔ if NoWayOut g m then ∀ i < g.emptyTableEntryNb,
        i / g.planesPerFlash ≠ m / g.planesPerFlash → l.emptyEntries i = []
      else ∀ i < g.emptyTableEntryNb, i % g.flashNb = m % g.flashNb → ¬ HasUnwritten g l i := by
  have hnil : ∀ i < g.emptyTableEntryNb, l.emptyEntries i = [] ↔ L.empty i = [] := fun i hi => by
    rw [h.emptyEntries_eq hi, List.map_eq_nil_iff]
  -- if the search ends it ends with `NULL`
  have hends : (NoWayOut g m → ∀ i < g.emptyTableEntryNb,
        i / g.planesPerFlash ≠ m / g.planesPerFlash → l.emptyEntries i = []) →
      ∀ fuel > l.totalEmptyBlockNb + inChipListNb g m, ∃ l',
        getEmptyBlock g fuel .inchip m l = some (none, l') := fun hout fuel hfuel => by
    have := h.searching.gives_up hm hU inChipListNb_pos (fun j hj => absurd hj (Nat.not_lt_zero j))
      (fun hno i hi him => (hnil i hi).mp (hout hno i hi him)) (by simpa using hfuel)
    rwa [inChipList_zero] at this
  constructor
  · rintro ⟨fuel₀, hok⟩
    have hout : NoWayOut g m → ∀ i < g.emptyTableEntryNb,
        i / g.planesPerFlash ≠ m / g.planesPerFlash → l.emptyEntries i = [] := by
      intro hno i hi him
      by_contra hne
      obtain ⟨r, l', hrun, -⟩ := hok fuel₀ le_rfl
      have hspin := h.searching.spins hm hU hno inChipListNb_pos hi him
        (mt (hnil i hi).mpr hne) fuel₀
      rw [inChipList_zero] at hspin
      exact absurd (hrun.symm.trans hspin) (by simp)
    split
    · next hno => exact hout hno
    · rw [← h.chip_iff]
      obtain ⟨r, l₁, hrun, -, hnull⟩ :=
        hok (fuel₀ + (l.totalEmptyBlockNb + inChipListNb g m + 1)) (by omega)
      obtain ⟨l', hrun'⟩ :=
        hends hout (fuel₀ + (l.totalEmptyBlockNb + inChipListNb g m + 1)) (by omega)
      rw [hrun] at hrun'
      cases hrun'
      exact hnull.mp rfl
  · intro hfits
    have hout : NoWayOut g m → ∀ i < g.emptyTableEntryNb,
        i / g.planesPerFlash ≠ m / g.planesPerFlash → l.emptyEntries i = [] := fun hno => by
      rwa [if_pos hno] at hfits
    have hnone : ∀ i < g.emptyTableEntryNb, i % g.flashNb = m % g.flashNb →
        ¬ HasUnwritten g l i := by
      split at hfits
      · next hno =>
        intro i hi _ hi'
        by_cases him : i / g.planesPerFlash = m / g.planesPerFlash
        · obtain ⟨k, hk, rfl⟩ := exists_inChipList hno.2 him
          exact hU k hk hi'
        · exact h.searching.not_of_nil hi ((hnil i hi).mp (hfits i hi him)) hi'
      · exact hfits
    refine ⟨l.totalEmptyBlockNb + inChipListNb g m + 1, fun fuel hfuel => ?_⟩
    obtain ⟨l', hrun⟩ := hends hout fuel hfuel
    refine ⟨none, l', hrun, fun p hp => (by cases hp), ?_⟩
    rw [h.chip_iff]
    exact ⟨fun _ => hnone, fun _ => rfl⟩

/-- **The in-chip search does its job** in exactly the states where its lists suit it. -/
theorem inChipOk_iff (h : Filed g l L) (hm : m < g.emptyTableEntryNb) :
    InChipOk g l m ↔ InChipFits g l m := by
  by_cases hex : ∃ k, k < inChipListNb g m ∧ HasUnwritten g l (inChipList g m k)
  · obtain ⟨t, hdef⟩ : ∃ t, t = Nat.find hex := ⟨_, rfl⟩
    obtain ⟨ht, hU⟩ : t < inChipListNb g m ∧ HasUnwritten g l (inChipList g m t) :=
      hdef ▸ Nat.find_spec hex
    have hbefore : ∀ j < t, ¬ HasUnwritten g l (inChipList g m j) := fun j hj hj' =>
      Nat.find_min hex (hdef ▸ hj) ⟨hj.trans ht, hj'⟩
    rw [h.inChipOk_of_first hm ht hU hbefore]
    constructor
    · exact fun hsame => .inl ⟨t, ht, hU, hbefore, hsame⟩
    · rintro (⟨k, hk, hkU, hkb, hsame⟩ | ⟨hnone, -⟩)
      · obtain rfl : k = t := by
          rcases Nat.lt_trichotomy k t with hlt | heq | hlt
          · exact absurd hkU (hbefore k hlt)
          · exact heq
          · exact absurd hU (hkb t hlt)
        exact hsame
      · exact absurd hU (hnone t ht)
  · have hU : ∀ k < inChipListNb g m, ¬ HasUnwritten g l (inChipList g m k) :=
      fun k hk hk' => hex ⟨k, hk, hk'⟩
    rw [h.inChipOk_of_none hm hU]
    constructor
    · exact fun hrest => .inr ⟨hU, hrest⟩
    · rintro (⟨k, hk, hkU, -⟩ | ⟨-, hrest⟩)
      · exact absurd hkU (hU k hk)
      · exact hrest

/-- Two chips with two planes of one block of one page. -/
def twoPlanes : Geometry where
  sectorsPerPage := 1
  pageNb := 1
  blockNb := 2
  flashNb := 2
  planesPerFlash := 2
  gcVictimNb := 20
  writeNoparal := false
  gcVictimOverall := false
  sectorsPerPage_pos := Nat.one_pos
  sectorsPerPage_lt := threeBlocks.sectorsPerPage_lt
  pageNb_pos := Nat.one_pos
  blockNb_pos := Nat.two_pos
  flashNb_pos := Nat.two_pos
  planesPerFlash_pos := Nat.two_pos

/-- Its lists after `n` pages have been handed out. -/
def twoPlanesAfter (n : ℕ) : BlockLists :=
  ((getNewPages twoPlanes 5 0 n (ftlInit twoPlanes).lists).map Prod.snd).getD
    (ftlInit twoPlanes).lists

private theorem twoPlanesAfter_filed (n : ℕ) : ∃ L, Filed twoPlanes (twoPlanesAfter n) L := by
  obtain ⟨L, hL⟩ := (ftlInit_inv (g := twoPlanes) (by decide)).lists
  rw [twoPlanesAfter]
  cases hrun : getNewPages twoPlanes 5 0 n (ftlInit twoPlanes).lists with
  | none => exact ⟨L, hL.filed⟩
  | some x =>
    obtain ⟨L', fill', h'⟩ := getNewPages_listInv hL hrun
    exact ⟨L', h'.filed⟩

/-- With the first two lists full, a search of the second chip from its second list finds the other
block of that chip. -/
theorem twoPlanes_inChipOk : (∃ L, Filed twoPlanes (twoPlanesAfter 2) L) ∧
    InChipOk twoPlanes (twoPlanesAfter 2) 3 := by
  obtain ⟨L, hL⟩ := twoPlanesAfter_filed 2
  exact ⟨⟨L, hL⟩, (inChipOk_iff hL (by decide)).mpr (by decide +kernel)⟩

/-- With only the first list full, a search of the first chip returns a block of the second. With
the first two lists full, a search of the second chip gives up at once and one of the first chip
does not end. Both chips have an erased block all the while. -/
theorem twoPlanes_inChip : (∀ n, ∃ L, Filed twoPlanes (twoPlanesAfter n) L) ∧
    (¬ InChipOk twoPlanes (twoPlanesAfter 1) 0 ∧
      ((getEmptyBlock twoPlanes 3 .inchip 0 (twoPlanesAfter 1)).bind fun x => x.1.bind fun p =>
        (x.2.emptyHeap.cell p).map fun c => c.val.phyFlashNb) = some 1) ∧
    (¬ InChipOk twoPlanes (twoPlanesAfter 2) 1 ∧
      (getEmptyBlock twoPlanes 3 .inchip 1 (twoPlanesAfter 2)).map Prod.fst = some none) ∧
    (∀ fuel, getEmptyBlock twoPlanes fuel .inchip 0 (twoPlanesAfter 2) = none) ∧
    (twoPlanesAfter 2).emptyEntries 2 = [⟨0, 1, 0⟩] ∧
    (twoPlanesAfter 2).emptyEntries 3 = [⟨1, 1, 0⟩] := by
  obtain ⟨L₁, h₁⟩ := twoPlanesAfter_filed 1
  obtain ⟨L₂, h₂⟩ := twoPlanesAfter_filed 2
  refine ⟨twoPlanesAfter_filed, ⟨?_, by decide +kernel⟩, ⟨?_, by decide +kernel⟩, fun fuel => ?_,
    by decide +kernel, by decide +kernel⟩
  · rw [h₁.inChipOk_of_first (t := 1) (by decide) (by decide) (by decide +kernel)
      (by decide +kernel)]
    decide +kernel
  · rw [h₂.inChipOk_of_none (by decide) (by decide +kernel)]
    decide +kernel
  · have hlist : L₂.empty 2 ≠ [] := fun hnil => by
      have heq := h₂.emptyEntries_eq (show 2 < twoPlanes.emptyTableEntryNb by decide)
      rw [hnil] at heq
      exact absurd heq (by decide +kernel)
    exact h₂.searching.spins (k := 0) (by decide) (by decide +kernel) (by decide) (by decide)
      (by decide : 2 < twoPlanes.emptyTableEntryNb) (by decide) hlist fuel

end Vssim
