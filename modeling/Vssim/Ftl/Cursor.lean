import Vssim.Ftl.Request
import Mathlib.Tactic.Ring

/-!
# Splitting a request into pages

The loop variables of `_FTL_READ`, `_FTL_WRITE` and `ALLOC_IO_REQUEST` go through 32-bit
conversions. For a request within the device none of them wraps while it matters
(`Cursor.Ok`): each round handles the sectors from `lba` to the end of its logical page or of
the request, whichever comes first, and the rounds together handle every sector once.
-/

namespace Vssim

variable (g : Geometry)

/-- A request within the device. Sector numbers are `int32_t`, so the last sector of a request
is below `2 ^ 31`. -/
structure InRange (sectorNb : ℤ) (length : ℕ) : Prop where
  nonneg : 0 ≤ sectorNb
  pos : 1 ≤ length
  le_device : sectorNb + length ≤ g.sectorNb
  le_int32 : sectorNb + length ≤ 2 ^ 31

theorem toU32_of_nonneg {x : ℤ} (h0 : 0 ≤ x) (hlt : x < 2 ^ 32) : (toU32 x : ℤ) = x := by
  rw [toU32, Int.emod_eq_of_lt h0 hlt, Int.toNat_of_nonneg h0]

theorem toI32_of_bounds {x : ℤ} (h0 : 0 ≤ x) (hlt : x < 2 ^ 31) : toI32 x = x := by
  rw [toI32, Int.bmod_def]
  omega

namespace Cursor

/-- The loop variables are in order, as long as sectors remain. -/
structure Ok (c : Cursor) : Prop where
  nonneg : 0 ≤ c.lba
  leftSkip : (c.leftSkip : ℤ) = c.lba % g.sectorsPerPage
  le_device : c.lba + c.remain ≤ g.sectorNb
  le_int32 : c.lba + c.remain ≤ 2 ^ 31

variable {g} {c : Cursor}

theorem Ok.start {sectorNb : ℤ} {length : ℕ} (h : InRange g sectorNb length) :
    Ok g (.start g sectorNb length) where
  nonneg := h.nonneg
  leftSkip := by
    have hpos : (0 : ℤ) < g.sectorsPerPage := by exact_mod_cast g.sectorsPerPage_pos
    have hlt : (g.sectorsPerPage : ℤ) < 2 ^ 31 := by exact_mod_cast g.sectorsPerPage_lt
    have h0 := Int.emod_nonneg sectorNb hpos.ne'
    have h1 := Int.emod_lt_of_pos sectorNb hpos
    simp only [Cursor.start]
    rw [Int.tmod_eq_emod_of_nonneg h.nonneg, toU32_of_nonneg h0 (by omega)]
  le_device := h.le_device
  le_int32 := h.le_int32

theorem Ok.leftSkip_lt (h : Ok g c) : c.leftSkip < g.sectorsPerPage := by
  have hpos : (0 : ℤ) < g.sectorsPerPage := by exact_mod_cast g.sectorsPerPage_pos
  have hlt := Int.emod_lt_of_pos c.lba hpos
  rw [← h.leftSkip] at hlt
  exact_mod_cast hlt

theorem Ok.rightSkip_eq (h : Ok g c) :
    c.rightSkip g = g.sectorsPerPage - c.leftSkip - c.remain := by
  have hl := h.leftSkip_lt
  have hlt := g.sectorsPerPage_lt
  have hroom := toU32_of_nonneg (x := (g.sectorsPerPage : ℤ) - c.leftSkip) (by omega) (by omega)
  rw [rightSkip]
  split
  · omega
  · have hrest := toU32_of_nonneg (x := (g.sectorsPerPage : ℤ) - c.leftSkip - c.remain)
      (by omega) (by omega)
    omega

/-- A round handles what is left of its logical page or of the request. -/
theorem Ok.sects_eq (h : Ok g c) :
    c.sects g = min (g.sectorsPerPage - c.leftSkip) c.remain := by
  have hl := h.leftSkip_lt
  have hlt := g.sectorsPerPage_lt
  have hr := h.rightSkip_eq
  have hrest := toU32_of_nonneg (x := (g.sectorsPerPage : ℤ) - c.leftSkip - c.rightSkip g)
    (by omega) (by omega)
  rw [sects]
  omega

theorem Ok.sects_le (h : Ok g c) : c.sects g ≤ c.remain := by
  rw [h.sects_eq]
  exact min_le_right _ _

theorem Ok.sects_pos (h : Ok g c) (hpos : 0 < c.remain) : 0 < c.sects g := by
  have hl := h.leftSkip_lt
  rw [h.sects_eq]
  omega

theorem Ok.next_remain (h : Ok g c) : (c.next g).remain = c.remain - c.sects g := by
  have hle := h.sects_le
  have h0 := h.nonneg
  have hb := h.le_int32
  have hrest := toU32_of_nonneg (x := (c.remain : ℤ) - c.sects g) (by omega) (by omega)
  simp only [next]
  omega

theorem Ok.next_lba (h : Ok g c) (hpos : 0 < (c.next g).remain) :
    (c.next g).lba = c.lba + c.sects g := by
  have h0 := h.nonneg
  have hb := h.le_int32
  rw [h.next_remain] at hpos
  exact toI32_of_bounds (by omega) (by omega)

/-- While sectors remain, the next round is in order. -/
theorem Ok.next (h : Ok g c) (hpos : 0 < (c.next g).remain) : Ok g (c.next g) := by
  have hlba := h.next_lba hpos
  have hrem := h.next_remain
  have hsects := h.sects_eq
  have hl := h.leftSkip_lt
  have hd := h.le_device
  have hb := h.le_int32
  have h0 := h.nonneg
  refine ⟨by omega, ?_, by omega, by omega⟩
  -- the round ended at a page boundary
  have hend : c.lba + c.sects g = g.sectorsPerPage * (c.lba / g.sectorsPerPage + 1) := by
    have hdiv := Int.emod_add_mul_ediv c.lba g.sectorsPerPage
    rw [← h.leftSkip] at hdiv
    have hs : (c.sects g : ℤ) = g.sectorsPerPage - c.leftSkip := by omega
    rw [hs, mul_add, mul_one]
    omega
  rw [hlba, hend, Int.mul_emod_right]
  rfl

theorem Ok.lpn_eq (h : Ok g c) : c.lpn g = c.lba / g.sectorsPerPage :=
  Int.tdiv_eq_ediv_of_nonneg h.nonneg

theorem Ok.lpn_nonneg (h : Ok g c) : 0 ≤ c.lpn g := by
  rw [h.lpn_eq]
  exact Int.ediv_nonneg h.nonneg (Int.natCast_nonneg _)

theorem Ok.lpn_lt (h : Ok g c) (hpos : 0 < c.remain) : c.lpn g < g.pageMappingEntryNb := by
  have hspp : (0 : ℤ) < g.sectorsPerPage := by exact_mod_cast g.sectorsPerPage_pos
  rw [h.lpn_eq]
  refine Int.ediv_lt_of_lt_mul hspp ?_
  have hdev : (g.sectorNb : ℤ) = g.pageMappingEntryNb * g.sectorsPerPage := by
    simp only [Geometry.sectorNb, Geometry.pageMappingEntryNb]
    push_cast
    ring
  have hd := h.le_device
  omega

theorem Ok.lba_eq (h : c.Ok g) : c.lba = g.sectorsPerPage * c.lpn g + c.leftSkip := by
  rw [h.lpn_eq, h.leftSkip, add_comm, Int.emod_add_mul_ediv]

/-- The round handles the sectors of its logical page from `leftSkip` on. -/
theorem Ok.mem_round_iff (h : c.Ok g) (sector : ℤ) :
    c.lba ≤ sector ∧ sector < c.lba + c.sects g ↔
      sector / g.sectorsPerPage = c.lpn g ∧ c.leftSkip ≤ (sector % g.sectorsPerPage).toNat ∧
        (sector % g.sectorsPerPage).toNat < c.leftSkip + c.sects g := by
  have hpos : (0 : ℤ) < g.sectorsPerPage := by exact_mod_cast g.sectorsPerPage_pos
  have h0 := Int.emod_nonneg sector hpos.ne'
  have hlba := h.lba_eq
  have hdiv := Int.emod_add_mul_ediv sector g.sectorsPerPage
  constructor
  · intro hin
    have hsects := h.sects_eq
    have hskip := h.leftSkip_lt
    have hlpn : sector / g.sectorsPerPage = c.lpn g := by
      refine (Int.ediv_eq_iff_of_pos hpos).mpr ⟨?_, ?_⟩
      · rw [mul_comm]
        omega
      · rw [mul_comm]
        omega
    rw [hlpn] at hdiv
    omega
  · rintro ⟨hlpn, hin⟩
    rw [hlpn] at hdiv
    omega

variable (g) in
/-- Does the round cover only a part of its logical page? -/
def part (c : Cursor) : Bool := decide (c.leftSkip ≠ 0 ∨ c.rightSkip g ≠ 0)

end Cursor

/-- The host pages of a request, from loop variables `c` and page number `k` on: the logical page,
the page number and whether the page is covered only in part. -/
def pieces : ℕ → Cursor → ℕ → List (ℤ × ℕ × Bool)
  | 0, _, _ => []
  | rounds + 1, c, k =>
    if 0 < c.remain then (c.lpn g, k, c.part g) :: pieces rounds (c.next g) (k + 1) else []

variable {g}

/-- The logical pages of a request are those of its sectors. -/
theorem mem_pieces_iff (rounds : ℕ) {c : Cursor} (k : ℕ) (hc : 0 < c.remain → c.Ok g)
    (hrounds : c.remain ≤ rounds) (l : ℤ) :
    (∃ w ∈ pieces g rounds c k, w.1 = l) ↔
      ∃ sector, c.lba ≤ sector ∧ sector < c.lba + c.remain ∧ sector / g.sectorsPerPage = l := by
  induction rounds generalizing c k with
  | zero =>
    simp only [pieces, List.not_mem_nil, false_and, exists_false, false_iff]
    rintro ⟨sector, h₁, h₂, -⟩
    omega
  | succ rounds ih =>
    by_cases hpos : 0 < c.remain
    swap
    · simp only [pieces, if_neg hpos, List.not_mem_nil, false_and, exists_false, false_iff]
      rintro ⟨sector, h₁, h₂, -⟩
      omega
    have hok := hc hpos
    have hle := hok.sects_le
    have hsects := hok.sects_pos hpos
    have hrem := hok.next_remain
    rw [pieces, if_pos hpos, List.exists_mem_cons_iff,
      ih (k + 1) (fun h => hok.next h) (by omega)]
    constructor
    · rintro (rfl | ⟨sector, h₁, h₂, rfl⟩)
      · exact ⟨c.lba, le_rfl, by omega, hok.lpn_eq.symm⟩
      · have hlba := hok.next_lba (by omega)
        exact ⟨sector, by omega, by omega, rfl⟩
    · rintro ⟨sector, h₁, h₂, rfl⟩
      by_cases hround : sector < c.lba + c.sects g
      · exact .inl ((hok.mem_round_iff sector).mp ⟨h₁, hround⟩).1.symm
      · have hlba := hok.next_lba (by omega)
        exact .inr ⟨sector, by omega, by omega, rfl⟩

end Vssim
