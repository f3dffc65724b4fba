import Vssim.Io.Register
import Vssim.Io.Requests

/-!
# The registers

The invariant that ties the registers to the requests: the pages that have started and not ended
are exactly those in the `access_nb` of some register, each in one, and a register that holds
a page has the command and the time stamp that make whoever next uses it report its end.

Every function of the I/O manager but the recording of a host page only **drains** registers: it
may report ends, and starts nothing.
-/

namespace Vssim

/-- `FLASH_NB * PLANES_PER_FLASH`, the number of registers. -/
def Geometry.regNb (g : Geometry) : ℕ := g.flashNb * g.planesPerFlash

/-- What `reg_io_cmd` can be. -/
def IoType.IsCommand (c : IoType) : Prop := c = .noop ∨ c = .read ∨ c = .write ∨ c = .erase

namespace Io

/-- The register works on page `p.2` of request `p.1`. -/
def Holds (s : Io) (reg : ℕ) (p : ℕ × ℕ) : Prop := s.accessNb reg = (toI32 p.1, (p.2 : ℤ))

theorem Holds.fst {s : Io} {reg : ℕ} {p : ℕ × ℕ} (h : s.Holds reg p) :
    (s.accessNb reg).1 = toI32 p.1 := by
  rw [Holds] at h
  rw [h]

/-- A register works on one page. -/
theorem Holds.inj {s : Io} {reg : ℕ} {p q : ℕ × ℕ} (h : s.Holds reg p) (h' : s.Holds reg q)
    {τ : Tracker} (hfits : Fits τ) (hp : p.1 < τ.count) (hq : q.1 < τ.count) : p = q := by
  have heq := h.symm.trans h'
  rw [Prod.mk.injEq, Int.ofNat_inj] at heq
  exact Prod.ext (hfits.toI32_inj hp hq heq.1) heq.2

/-- The register works on no host page. -/
def Vacant (s : Io) (reg : ℕ) : Prop := (s.accessNb reg).1 = -1

theorem Holds.not_vacant {s : Io} {reg : ℕ} {p : ℕ × ℕ} (h : s.Holds reg p) {τ : Tracker}
    (hfits : Fits τ) (hp : p.1 < τ.count) : ¬s.Vacant reg := by
  rw [Vacant, h.fst]
  exact hfits.toI32_ne hp

/-- The end of the page in the register is still to be reported: by `SSD_REG_READ_DELAY`, or by
`SSD_CELL_WRITE_DELAY`. -/
def Due (s : Io) (reg : ℕ) : Prop :=
  s.regIoCmd reg = .read ∧ 0 ≤ s.regIoTime reg ∨ s.regIoCmd reg = .write ∧ 0 ≤ s.cellIoTime reg

end Io

open Io

/-- The invariant of the I/O manager. -/
structure IoInv (g : Geometry) (s : Io) (τ : Tracker) : Prop where
  booked : Booked s.requests s.log τ
  held : ∀ p ∈ τ.pending, ∃! reg, reg < g.regNb ∧ s.Holds reg p
  pending : ∀ reg < g.regNb, s.Vacant reg ∨ ∃ p ∈ τ.pending, s.Holds reg p
  due : ∀ reg < g.regNb, s.Vacant reg ∨ s.Due reg
  command : ∀ reg, (s.regIoCmd reg).IsCommand
  channelTime : 0 ≤ s.oldChannelTime

/-- Nothing changes for the registers other than `reg`. -/
structure Elsewhere (reg : ℕ) (s s' : Io) : Prop where
  access : ∀ r ≠ reg, s'.accessNb r = s.accessNb r
  command : ∀ r ≠ reg, s'.regIoCmd r = s.regIoCmd r
  regTime : ∀ r ≠ reg, 0 ≤ s.regIoTime r → 0 ≤ s'.regIoTime r
  cellTime : ∀ r ≠ reg, 0 ≤ s.cellIoTime r → 0 ≤ s'.cellIoTime r
  channelTime : 0 ≤ s.oldChannelTime → 0 ≤ s'.oldChannelTime

namespace Elsewhere

variable {reg r : ℕ} {s s' : Io}

theorem holds_iff (h : Elsewhere reg s s') (hr : r ≠ reg) (p : ℕ × ℕ) :
    s'.Holds r p ↔ s.Holds r p := by
  rw [Holds, Holds, h.access r hr]

theorem vacant_iff (h : Elsewhere reg s s') (hr : r ≠ reg) : s'.Vacant r ↔ s.Vacant r := by
  rw [Vacant, Vacant, h.access r hr]

private theorem due (h : Elsewhere reg s s') (hr : r ≠ reg) (hdue : s.Due r) : s'.Due r := by
  rcases hdue with ⟨hcmd, htime⟩ | ⟨hcmd, htime⟩
  · exact .inl ⟨(h.command r hr).trans hcmd, h.regTime r hr htime⟩
  · exact .inr ⟨(h.command r hr).trans hcmd, h.cellTime r hr htime⟩

end Elsewhere

namespace IoInv

variable {g : Geometry} {s s' : Io} {τ : Tracker} {reg : ℕ} {p : ℕ × ℕ}

/-- A register that holds a pending page is not vacant. -/
theorem not_vacant (h : IoInv g s τ) (hp : p ∈ τ.pending) (hold : s.Holds reg p) :
    ¬s.Vacant reg := hold.not_vacant h.booked.fits (Tracker.lt_count hp)

/-- A step that leaves the page in `reg` there, or leaves it vacant. -/
theorem keep (h : IoInv g s τ) (helse : Elsewhere reg s s')
    (hbook : Booked s'.requests s'.log τ)
    (hreg : s'.accessNb reg = s.accessNb reg ∨ s.Vacant reg ∧ s'.Vacant reg)
    (hdue : ¬s'.Vacant reg → s'.Due reg) (hcmd : (s'.regIoCmd reg).IsCommand) : IoInv g s' τ := by
  have hholds : ∀ r, ∀ p ∈ τ.pending, s'.Holds r p ↔ s.Holds r p := fun r p hp => by
    by_cases hr : r = reg
    · subst hr
      rcases hreg with heq | ⟨hvac, hvac'⟩
      · rw [Holds, Holds, heq]
      · exact ⟨fun hold => absurd hvac' (hold.not_vacant h.booked.fits (Tracker.lt_count hp)),
          fun hold => absurd hvac (h.not_vacant hp hold)⟩
    · exact helse.holds_iff hr p
  have hvacant : ∀ r, s'.Vacant r ↔ s.Vacant r := fun r => by
    by_cases hr : r = reg
    · subst hr
      rcases hreg with heq | ⟨hvac, hvac'⟩
      · rw [Vacant, Vacant, heq]
      · exact iff_of_true hvac' hvac
    · exact helse.vacant_iff hr
  refine ⟨hbook, fun p hp => ?_, fun r hr => ?_, fun r hr => ?_, fun r => ?_,
    helse.channelTime h.channelTime⟩
  · simpa only [hholds _ p hp] using h.held p hp
  · rw [hvacant]
    refine (h.pending r hr).imp_right ?_
    rintro ⟨p, hp, hold⟩
    exact ⟨p, hp, (hholds r p hp).mpr hold⟩
  · by_cases hr' : r = reg
    · subst hr'
      exact or_iff_not_imp_left.mpr hdue
    · rw [hvacant]
      exact (h.due r hr).imp_right (helse.due hr')
  · by_cases hr : r = reg
    · exact hr ▸ hcmd
    · rw [helse.command r hr]
      exact h.command r

/-- A page starts in the vacant register `reg`. -/
theorem begin (h : IoInv g s τ) (helse : Elsewhere reg s s') (hlt : reg < g.regNb)
    (hvac : s.Vacant reg) {r : ℕ} (hr : τ.begun r < τ.size r)
    (hbook : Booked s'.requests s'.log (τ.begin r hr)) (hreg : s'.Holds reg (r, τ.begun r))
    (hdue : s'.Due reg) : IoInv g s' (τ.begin r hr) := by
  have hpend : ∀ q, q ∈ (τ.begin r hr).pending ↔ q = (r, τ.begun r) ∨ q ∈ τ.pending :=
    fun q => Finset.mem_insert
  have hcount : r < τ.count := Tracker.Live.lt_count (.inl hr)
  -- the new page is in no other register, and no other page is in `reg`
  have hnew : ∀ k < g.regNb, k ≠ reg → ¬s'.Holds k (r, τ.begun r) := fun k hk hne hold => by
    rw [helse.holds_iff hne] at hold
    rcases h.pending k hk with hvac' | ⟨q, hq, hold'⟩
    · exact hold.not_vacant h.booked.fits hcount hvac'
    · obtain rfl := hold.inj hold' h.booked.fits hcount (Tracker.lt_count hq)
      exact Tracker.notMem_pending hq
  refine ⟨hbook, fun q hq => ?_, fun k hk => ?_, fun k hk => ?_, fun k => ?_,
    helse.channelTime h.channelTime⟩
  · rcases (hpend q).mp hq with rfl | hq
    · exact ⟨reg, ⟨hlt, hreg⟩, fun k hk => by_contra fun hne => hnew k hk.1 hne hk.2⟩
    · obtain ⟨k, ⟨hk, hold⟩, huniq⟩ := h.held q hq
      have hne : k ≠ reg := by
        rintro rfl
        exact h.not_vacant hq hold hvac
      refine ⟨k, ⟨hk, (helse.holds_iff hne q).mpr hold⟩, fun k' ⟨hk', hold'⟩ => ?_⟩
      by_cases hne' : k' = reg
      · subst hne'
        obtain rfl := hold'.inj hreg h.booked.fits (Tracker.lt_count hq) hcount
        exact absurd hq Tracker.notMem_pending
      · exact huniq k' ⟨hk', (helse.holds_iff hne' q).mp hold'⟩
  · by_cases hne : k = reg
    · exact .inr ⟨_, (hpend _).mpr (.inl rfl), hne ▸ hreg⟩
    · rcases h.pending k hk with hvac' | ⟨q, hq, hold⟩
      · exact .inl ((helse.vacant_iff hne).mpr hvac')
      · exact .inr ⟨q, (hpend q).mpr (.inr hq), (helse.holds_iff hne q).mpr hold⟩
  · by_cases hne : k = reg
    · exact .inr (hne ▸ hdue)
    · rw [helse.vacant_iff hne]
      exact (h.due k hk).imp_right (helse.due hne)
  · by_cases hne : k = reg
    · subst hne
      rcases hdue with hdue | hdue
      · exact .inr (.inl hdue.1)
      · exact .inr (.inr (.inl hdue.1))
    · rw [helse.command k hne]
      exact h.command k

/-- The page in `reg` ends. -/
theorem finish (h : IoInv g s τ) (helse : Elsewhere reg s s') (hlt : reg < g.regNb)
    (hp : p ∈ τ.pending) (hold : s.Holds reg p) (hbook : Booked s'.requests s'.log (τ.finish p))
    (hvac : s'.Vacant reg) (hcmd : (s'.regIoCmd reg).IsCommand) : IoInv g s' (τ.finish p) := by
  have hpend : ∀ q, q ∈ (τ.finish p).pending ↔ q ≠ p ∧ q ∈ τ.pending := fun q => Finset.mem_erase
  refine ⟨hbook, fun q hq => ?_, fun k hk => ?_, fun k hk => ?_, fun k => ?_,
    helse.channelTime h.channelTime⟩
  · obtain ⟨hqp, hq⟩ := (hpend q).mp hq
    obtain ⟨k, ⟨hk, hold'⟩, huniq⟩ := h.held q hq
    have hne : k ≠ reg := by
      rintro rfl
      exact hqp (hold'.inj hold h.booked.fits (Tracker.lt_count hq) (Tracker.lt_count hp))
    refine ⟨k, ⟨hk, (helse.holds_iff hne q).mpr hold'⟩, fun k' ⟨hk', hold''⟩ => ?_⟩
    by_cases hne' : k' = reg
    · subst hne'
      exact absurd hvac (hold''.not_vacant h.booked.fits (Tracker.lt_count hq))
    · exact huniq k' ⟨hk', (helse.holds_iff hne' q).mp hold''⟩
  · by_cases hne : k = reg
    · exact .inl (hne ▸ hvac)
    · rcases h.pending k hk with hvac' | ⟨q, hq, hold'⟩
      · exact .inl ((helse.vacant_iff hne).mpr hvac')
      · refine .inr ⟨q, (hpend q).mpr ⟨?_, hq⟩, (helse.holds_iff hne q).mpr hold'⟩
        rintro rfl
        exact hne ((h.held q hp).unique ⟨hk, hold'⟩ ⟨hlt, hold⟩)
  · by_cases hne : k = reg
    · exact .inl (hne ▸ hvac)
    · rw [helse.vacant_iff hne]
      exact (h.due k hk).imp_right (helse.due hne)
  · by_cases hne : k = reg
    · exact hne ▸ hcmd
    · rw [helse.command k hne]
      exact h.command k

end IoInv

end Vssim
