import Vssim.Config.File
import Vssim.Ftl.KeepUp

/-!
# The test of the local build

`LOCAL/tests.c`, a build without QEMU, the monitor and the buffers of the firmware: `SSD_WRITE` is
`FTL_WRITE`. `test_access` writes the lowest 70% of the device once over, in requests of one size,
one after the other or at random places.
-/

namespace Vssim

open Finset

variable {g : Geometry}

/-- `ACCESS_RANDOM` and `ACCESS_SEQUENTIAL`. -/
inductive AccessType
  | random
  | sequential
  deriving DecidableEq, Repr

/-- The `lba` of a round: `random` are the values of `random()`, call by call. -/
def testLba (maxLba reqSize : ℕ) (accessType : AccessType) (random : ℕ → ℕ) (i calls : ℕ) : ℕ :=
  match accessType with
  | .sequential => i % maxLba
  | .random => random calls / reqSize * reqSize % maxLba

/-- The loop of `test_access`, in no more than `fuel` rounds: its calls of `SSD_WRITE`. -/
def testLoop (maxLba reqSize : ℕ) (accessType : AccessType) (random : ℕ → ℕ) :
    ℕ → ℕ → ℕ → Option (List Request)
  | 0, _, _ => none
  | fuel + 1, i, calls =>
    if i < maxLba then do
      let reqs ← testLoop maxLba reqSize accessType random fuel (i + reqSize) (calls + 1)
      some (.write (testLba maxLba reqSize accessType random i calls) reqSize :: reqs)
    else some []

variable (g) in
/-- `max_lba`. -/
def maxLba : ℕ := g.sectorNb * 7 / 10

variable (g) in
/-- `test_access`. -/
def testAccess (sectorSize reqSize : ℕ) (accessType : AccessType) (random : ℕ → ℕ) (fuel : ℕ) :
    Option (List Request) :=
  testLoop (maxLba g) (reqSize / sectorSize) accessType random fuel 0 0

private theorem testLba_lt {maxLba reqSize i calls : ℕ} (accessType : AccessType) (random : ℕ → ℕ)
    (h : i < maxLba) : testLba maxLba reqSize accessType random i calls < maxLba := by
  cases accessType <;> exact Nat.mod_lt _ (by omega)

/-- The loop ends, and its requests begin below `max_lba`. -/
private theorem testLoop_returns {maxLba reqSize : ℕ} (hpos : 0 < reqSize) (accessType : AccessType)
    (random : ℕ → ℕ) {fuel i : ℕ} (hsome : 0 < fuel) (hfuel : maxLba < i + fuel) (calls : ℕ) :
    ∃ reqs, testLoop maxLba reqSize accessType random fuel i calls = some reqs ∧
      ∀ req ∈ reqs, ∃ lba : ℕ, lba < maxLba ∧ req = .write lba reqSize := by
  induction fuel generalizing i calls with
  | zero => exact absurd hsome (Nat.lt_irrefl 0)
  | succ fuel ih =>
    rw [testLoop]
    split
    · next hi =>
      obtain ⟨reqs, hreqs, hall⟩ := ih (i := i + reqSize) (by omega) (by omega) (calls + 1)
      refine ⟨_, by rw [hreqs]; rfl, ?_⟩
      rw [List.forall_mem_cons]
      exact ⟨⟨_, testLba_lt accessType random hi, rfl⟩, hall⟩
    · exact ⟨[], rfl, by simp⟩

/-! ### The test -/

/-- The logical pages of requests that end at `top`. -/
private theorem card_lpnsWritten_le {reqs : List Request} {top : ℕ}
    (hreqs : ∀ req ∈ reqs, ∃ sectorNb length, req = .write sectorNb length ∧
      InRange g sectorNb length ∧ sectorNb + length ≤ top) :
    #(lpnsWritten g reqs) ≤ (top - 1) / g.sectorsPerPage + 1 := by
  have hsub : lpnsWritten g reqs ⊆
      (range ((top - 1) / g.sectorsPerPage + 1)).image fun n : ℕ => (n : ℤ) := by
    intro l hl
    rw [lpnsWritten, List.mem_toFinset, List.mem_flatMap] at hl
    obtain ⟨req, hreq, hl⟩ := hl
    obtain ⟨w, hw, rfl⟩ := List.mem_map.mp hl
    obtain ⟨sectorNb, length, rfl, hrange, htop⟩ := hreqs req hreq
    obtain ⟨hnonneg, hle⟩ := mem_requestPages_lt hrange htop hw
    refine mem_image.mpr ⟨w.1.toNat, ?_, Int.toNat_of_nonneg hnonneg⟩
    rw [mem_range]
    omega
  calc #(lpnsWritten g reqs) ≤ _ := card_le_card hsub
    _ ≤ #(range ((top - 1) / g.sectorsPerPage + 1)) := card_image_le
    _ = (top - 1) / g.sectorsPerPage + 1 := card_range _

/-- **`test_access` goes through**, with either access type and whatever `random()` returns: every
request lies within the device, every write succeeds and no collection gives up. The requests may
begin in the middle of a page, so that one of `n` sectors touches up to
`(n + 2 * SECTORS_PER_PAGE - 2) / SECTORS_PER_PAGE` pages. -/
theorem testAccess_succeeds (hplanes : g.planesPerFlash = 1) (hvictim : 1 ≤ g.gcVictimNb)
    (hsize : g.sectorNb < 2 ^ 31) {sectorSize reqSize n pages : ℕ} (hn : n = reqSize / sectorSize)
    (hpos : 0 < n) (hfits : maxLba g + n ≤ g.sectorNb)
    (hpages : pages = (n + 2 * g.sectorsPerPage - 2) / g.sectorsPerPage)
    (hblock : pages ≤ g.pageNb) (hroom : (maxLba g + n - 1) / g.sectorsPerPage + 1 <
      (g.blockMappingEntryNb - g.emptyTableEntryNb) * (g.pageNb - pages + 1))
    (accessType : AccessType) (random : ℕ → ℕ) {fuel : ℕ} (hfuel : maxLba g < fuel) :
    ∃ reqs hist s, testAccess g sectorSize reqSize accessType random fuel = some reqs ∧
      serveAll g (allocFuel g) reqs (ftlInit g) = some (hist, s) ∧
      hist.map Served.request = reqs ∧
      ∀ e ∈ hist, e.ret = .success ∧ ¬ GcAborted e.events := by
  subst hn hpages
  obtain ⟨reqs, hreqs, hall⟩ : ∃ reqs,
      testAccess g sectorSize reqSize accessType random fuel = some reqs ∧
      ∀ req ∈ reqs, ∃ lba : ℕ, lba < maxLba g ∧ req = .write lba (reqSize / sectorSize) :=
    testLoop_returns hpos accessType random (Nat.zero_lt_of_lt hfuel) (by omega) 0
  have hrange : ∀ req ∈ reqs, ∃ sectorNb length, req = .write sectorNb length ∧
      InRange g sectorNb length ∧ sectorNb + length ≤ (maxLba g + reqSize / sectorSize : ℕ) ∧
      length = reqSize / sectorSize := by
    intro req hreq
    obtain ⟨lba, hlba, rfl⟩ := hall req hreq
    refine ⟨lba, _, rfl, ⟨Int.natCast_nonneg _, hpos, ?_, ?_⟩, ?_, rfl⟩ <;> push_cast <;> omega
  have hdvd : g.planesPerFlash ∣ g.blockNb := hplanes ▸ one_dvd _
  have hin : ∀ req ∈ reqs, req.InRange g := by
    intro req hreq
    obtain ⟨sectorNb, length, rfl, hin, -⟩ := hrange req hreq
    exact hin
  have hlength : ∀ req ∈ reqs, (req.pages g).length ≤
      (reqSize / sectorSize + 2 * g.sectorsPerPage - 2) / g.sectorsPerPage := by
    intro req hreq
    obtain ⟨sectorNb, length, rfl, hin, -, rfl⟩ := hrange req hreq
    exact length_requestPages hin
  have hcard := card_lpnsWritten_le fun req hreq => by
    obtain ⟨sectorNb, length, heq, hin, htop, -⟩ := hrange req hreq
    exact ⟨sectorNb, length, heq, hin, htop⟩
  obtain ⟨hist, s, hserve⟩ := serveAll_returns hplanes le_rfl (ftlInit_inv hdvd) hin
  have hhist := serveAll_requests hserve
  refine ⟨reqs, hist, s, hreqs, hserve, hhist, fun e he => ?_⟩
  have hrun : Run g hist s := serveAll_trace hin hserve
  obtain ⟨hret, habort⟩ := boundedWrites_run hdvd hvictim hblock hrun (hhist.symm ▸ hlength)
    (hhist.symm ▸ hcard.trans_lt hroom) e he
  obtain ⟨sectorNb, length, heq, -⟩ := hrange e.request (hhist ▸ List.mem_map_of_mem he)
  exact ⟨hret sectorNb length heq, habort⟩

/-- `tests 8 r` on the device of `CONFIG/ssd.conf`, 32 KB to a request, with some numbers for
`random()`. `GC_VICTIM_OVERALL` is not defined, as in `common.h`. -/
theorem testAccess_succeeds_ssdConf :
    let g := { ssdConfDevice with gcVictimOverall := false }
    ∃ reqs hist s,
      testAccess g 512 32768 .random (fun k => 1103515245 * k + 12345) 4000000 = some reqs ∧
      serveAll g (allocFuel g) reqs (ftlInit g) = some (hist, s) ∧
      hist.map Served.request = reqs ∧ ∀ e ∈ hist, e.ret = .success ∧ ¬ GcAborted e.events :=
  testAccess_succeeds rfl (by decide) (by decide) rfl (by decide) (by decide) rfl (by decide)
    (by decide) .random _ (by decide)

end Vssim
