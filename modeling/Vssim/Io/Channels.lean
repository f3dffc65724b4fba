import Vssim.Io.Lifecycle

/-!
# The scans of a channel

`SSD_CH_ACCESS`, `SSD_GET_CH_ACCESS_TIME_FOR_READ` and `SSD_UPDATE_CH_ACCESS_TIME` run over
`WAY_NB` chips of a channel, and `WAY_NB` is `FLASH_NB / CHANNEL_NB` rounded down. A page
operation takes the channel of its chip modulo `CHANNEL_NB`, so when the division leaves a
remainder the first channels have one chip more than their scans visit (`scanned_iff`).
-/

namespace Vssim

open Io

variable {g : Geometry} {t : IoConfig} {channel r : ℕ}

/-- The scans of a channel visit every register of its chips, each once, and no other. -/
structure Scanned (g : Geometry) (t : IoConfig) (channel : ℕ) : Prop where
  once : (channelRegs g t channel).Nodup
  lt : ∀ r ∈ channelRegs g t channel, r < g.flashNb * g.planesPerFlash
  mem_iff : ∀ r, r ∈ channelRegs g t channel ↔ ∃ flashNb < g.flashNb,
    flashNb % t.channelNb = channel ∧ ∃ plane < g.planesPerFlash, r = flashNb * g.planesPerFlash + plane
  /-- The registers in which the page operations on the channel are recorded. -/
  recorded : ∀ flashNb < g.flashNb, flashNb % t.channelNb = channel → ∀ blockNb,
    regOf g flashNb blockNb ∈ channelRegs g t channel

/-- The chips that the scans visit. -/
private theorem mem_channelRegs : r ∈ channelRegs g t channel ↔ ∃ i < g.flashNb / t.channelNb,
    ∃ plane < g.planesPerFlash, r = (channel + i * t.channelNb) * g.planesPerFlash + plane := by
  simp only [channelRegs, wayNb, List.mem_flatMap, List.mem_map, List.mem_range, Nat.add_mul]
  exact exists_congr fun i => and_congr_right fun _ => exists_congr fun j =>
    and_congr_right fun _ => eq_comm

/-- A register determines its chip. -/
private theorem chip_eq {m n i j : ℕ} (hi : i < g.planesPerFlash) (hj : j < g.planesPerFlash)
    (h : m * g.planesPerFlash + i = n * g.planesPerFlash + j) : m = n ∧ i = j := by
  have hm := congrArg (· / g.planesPerFlash) h
  have hmod := congrArg (· % g.planesPerFlash) h
  simp only [Nat.mul_comm _ g.planesPerFlash, Nat.mul_add_div g.planesPerFlash_pos,
    Nat.mul_add_mod, Nat.div_eq_of_lt hi, Nat.div_eq_of_lt hj, Nat.mod_eq_of_lt hi,
    Nat.mod_eq_of_lt hj] at hm hmod
  exact ⟨hm, hmod⟩

private theorem channelRegs_nodup (g : Geometry) (t : IoConfig) (channel : ℕ) :
    (channelRegs g t channel).Nodup := by
  have hsplit : ∀ i, i * t.channelNb * g.planesPerFlash + channel * g.planesPerFlash =
      (channel + i * t.channelNb) * g.planesPerFlash := fun i => by rw [Nat.add_mul, Nat.add_comm]
  refine List.nodup_flatMap.mpr ⟨fun i _ => ?_, ?_⟩
  · exact List.nodup_range.map fun a b h => Nat.add_left_cancel h
  · refine List.nodup_range.imp fun {i k} hne r hi hk => hne ?_
    obtain ⟨a, ha, rfl⟩ := List.mem_map.mp hi
    obtain ⟨b, hb, heq⟩ := List.mem_map.mp hk
    have hchips := (chip_eq (g := g) (List.mem_range.mp ha) (List.mem_range.mp hb)
      (by rw [← hsplit, ← hsplit]; omega :
        (channel + i * t.channelNb) * g.planesPerFlash + a =
          (channel + k * t.channelNb) * g.planesPerFlash + b)).1
    exact Nat.eq_of_mul_eq_mul_right t.channelNb_pos (Nat.add_left_cancel hchips)

/-- A channel from the remainder on has no chip that its scans do not visit. -/
private theorem way_lt {i : ℕ} (hrem : g.flashNb % t.channelNb ≤ channel)
    (hi : channel + i * t.channelNb < g.flashNb) : i < g.flashNb / t.channelNb := by
  have hdiv := Nat.div_add_mod g.flashNb t.channelNb
  by_contra hge
  have hmul := Nat.mul_le_mul_left t.channelNb (Nat.not_lt.mp hge)
  rw [Nat.mul_comm t.channelNb i] at hmul
  omega

/-- **The scans cover the channel** exactly when its number is at least the remainder of
`FLASH_NB / CHANNEL_NB`: all channels when the division is exact. -/
theorem scanned_iff (hc : channel < t.channelNb) :
    Scanned g t channel ↔ g.flashNb % t.channelNb ≤ channel := by
  constructor
  · intro h
    by_contra hlt
    -- the chip after the last one that is visited
    have hdiv := Nat.div_add_mod g.flashNb t.channelNb
    rw [Nat.mul_comm] at hdiv
    have hmod : (channel + g.flashNb / t.channelNb * t.channelNb) % t.channelNb = channel := by
      rw [Nat.add_mul_mod_self_right, Nat.mod_eq_of_lt hc]
    have hmem := h.recorded (channel + g.flashNb / t.channelNb * t.channelNb) (by omega) hmod 0
    obtain ⟨i, hi, plane, hplane, heq⟩ := mem_channelRegs.mp hmem
    have hchip := (chip_eq (Nat.mod_lt 0 g.planesPerFlash_pos) hplane heq).1
    have hway := Nat.eq_of_mul_eq_mul_right t.channelNb_pos (Nat.add_left_cancel hchip)
    exact Nat.lt_irrefl _ (hway ▸ hi)
  · intro hrem
    have hmem : ∀ r, r ∈ channelRegs g t channel ↔ ∃ flashNb < g.flashNb,
        flashNb % t.channelNb = channel ∧
        ∃ plane < g.planesPerFlash, r = flashNb * g.planesPerFlash + plane := fun r => by
      rw [mem_channelRegs]
      constructor
      · rintro ⟨i, hi, hplane⟩
        refine ⟨channel + i * t.channelNb, ?_, ?_, hplane⟩
        · have hway : (i + 1) * t.channelNb ≤ g.flashNb :=
            (Nat.mul_le_mul_right _ hi).trans (Nat.div_mul_le_self ..)
          rw [Nat.succ_mul] at hway
          omega
        · rw [Nat.add_mul_mod_self_right, Nat.mod_eq_of_lt hc]
      · rintro ⟨flashNb, hflash, hmod, hplane⟩
        have hsplit : channel + flashNb / t.channelNb * t.channelNb = flashNb := by
          rw [← hmod, Nat.mul_comm, Nat.mod_add_div]
        refine ⟨flashNb / t.channelNb, way_lt hrem (hsplit.trans_lt hflash), ?_⟩
        rwa [hsplit]
    refine ⟨channelRegs_nodup g t channel, fun r hr => channelRegs_lt t hc hr, hmem, ?_⟩
    exact fun flashNb hflash hmod blockNb => (hmem _).mpr ⟨flashNb, hflash, hmod,
      blockNb % g.planesPerFlash, Nat.mod_lt _ g.planesPerFlash_pos, rfl⟩

/-- Two channels, for the chips of a device to share. -/
def twoChannels : IoConfig := { smallDelays with channelNb := 2, channelNb_pos := Nat.two_pos }

/-- Four chips on two channels. -/
theorem scanned_fourChips : Scanned
    { smallDevice with flashNb := 4, flashNb_pos := by decide } twoChannels 0 ∧ Scanned
    { smallDevice with flashNb := 4, flashNb_pos := by decide } twoChannels 1 :=
  ⟨(scanned_iff (by decide)).mpr (by decide), (scanned_iff (by decide)).mpr (by decide)⟩

/-- Three chips on two channels: the third is on channel 0, whose scans visit the first only. -/
theorem not_scanned_threeChips :
    channelRegs { smallDevice with flashNb := 3, flashNb_pos := by decide } twoChannels 0 = [0, 1] ∧
    regOf { smallDevice with flashNb := 3, flashNb_pos := by decide } 2 0 = 4 ∧
    2 % twoChannels.channelNb = 0 ∧
    ¬Scanned { smallDevice with flashNb := 3, flashNb_pos := by decide } twoChannels 0 := by
  refine ⟨by decide, by decide, by decide, fun h => ?_⟩
  exact absurd (h.recorded 2 (by decide) (by decide) 0) (by decide)

end Vssim
