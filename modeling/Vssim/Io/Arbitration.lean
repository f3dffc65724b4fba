import Vssim.Io.PartialWrite

/-!
# The wait for a channel

`SSD_PAGE_WRITE` calls `SSD_CH_ACCESS` until it returns `SUCCESS`. A call that fails has finished
the transfer of at least one of the registers it scans, and no call starts one; so the number of
registers with a transfer left **drops with every round**, although time goes on and transfers
become due that were not before. The last call has found none due and has done nothing but read
the clock (`chAccess_ends`).
-/

namespace Vssim

open Io

/-- No step that drains registers starts a transfer. -/
theorem Move.regTime_eq {t : IoConfig} {x y : Reg} (h : Move t x y) (hx : x.regTime = -1) :
    y.regTime = -1 := by
  cases h with
  | cellRead => exact hx
  | regRead => rfl
  | regWrite => rfl
  | cellWrite => rfl
  | blockErase => exact hx
  | later hcmd htime hnonneg => omega

/-- Nor a cell operation. -/
theorem Move.cellTime_eq {t : IoConfig} {x y : Reg} (h : Move t x y) (hx : x.cellTime = -1) :
    y.cellTime = -1 := by
  cases h with
  | cellRead => rfl
  | regRead => rfl
  | regWrite => exact hx
  | cellWrite => rfl
  | blockErase => rfl
  | later => exact hx

namespace Io

variable (g : Geometry) (t : IoConfig) (clk : Clock)

/-- The state after `n` calls of `SSD_CH_ACCESS`. -/
def chAccessAfter (channel n : ℕ) (s : Io) : Io :=
  (fun s => (ssdChAccess g t clk channel s).2)^[n] s

/-- The state in which `SSD_CH_ACCESS` tests the register that it scans after `i` others. -/
def chAccessAt (channel i : ℕ) (s : Io) : Io :=
  (((channelRegs g t channel).take i).foldl (fun st r => chAccessReg t clk r st) (.success, s)).2

/-- The number of registers of the channel that have a transfer left. -/
def pendingTransfers (channel : ℕ) (s : Io) : ℕ :=
  (channelRegs g t channel).countP fun r => s.regIoTime r ≠ -1

private theorem length_channelRegs (channel : ℕ) :
    (channelRegs g t channel).length = wayNb g t * g.planesPerFlash := by
  simp [channelRegs, List.length_flatMap]

variable {g t clk} {s : Io} {channel : ℕ}

/-! ### One call -/

private theorem chAccessReg_retires {r : ℕ} (h : s.TransferDue r (clk.read s.tick)) (ret : Ret) :
    (chAccessReg t clk r (ret, s)).2.regIoTime r = -1 := by
  obtain ⟨hcmd, htime, hne⟩ := h
  simp only [chAccessReg, getUsec, htime, hne, ne_eq, not_false_eq_true, and_self, if_true]
  rcases hcmd with hcmd | hcmd
  · obtain ⟨-, hcell, hcommand, -⟩ :=
      ssdCellReadDelay_drained t clk (s := { s with tick := s.tick + 1 }) hcmd
    simp only [hcmd]
    exact (ssdRegReadDelay_drained t clk ((congrFun hcommand r).trans hcmd) hcell).2.1
  · simp only [hcmd]
    exact (ssdRegWriteDelay_drained t clk (s := { s with tick := s.tick + 1 }) hcmd).2.1

/-- A scan that finds a transfer due leaves one of its registers without a transfer. -/
private theorem chAccess_foldl_retires {rs : List ℕ} (h : ¬AllQuiet clk rs s) (ret : Ret) :
    ∃ r ∈ rs, s.regIoTime r ≠ -1 ∧
      (rs.foldl (fun st r => chAccessReg t clk r st) (ret, s)).2.regIoTime r = -1 := by
  induction rs generalizing s with
  | nil => exact absurd (fun i r hr => by simp at hr) h
  | cons r rs ih =>
    rw [List.foldl_cons]
    by_cases hdue : s.TransferDue r (clk.read s.tick)
    · refine ⟨r, List.mem_cons_self, hdue.2.2, ?_⟩
      have hrest := chAccess_foldl_drained t clk rs (chAccessReg t clk r (ret, s))
      exact (hrest.moves r).rule (P := fun x => x.regTime = -1) Move.regTime_eq
        (chAccessReg_retires hdue ret)
    · rw [AllQuiet.cons, not_and] at h
      obtain ⟨k, hk, hne, hretired⟩ := ih (h hdue)
      rw [chAccessReg_quiet hdue]
      exact ⟨k, List.mem_cons_of_mem r hk, hne, hretired⟩

/-- Fewer elements have a property that implies another, which one element has alone. -/
private theorem countP_lt_of_imp {α : Type} {p q : α → Bool} (himp : ∀ a, q a = true → p a = true)
    {a : α} (hp : p a = true) (hq : q a = false) {as : List α} (ha : a ∈ as) :
    as.countP q < as.countP p := by
  induction as with
  | nil => exact absurd ha List.not_mem_nil
  | cons b bs ih =>
    have hle : bs.countP q ≤ bs.countP p := List.countP_mono_left fun c _ => himp c
    rw [List.countP_cons, List.countP_cons]
    rcases List.mem_cons.mp ha with rfl | hmem
    · rw [hp, hq]
      simpa using Nat.lt_succ_of_le hle
    · have hlt := ih hmem
      have hb : (if q b = true then 1 else 0) ≤ if p b = true then 1 else 0 := by
        split
        · rw [if_pos (himp b ‹_›)]
        · exact Nat.zero_le _
      omega

/-- A step that finishes a transfer and starts none leaves fewer. -/
theorem pendingTransfers_lt {s' : Io} {r : ℕ} (hr : r ∈ channelRegs g t channel)
    (hne : s.regIoTime r ≠ -1) (hgone : s'.regIoTime r = -1)
    (hkeep : ∀ k, s.regIoTime k = -1 → s'.regIoTime k = -1) :
    pendingTransfers g t channel s' < pendingTransfers g t channel s := by
  rw [pendingTransfers, pendingTransfers]
  refine countP_lt_of_imp (fun k hk => ?_) (a := r) (by simpa using hne) (by simpa using hgone) hr
  simp only [ne_eq, decide_eq_true_eq] at hk ⊢
  exact fun htime => hk (hkeep k htime)

/-- **A call that fails** leaves fewer transfers. -/
theorem ssdChAccess_fail (h : ¬AllQuiet clk (channelRegs g t channel) s) :
    (ssdChAccess g t clk channel s).1 = .fail ∧
      pendingTransfers g t channel (ssdChAccess g t clk channel s).2 <
        pendingTransfers g t channel s := by
  obtain ⟨r, hr, hne, hretired⟩ := chAccess_foldl_retires (t := t) h .success
  have hdrained := chAccess_foldl_drained t clk (channelRegs g t channel) (.success, s)
  exact ⟨(chAccess_foldl_due h .success).1, pendingTransfers_lt hr hne hretired fun k htime =>
    (hdrained.moves k).rule (P := fun x => x.regTime = -1) Move.regTime_eq htime⟩

/-- A call that finds nothing due reads the clock once for every register. -/
private theorem ssdChAccess_success (h : AllQuiet clk (channelRegs g t channel) s) :
    ssdChAccess g t clk channel s =
      (.success, { s with tick := s.tick + (channelRegs g t channel).length }) :=
  chAccess_foldl_quiet h .success

private theorem AllQuiet.take {rs : List ℕ} (h : AllQuiet clk rs s) (i : ℕ) :
    AllQuiet clk (rs.take i) s := by
  intro k r hr
  rw [List.getElem?_take] at hr
  split at hr
  · exact h k r hr
  · cases hr

/-! ### The loop -/

variable (clk) in
/-- There are no more rounds than transfers, and one. -/
private theorem chAccess_rounds {k : ℕ} (hk : pendingTransfers g t channel s ≤ k) :
    ∃ n ≤ k,
      (∀ i < n, (ssdChAccess g t clk channel (chAccessAfter g t clk channel i s)).1 = .fail) ∧
      AllQuiet clk (channelRegs g t channel) (chAccessAfter g t clk channel n s) := by
  induction k generalizing s with
  | zero =>
    have hquiet : AllQuiet clk (channelRegs g t channel) s := by
      by_contra hdue
      have hlt := (ssdChAccess_fail hdue).2
      omega
    exact ⟨0, le_rfl, fun i hi => absurd hi (Nat.not_lt_zero i), hquiet⟩
  | succ k ih =>
    by_cases hquiet : AllQuiet clk (channelRegs g t channel) s
    · exact ⟨0, Nat.zero_le _, fun i hi => absurd hi (Nat.not_lt_zero i), hquiet⟩
    · obtain ⟨hfail, hlt⟩ := ssdChAccess_fail hquiet
      obtain ⟨n, hn, hfails, hend⟩ := ih (s := (ssdChAccess g t clk channel s).2) (by omega)
      refine ⟨n + 1, Nat.succ_le_succ hn, fun i hi => ?_, hend⟩
      cases i with
      | zero => exact hfail
      | succ i => exact hfails i (Nat.lt_of_succ_lt_succ hi)

/-- The loop with enough fuel is the last of these calls. -/
private theorem chAccessLoop_eq {n : ℕ}
    (hfails : ∀ i < n, (ssdChAccess g t clk channel (chAccessAfter g t clk channel i s)).1 = .fail)
    (hend : (ssdChAccess g t clk channel (chAccessAfter g t clk channel n s)).1 = .success)
    {fuel : ℕ} (hfuel : n < fuel) :
    chAccessLoop g t clk channel fuel s = chAccessAfter g t clk channel (n + 1) s := by
  induction n generalizing s fuel with
  | zero =>
    obtain ⟨fuel, rfl⟩ : ∃ k, fuel = k + 1 := ⟨fuel - 1, by omega⟩
    have hsplit : ssdChAccess g t clk channel s = (.success, (ssdChAccess g t clk channel s).2) :=
      Prod.ext hend rfl
    rw [chAccessLoop, hsplit]
    rfl
  | succ n ih =>
    obtain ⟨fuel, rfl⟩ : ∃ k, fuel = k + 1 := ⟨fuel - 1, by omega⟩
    have hsplit : ssdChAccess g t clk channel s = (.fail, (ssdChAccess g t clk channel s).2) :=
      Prod.ext (hfails 0 (Nat.succ_pos n)) rfl
    rw [chAccessLoop, hsplit]
    exact ih (fun i hi => hfails (i + 1) (Nat.succ_lt_succ hi)) hend (Nat.lt_of_succ_lt_succ hfuel)

/-- More fuel than there are registers makes no difference. -/
theorem chAccessLoop_eq_wait {fuel : ℕ} (hfuel : (channelRegs g t channel).length < fuel) :
    chAccessLoop g t clk channel fuel s = waitForChannel g t clk channel s := by
  obtain ⟨n, hn, hfails, hquiet⟩ := chAccess_rounds clk (s := s)
    (List.countP_le_length : pendingTransfers g t channel s ≤ (channelRegs g t channel).length)
  have hend := congrArg Prod.fst (ssdChAccess_success hquiet)
  rw [waitForChannel, chAccessLoop_eq hfails hend (hn.trans_lt hfuel),
    chAccessLoop_eq hfails hend (Nat.lt_succ_of_le hn)]

/-- **The wait for a channel ends** after at most one call more than there are registers, and no
register had a transfer due when it was tested last. -/
theorem chAccess_ends (g : Geometry) (t : IoConfig) (clk : Clock) (channel : ℕ) (s : Io) :
    ∃ n ≤ wayNb g t * g.planesPerFlash,
      (∀ i < n, (ssdChAccess g t clk channel (chAccessAfter g t clk channel i s)).1 = .fail) ∧
      ssdChAccess g t clk channel (chAccessAfter g t clk channel n s) =
        (.success, waitForChannel g t clk channel s) ∧
      (∀ fuel, n < fuel → chAccessLoop g t clk channel fuel s = waitForChannel g t clk channel s) ∧
      ∀ i r, (channelRegs g t channel)[i]? = some r →
        ¬(waitForChannel g t clk channel s).TransferDue r
          (clk.read (chAccessAt g t clk channel i (chAccessAfter g t clk channel n s)).tick) := by
  have hcount : pendingTransfers g t channel s ≤ (channelRegs g t channel).length :=
    List.countP_le_length
  obtain ⟨n, hn, hfails, hquiet⟩ := chAccess_rounds clk hcount
  have hlast := ssdChAccess_success hquiet
  have hloop : ∀ fuel, n < fuel → chAccessLoop g t clk channel fuel s =
      chAccessAfter g t clk channel (n + 1) s := fun fuel hfuel =>
    chAccessLoop_eq hfails (congrArg Prod.fst hlast) hfuel
  have hafter : chAccessAfter g t clk channel (n + 1) s =
      (ssdChAccess g t clk channel (chAccessAfter g t clk channel n s)).2 :=
    Function.iterate_succ_apply' ..
  have hwait : waitForChannel g t clk channel s =
      (ssdChAccess g t clk channel (chAccessAfter g t clk channel n s)).2 :=
    (hloop _ (Nat.lt_succ_of_le hn)).trans hafter
  refine ⟨n, length_channelRegs g t channel ▸ hn, hfails, ?_, fun fuel hfuel => ?_,
    fun i r hr => ?_⟩
  · rw [hwait, hlast]
  · rw [hloop fuel hfuel, hafter, hwait]
  · have hi : i ≤ (channelRegs g t channel).length := by
      have hlt := (List.getElem?_eq_some_iff.mp hr).1
      omega
    rw [hwait, hlast, chAccessAt, chAccess_foldl_quiet (hquiet.take i), List.length_take,
      Nat.min_eq_left hi]
    exact hquiet i r hr

end Io

end Vssim
