import Vssim.Library.Trace
import Vssim.Io.Channels
import Vssim.Io.Moves

/-!
# Whether an access has waited

`SSD_CH_RECORD` wants to know whether the access before it has waited. `SSD_FLASH_ACCESS` returns
the result of the **last** delay of the last register that it accesses; what the delays before it
returned is overwritten.

What the delays do to the clock is a trace of steps, each with the deadline of its operation
(`Timed`). On such traces it is plain when the result is right whatever the clock does from its
present reading on: no deadline but the last may be later than this reading
(`flashAccess_indicates_iff`).
-/

namespace Vssim

open Io

/-! ### Delays as steps of the clock -/

/-- When an operation is over: `none` for a register that has none. -/
def deadline (timeStamp overhead delay : ℤ) : Option ℤ :=
  if timeStamp = -1 then none else some (timeStamp + delay - overhead)

/-- A delay from reading `τ` to reading `τ'`, with the deadline of its operation and whether it has
waited. It compares reading `a` with the deadline. -/
inductive Timed (clk : Clock) : ℕ → Option ℤ × Bool → ℕ → Prop
  | idle (τ : ℕ) : Timed clk τ (none, false) τ
  | late {τ a τ' : ℕ} {D : ℤ} (hτ : τ ≤ a) (ha : a ≤ τ + 1) (hread : D ≤ clk.read a)
      (hnext : a ≤ τ') (hnext' : τ' ≤ a + 5) : Timed clk τ (some D, false) τ'
  | early {τ a τ' : ℕ} {D : ℤ} (hτ : τ ≤ a) (ha : a ≤ τ + 1) (hread : clk.read a < D)
      (hnext : clk.wait D (a + 1) < τ') : Timed clk τ (some D, true) τ'

/-- A clock that stands still at `now` up to reading `n` and then jumps to `time`. -/
def jumpClock (n : ℕ) (now time : ℤ) (hnow : 0 ≤ now) (htime : now ≤ time) : Clock where
  read k := if k ≤ n then now else time
  wait d tick := if d ≤ now then tick + 1 else if tick ≤ n then n + 2 else tick + 1
  nonneg k := by
    split
    · exact hnow
    · exact hnow.trans htime
  mono i j hij := by
    dsimp only
    by_cases hj : j ≤ n
    · rw [if_pos (hij.trans hj), if_pos hj]
    · rw [if_neg hj]
      split
      · exact htime
      · exact le_rfl
  wait_eq d tick k hk hlt := by
    by_cases hd : d ≤ now
    · -- no reading is below `d`
      have hk0 : k = 0 := by
        by_contra hne
        have hread := hlt 0 (Nat.pos_of_ne_zero hne)
        split at hread <;> omega
      rw [if_pos hd, hk0]
    · -- the first reading that is not below `d` is the one after the jump
      have hafter : n < tick + k := by
        by_contra hle
        rw [if_pos (by omega)] at hk
        exact hd hk
      rw [if_neg (by omega)] at hk
      have hbefore : ∀ m < k, tick + m ≤ n := fun m hm => by
        by_contra hgt
        have hread := hlt m hm
        rw [if_neg hgt] at hread
        omega
      rw [if_neg hd]
      by_cases hn : tick ≤ n
      · rw [if_pos hn]
        have hlast := hbefore (k - 1) (by omega)
        omega
      · rw [if_neg hn]
        have hk0 : k = 0 := by
          by_contra hne
          exact hn (hbefore 0 (Nat.pos_of_ne_zero hne))
        rw [hk0]

/-- The clock goes on, and there is nothing to wait for, when the deadline has passed. -/
theorem Timed.passed {clk : Clock} {τ τ' : ℕ} {d : Option ℤ} {b : Bool}
    (h : Timed clk τ (d, b) τ') (hd : ∀ D, d = some D → D ≤ clk.read τ) : τ ≤ τ' ∧ b = false := by
  cases h with
  | idle => exact ⟨le_rfl, rfl⟩
  | late hτ _ _ hnext _ => exact ⟨hτ.trans hnext, rfl⟩
  | early hτ _ hread _ => exact absurd hread (not_lt.mpr ((hd _ rfl).trans (clk.mono hτ)))

section timed

variable {clk : Clock} {τ τ' : ℕ} {jobs : List (Option ℤ × Bool)}

/-- No delay waits when all deadlines have passed. -/
private theorem not_waited (h : Trace (Timed clk) τ jobs τ')
    (hle : ∀ D, some D ∈ jobs.map Prod.fst → D ≤ clk.read τ) :
    ∀ b ∈ jobs.map Prod.snd, b = false := by
  induction h with
  | nil => simp
  | cons hstep _ ih =>
    obtain ⟨hτ, hb⟩ := hstep.passed fun D hD => hle D (List.mem_cons.mpr (.inl hD.symm))
    rw [List.map_cons, List.forall_mem_cons]
    exact ⟨hb, ih fun D hD => (hle D (List.mem_cons_of_mem _ hD)).trans (clk.mono hτ)⟩

variable {n : ℕ} {now time : ℤ} {hnow : 0 ≤ now} {htime : now ≤ time}

/-- While the clock stands still a delay with a later deadline waits. If it is not the last one,
the last one does not, because the clock has jumped then. -/
private theorem jumpClock_early (h : Trace (Timed (jumpClock n now time hnow htime)) τ jobs τ')
    (hτ : τ + 6 * jobs.length ≤ n) (hle : ∀ D, some D ∈ jobs.map Prod.fst → D ≤ time) {D : ℤ}
    (hD : now < D) (hmem : some D ∈ (jobs.map Prod.fst).dropLast) :
    true ∈ jobs.map Prod.snd ∧ (jobs.map Prod.snd).getLast? = some false := by
  induction h with
  | nil => simp at hmem
  | @cons τ τ₁ τ' job jobs hstep htrace ih =>
    have hrest := fun D hD => hle D (List.mem_cons_of_mem _ hD)
    have hne : jobs ≠ [] := fun hnil => by simp [hnil] at hmem
    rw [List.length_cons] at hτ
    rw [List.map_cons, List.dropLast_cons_of_ne_nil (by simpa using hne), List.mem_cons] at hmem
    have hlast : (job.2 :: jobs.map Prod.snd).getLast? = (jobs.map Prod.snd).getLast? :=
      List.getLast?_cons_of_ne_nil (by simpa using hne)
    rw [List.map_cons, hlast, List.mem_cons]
    cases hstep with
    | idle =>
      obtain ⟨hwaited, hfalse⟩ := ih (by omega) hrest (hmem.resolve_left (by simp))
      exact ⟨.inr hwaited, hfalse⟩
    | @late a _ D₀ hτa ha hread hnext hnext' =>
      simp only [jumpClock] at hread
      rw [if_pos (by omega)] at hread
      have hother : some D ≠ some D₀ := fun heq => by
        have heq := Option.some.inj heq
        omega
      obtain ⟨hwaited, hfalse⟩ := ih (by omega) hrest (hmem.resolve_left hother)
      exact ⟨.inr hwaited, hfalse⟩
    | @early a _ D₀ hτa ha hread hnext =>
      refine ⟨.inl rfl, ?_⟩
      simp only [jumpClock] at hread hnext
      rw [if_pos (by omega)] at hread
      rw [if_neg (by omega), if_pos (by omega)] at hnext
      have hfalse := not_waited htrace fun D hD => by
        simp only [jumpClock]
        rw [if_neg (by omega)]
        exact hrest D hD
      have hne' : jobs.map Prod.snd ≠ [] := by simpa using hne
      rw [List.getLast?_eq_some_getLast hne', hfalse _ (List.getLast_mem hne')]

end timed

/-! ### The delays of an access -/

/-- The deadlines of the delays that `SSD_REG_ACCESS` makes for a register, in order. It returns 0
without any for other commands. -/
def Reg.deadlines (t : IoConfig) (x : Reg) : List (Option ℤ) :=
  match x.cmd with
  | .read => [deadline x.cellTime x.overhead t.cellReadDelay, deadline x.regTime 0 t.regReadDelay]
  | .write =>
    [deadline x.regTime 0 t.regWriteDelay, deadline x.cellTime x.overhead t.cellProgramDelay]
  | .erase => [deadline x.cellTime 0 t.blockEraseDelay]
  | _ => [none]

namespace Io

variable (g : Geometry) (t : IoConfig) (clk : Clock)

/-- The results of the delays that `SSD_REG_ACCESS` makes. -/
def regDelays (reg : ℕ) (s : Io) : List Bool :=
  match s.regIoCmd reg with
  | .read =>
    let st := ssdCellReadDelay t clk reg s
    [st.1, (ssdRegReadDelay t clk reg st.2).1]
  | .write =>
    let st := ssdRegWriteDelay t clk reg s
    [st.1, (ssdCellWriteDelay t clk reg st.2).1]
  | .erase => [(ssdBlockEraseDelay t clk reg s).1]
  | _ => []

/-- The results of the delays that `SSD_FLASH_ACCESS` makes. -/
def flashDelays (reg : ℕ) : List ℕ → Io → List Bool
  | [], _ => []
  | r :: rs, s =>
    if r ≠ reg ∧ toU32 (s.accessNb r).1 = s.ioRequestSeqNb then flashDelays reg rs s
    else regDelays t clk r s ++ flashDelays reg rs (ssdRegAccess t clk r s).2

/-- The registers of a chip. -/
def chipRegs (flashNb : ℕ) : List ℕ :=
  (List.range g.planesPerFlash).map fun i => flashNb * g.planesPerFlash + i

/-- The access of `SSD_FLASH_ACCESS` tells whether one of its delays has waited. -/
def Indicates (flashNb reg : ℕ) (s : Io) : Prop :=
  (ssdFlashAccess g t clk flashNb reg s).1 = true ↔
    true ∈ flashDelays t clk reg (chipRegs g flashNb) s

/-- The deadlines of the delays of `SSD_FLASH_ACCESS`, in order. -/
def flashDeadlines (reg : ℕ) (rs : List ℕ) (s : Io) : List (Option ℤ) :=
  (rs.filter fun r => ¬(r ≠ reg ∧ toU32 (s.accessNb r).1 = s.ioRequestSeqNb)).flatMap fun r =>
    (s.reg r).deadlines t

/-- No delay but the last one has a deadline later than `now`. -/
def OnlyLast (now : ℤ) (flashNb reg : ℕ) (s : Io) : Prop :=
  ∀ D, some D ∈ (flashDeadlines t reg (chipRegs g flashNb) s).dropLast → D ≤ now

variable {g} {s : Io} {reg : ℕ}

/-! ### One register -/

private theorem updateIoRequest_tick (requestNb offset time : ℤ) (type : UpdateType) (s : Io) :
    s.tick + 1 ≤ (updateIoRequest t clk requestNb offset time type s).2.tick ∧
      (updateIoRequest t clk requestNb offset time type s).2.tick ≤ s.tick + 2 := by
  obtain ⟨o, requests, es, k, heq, -, htick, -⟩ := updateIoRequest_eq t clk requestNb offset time
    type s
  rw [heq]
  exact htick

private theorem ssdUpdateIoRequest_tick (reg : ℕ) (s : Io) :
    s.tick ≤ (ssdUpdateIoRequest t clk reg s).tick ∧
    (ssdUpdateIoRequest t clk reg s).tick ≤ s.tick + 3 := by
  obtain ⟨hle, hge⟩ := updateIoRequest_tick t clk (s.accessNb reg).1
    (s.accessNb reg).2 (if s.initDiffReg ≠ 0 then clk.read s.tick else 0) .endTime
    { s with tick := s.tick + 1 }
  exact ⟨(Nat.le_add_right s.tick 2).trans hle, hge⟩

/-- A delay that compares reading `s.tick`, with what follows until reading `τ'`. -/
private theorem spend_timed {τ τ' : ℕ} (timeStamp overhead delay : ℤ) (hτ : τ ≤ s.tick)
    (ha : s.tick ≤ τ + 1)
    (hnext : (spend clk timeStamp overhead delay s).2.tick ≤ τ')
    (hnext' : τ' ≤ (spend clk timeStamp overhead delay s).2.tick + 3) :
    Timed clk τ (some (timeStamp + delay - overhead),
      (spend clk timeStamp overhead delay s).1.waited) τ' := by
  have htick : (spend clk timeStamp overhead delay s).2.tick =
      (if clk.read s.tick - timeStamp + overhead < delay
        then clk.wait (timeStamp + delay - overhead) (s.tick + 1) else s.tick + 1) + 1 := rfl
  have hwaited : (spend clk timeStamp overhead delay s).1.waited =
      decide (clk.read s.tick - timeStamp + overhead < delay) := rfl
  rw [htick] at hnext hnext'
  rw [hwaited]
  by_cases hdiff : clk.read s.tick - timeStamp + overhead < delay
  · rw [if_pos hdiff] at hnext
    rw [decide_eq_true hdiff]
    exact .early hτ ha (by omega) (by omega)
  · rw [if_neg hdiff] at hnext hnext'
    rw [decide_eq_false hdiff]
    exact .late hτ ha (by omega) (by omega) (by omega)

theorem ssdRegWriteDelay_timed (reg : ℕ) (s : Io) :
    Timed clk s.tick (deadline (s.regIoTime reg) 0 t.regWriteDelay,
      (ssdRegWriteDelay t clk reg s).1) (ssdRegWriteDelay t clk reg s).2.tick := by
  rw [ssdRegWriteDelay, deadline]
  split
  · exact .idle _
  · exact spend_timed clk _ _ _ le_rfl (Nat.le_succ _) le_rfl (Nat.le_add_right ..)

theorem ssdRegWriteDelay_ioOverhead (reg : ℕ) (s : Io) :
    (ssdRegWriteDelay t clk reg s).2.ioOverhead = s.ioOverhead := by
  rw [ssdRegWriteDelay]
  split <;> rfl

theorem ssdCellReadDelay_timed (reg : ℕ) (s : Io) :
    Timed clk s.tick (deadline (s.cellIoTime reg) (s.ioOverhead reg) t.cellReadDelay,
      (ssdCellReadDelay t clk reg s).1) (ssdCellReadDelay t clk reg s).2.tick := by
  rw [ssdCellReadDelay, deadline]
  split
  · exact .idle _
  · exact spend_timed clk _ _ _ le_rfl (Nat.le_succ _) le_rfl (Nat.le_add_right ..)

theorem ssdRegReadDelay_timed (reg : ℕ) (s : Io) :
    Timed clk s.tick (deadline (s.regIoTime reg) 0 t.regReadDelay,
      (ssdRegReadDelay t clk reg s).1) (ssdRegReadDelay t clk reg s).2.tick := by
  rw [ssdRegReadDelay, deadline]
  split
  · exact .idle _
  · obtain ⟨hle, hge⟩ := ssdUpdateIoRequest_tick t clk reg
      (charge clk reg (s.regIoTime reg) 0 t.regReadDelay .chOp s).2
    exact spend_timed clk _ _ _ le_rfl (Nat.le_succ _) hle hge

theorem ssdCellWriteDelay_timed (reg : ℕ) (s : Io) :
    Timed clk s.tick (deadline (s.cellIoTime reg) (s.ioOverhead reg) t.cellProgramDelay,
      (ssdCellWriteDelay t clk reg s).1) (ssdCellWriteDelay t clk reg s).2.tick := by
  rw [ssdCellWriteDelay, deadline]
  split
  · exact .idle _
  · dsimp only
    obtain ⟨d, hd⟩ : ∃ d, charge clk reg (s.cellIoTime reg) (s.ioOverhead reg) t.cellProgramDelay
      .regOp s = d := ⟨_, rfl⟩
    obtain ⟨hle, hge⟩ := ssdUpdateIoRequest_tick t clk reg
      { d.2 with initDiffReg := if d.1.waited then d.1.diff else d.2.initDiffReg }
    rw [← hd] at hle hge
    exact spend_timed clk _ _ _ le_rfl (Nat.le_succ _) hle hge

theorem ssdBlockEraseDelay_timed (reg : ℕ) (s : Io) :
    Timed clk s.tick (deadline (s.cellIoTime reg) 0 t.blockEraseDelay,
      (ssdBlockEraseDelay t clk reg s).1) (ssdBlockEraseDelay t clk reg s).2.tick := by
  rw [ssdBlockEraseDelay, deadline]
  split
  · exact .idle _
  · exact spend_timed clk (s := { s with tick := s.tick + 1 }) _ _ _ (Nat.le_succ _) le_rfl le_rfl
      (Nat.le_add_right ..)

/-- `SSD_REG_ACCESS` as a trace of delays; its result is that of the last one. -/
private theorem ssdRegAccess_timed (reg : ℕ) (s : Io) : ∃ jobs : List (Option ℤ × Bool),
    Trace (Timed clk) s.tick jobs (ssdRegAccess t clk reg s).2.tick ∧
    jobs.map Prod.fst = (s.reg reg).deadlines t ∧
    (jobs.map Prod.snd).getLast? = some (ssdRegAccess t clk reg s).1 ∧
    (true ∈ jobs.map Prod.snd ↔ true ∈ regDelays t clk reg s) := by
  rw [ssdRegAccess, regDelays, Reg.deadlines]
  split <;> rename_i hcmd
  · exact ⟨[(none, false)], .single (.idle _), by simp [Io.reg, hcmd], rfl, by simp [hcmd]⟩
  · obtain ⟨-, -, -, htime⟩ := ssdCellReadDelay_drained t clk hcmd
    have hcell := ssdCellReadDelay_timed t clk reg s
    have hread := ssdRegReadDelay_timed t clk reg (ssdCellReadDelay t clk reg s).2
    rw [htime] at hread
    exact ⟨[_, _], .cons hcell (.single hread), by simp [Io.reg, hcmd], rfl, by simp [hcmd]⟩
  · have hwrite := ssdRegWriteDelay_timed t clk reg s
    have hcell := ssdCellWriteDelay_timed t clk reg (ssdRegWriteDelay t clk reg s).2
    obtain ⟨-, -, -, htime⟩ := ssdRegWriteDelay_drained t clk hcmd
    rw [htime, ssdRegWriteDelay_ioOverhead] at hcell
    exact ⟨[_, _], .cons hwrite (.single hcell), by simp [Io.reg, hcmd], rfl, by simp [hcmd]⟩
  · exact ⟨[_], .single (ssdBlockEraseDelay_timed t clk reg s), by simp [Io.reg, hcmd], rfl,
      by simp [hcmd]⟩
  · exact ⟨[(none, false)], .single (.idle _), by simp [Io.reg], rfl, by simp⟩

/-! ### The registers of a chip -/

private theorem ssdRegAccess_seqNb (reg : ℕ) (s : Io) :
    (ssdRegAccess t clk reg s).2.ioRequestSeqNb = s.ioRequestSeqNb := by
  have hreport : ∀ s : Io, (ssdUpdateIoRequest t clk reg s).ioRequestSeqNb = s.ioRequestSeqNb :=
    fun s => by
      obtain ⟨o, requests, log, k, heq, -⟩ := ssdUpdateIoRequest_state t clk reg s
      rw [heq]
      rfl
  have hcellRead : ∀ s : Io, (ssdCellReadDelay t clk reg s).2.ioRequestSeqNb = s.ioRequestSeqNb :=
    fun s => by rw [ssdCellReadDelay]; split <;> rfl
  have hregRead : ∀ s : Io, (ssdRegReadDelay t clk reg s).2.ioRequestSeqNb = s.ioRequestSeqNb :=
    fun s => by
      rw [ssdRegReadDelay]
      split
      · rfl
      · exact hreport _
  have hregWrite : ∀ s : Io, (ssdRegWriteDelay t clk reg s).2.ioRequestSeqNb = s.ioRequestSeqNb :=
    fun s => by rw [ssdRegWriteDelay]; split <;> rfl
  have hcellWrite : ∀ s : Io, (ssdCellWriteDelay t clk reg s).2.ioRequestSeqNb = s.ioRequestSeqNb :=
    fun s => by
      rw [ssdCellWriteDelay]
      split
      · rfl
      · exact hreport _
  rw [ssdRegAccess]
  split
  · rfl
  · rw [hregRead, hcellRead]
  · rw [hcellWrite, hregWrite]
  · rw [ssdBlockEraseDelay]
    split <;> rfl
  · rfl

private theorem flashDeadlines_congr {s' : Io} {rs : List ℕ} (hreg : ∀ r ∈ rs, s'.reg r = s.reg r)
    (hseq : s'.ioRequestSeqNb = s.ioRequestSeqNb) :
    flashDeadlines t reg rs s' = flashDeadlines t reg rs s := by
  have haccess : ∀ r ∈ rs, s'.accessNb r = s.accessNb r := fun r hr =>
    congrArg Reg.accessNb (hreg r hr)
  rw [flashDeadlines, flashDeadlines, hseq,
    List.filter_congr fun r hr => by rw [haccess r hr]]
  refine List.flatMap_congr fun r hr => ?_
  rw [hreg r (List.mem_of_mem_filter hr)]

/-- The loop of `SSD_FLASH_ACCESS` as a trace of delays. The deadlines are those of the registers
before the loop, since an access changes its own register only. -/
private theorem flashAccessLoop_timed {rs : List ℕ} (hrs : rs.Nodup) (reg : ℕ) (ret : Bool)
    (s : Io) : ∃ jobs : List (Option ℤ × Bool),
      Trace (Timed clk) s.tick jobs (flashAccessLoop t clk reg rs (ret, s)).2.tick ∧
      jobs.map Prod.fst = flashDeadlines t reg rs s ∧
      (flashAccessLoop t clk reg rs (ret, s)).1 = (jobs.map Prod.snd).getLast?.getD ret ∧
      (true ∈ jobs.map Prod.snd ↔ true ∈ flashDelays t clk reg rs s) := by
  induction rs generalizing s ret with
  | nil => exact ⟨[], .nil _, rfl, rfl, by simp [flashDelays]⟩
  | cons r rs ih =>
    obtain ⟨hr, hrs⟩ := List.nodup_cons.mp hrs
    rw [flashAccessLoop, flashDelays]
    by_cases hskip : r ≠ reg ∧ toU32 (s.accessNb r).1 = s.ioRequestSeqNb
    · have hdeadlines : flashDeadlines t reg (r :: rs) s = flashDeadlines t reg rs s := by
        rw [flashDeadlines, List.filter_cons_of_neg (by simpa using hskip)]
        rfl
      rw [if_pos hskip, if_pos hskip, hdeadlines]
      exact ih hrs ret s
    · obtain ⟨jobs₁, htrace₁, hfst₁, hlast₁, hwaited₁⟩ := ssdRegAccess_timed t clk r s
      obtain ⟨jobs₂, htrace₂, hfst₂, hlast₂, hwaited₂⟩ := ih hrs (ssdRegAccess t clk r s).1
        (ssdRegAccess t clk r s).2
      have hother := (ssdRegAccess_drained t clk r s).1.other
      have hsame : flashDeadlines t reg rs (ssdRegAccess t clk r s).2 = flashDeadlines t reg rs s :=
        flashDeadlines_congr t (fun k hk => hother k fun heq => hr (heq ▸ hk))
          (ssdRegAccess_seqNb t clk r s)
      have hdeadlines : flashDeadlines t reg (r :: rs) s =
          (s.reg r).deadlines t ++ flashDeadlines t reg rs s := by
        rw [flashDeadlines, List.filter_cons, if_pos (decide_eq_true hskip)]
        rfl
      rw [if_neg hskip, if_neg hskip, hdeadlines]
      refine ⟨jobs₁ ++ jobs₂, htrace₁.append htrace₂, ?_, ?_, ?_⟩
      · rw [List.map_append, hfst₁, hfst₂, hsame]
      · rw [List.map_append, List.getLast?_append, hlast₁, Option.getD_or]
        exact hlast₂
      · rw [List.map_append, List.mem_append, List.mem_append, hwaited₁, hwaited₂]

private theorem chipRegs_nodup (flashNb : ℕ) : (chipRegs g flashNb).Nodup :=
  List.nodup_range.map fun _ _ h => Nat.add_left_cancel h

/-- A time after all given deadlines. -/
private theorem exists_after (now : ℤ) (ds : List (Option ℤ)) :
    ∃ time, now ≤ time ∧ ∀ D : ℤ, some D ∈ ds → D ≤ time := by
  induction ds with
  | nil => exact ⟨now, le_rfl, by simp⟩
  | cons d ds ih =>
    obtain ⟨time, htime, hle⟩ := ih
    refine ⟨max time (d.getD 0), htime.trans (le_max_left ..), fun D hD => ?_⟩
    rcases List.mem_cons.mp hD with rfl | hmem
    · exact le_max_right ..
    · exact (hle D hmem).trans (le_max_left ..)

/-- The result is right when nothing but the last delay has a deadline after the present reading. -/
private theorem OnlyLast.indicates {clk : Clock} {flashNb : ℕ}
    (h : OnlyLast g t (clk.read s.tick) flashNb reg s) : Indicates g t clk flashNb reg s := by
  obtain ⟨jobs, htrace, hfst, hlast, hwaited⟩ := flashAccessLoop_timed t clk
    (chipRegs_nodup flashNb) reg false s
  have hresult : (ssdFlashAccess g t clk flashNb reg s).1 =
    (jobs.map Prod.snd).getLast?.getD false := hlast
  rw [Indicates, hresult, ← hwaited]
  rw [OnlyLast, ← hfst] at h
  rcases List.eq_nil_or_concat' jobs with rfl | ⟨before, job, rfl⟩
  · simp
  · rw [List.map_append, List.map_singleton, List.dropLast_concat] at h
    rw [List.map_append, List.map_singleton, List.getLast?_concat, Option.getD_some,
      List.mem_append, List.mem_singleton]
    obtain ⟨τ, hbefore, -⟩ := Trace.append_iff.mp htrace
    -- a delay before the last one has not waited
    refine ⟨fun hjob => .inr hjob.symm, fun hmem => (hmem.resolve_left fun hmem => ?_).symm⟩
    exact Bool.noConfusion (not_waited hbefore h true hmem)

/-- A deadline after the present reading that is not the last one is waited for and forgotten when
the clock stands still for as long as the delays may take, and then jumps. -/
private theorem exists_not_indicates {now D : ℤ} (hnow : 0 ≤ now) (flashNb : ℕ)
    (hmem : some D ∈ (flashDeadlines t reg (chipRegs g flashNb) s).dropLast) (hD : now < D) :
    ∃ clk : Clock, clk.read s.tick = now ∧ ¬ Indicates g t clk flashNb reg s := by
  obtain ⟨time, htime, hle⟩ := exists_after now (flashDeadlines t reg (chipRegs g flashNb) s)
  obtain ⟨n, hn⟩ : ∃ n, n = s.tick + 6 * (flashDeadlines t reg (chipRegs g flashNb) s).length :=
    ⟨_, rfl⟩
  refine ⟨jumpClock n now time hnow htime, if_pos (by omega), fun h => ?_⟩
  obtain ⟨jobs, htrace, hfst, hlast, hwaited⟩ := flashAccessLoop_timed t
    (jumpClock n now time hnow htime) (chipRegs_nodup flashNb) reg false s
  rw [← hfst] at hmem hle hn
  rw [List.length_map] at hn
  obtain ⟨hsome, hfalse⟩ := jumpClock_early htrace hn.ge hle hD hmem
  have htrue : (ssdFlashAccess g t _ flashNb reg s).1 = true := h.mpr (hwaited.mp hsome)
  rw [hfalse] at hlast
  exact Bool.noConfusion (htrue.symm.trans hlast)

/-- `SSD_FLASH_ACCESS` **tells whether it has waited**, whatever the clock does from its present
reading on, exactly if no delay but its last one has a deadline after this reading. -/
theorem flashAccess_indicates_iff (g : Geometry) (t : IoConfig) (clk : Clock) (flashNb reg : ℕ)
    (s : Io) :
    (∀ clk' : Clock, clk'.read s.tick = clk.read s.tick → Indicates g t clk' flashNb reg s) ↔
      OnlyLast g t (clk.read s.tick) flashNb reg s := by
  constructor
  · intro h D hmem
    by_contra hlater
    obtain ⟨clk', hread, hnot⟩ :=
      exists_not_indicates t (clk.nonneg _) flashNb hmem (not_le.mp hlater)
    exact hnot (h clk' hread)
  · intro h clk' hread
    rw [← hread] at h
    exact h.indicates t

/-- An erased block in the first of two planes, with nothing in the other one. The access to the
first waits for the block, the second has nothing to wait for, and the result is 0. -/
theorem flashAccess_forgets :
    (ssdFlashAccess smallDevice smallDelays steadyClock 0 0
      (ssdBlockErase smallDevice smallDelays steadyClock 0 0 (Io.init smallDelays))).1 = false ∧
    flashDelays smallDelays steadyClock 0 (chipRegs smallDevice 0)
      (ssdBlockErase smallDevice smallDelays steadyClock 0 0 (Io.init smallDelays)) = [true] ∧
    ¬Indicates smallDevice smallDelays steadyClock 0 0
      (ssdBlockErase smallDevice smallDelays steadyClock 0 0 (Io.init smallDelays)) := by
  have hresult : (ssdFlashAccess smallDevice smallDelays steadyClock 0 0
      (ssdBlockErase smallDevice smallDelays steadyClock 0 0 (Io.init smallDelays))).1 = false := by
    decide +kernel
  have hdelays : flashDelays smallDelays steadyClock 0 (chipRegs smallDevice 0)
      (ssdBlockErase smallDevice smallDelays steadyClock 0 0 (Io.init smallDelays)) = [true] := by
    decide +kernel
  refine ⟨hresult, hdelays, fun h => ?_⟩
  rw [Indicates, hresult, hdelays] at h
  exact Bool.noConfusion (h.mpr List.mem_cons_self)

end Io

end Vssim
