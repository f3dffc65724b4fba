import Vssim.Ftl.Bounds
import Vssim.Io.Record
import Mathlib.Data.List.GetD

/-!
# The life of an I/O request

Between two host requests every page of every request has started once, and has either ended once
or is in exactly one register; the list of outstanding requests holds those with a page yet to
end, and every other request was freed once, right after its last end.

The I/O manager is driven by the calls that a run of the FTL makes, so the result holds for every
sequence of requests, with garbage collection and partial writes between them, for every
clock, and for every geometry.
-/

namespace Vssim

open LinkedHeap Io

variable (g : Geometry) (t : IoConfig) (clk : Clock)

/-- The I/O manager along the events of the FTL. -/
def ioRun (events : List Event) (s : Io) : Io := events.foldl (fun s e => Io.call g t clk e.call s) s

/-- The page counts of the requests allocated, in order. -/
def allocated (events : List Event) : List ℕ :=
  events.filterMap fun e =>
    match e.call with
    | .allocIoRequest sectorNb length _ => some (ioPageNb g sectorNb length)
    | _ => none

/-- The state of the I/O manager between two host requests, when requests of the given sizes
have been allocated. -/
structure Lifecycle (sizes : List ℕ) (s : Io) : Prop where
  /-- Every page has started once. -/
  started : ∀ r k : ℕ, k < sizes.getD r 0 → s.log.count (.update .startTime r k) = 1
  /-- Every page has ended once and is in no register, or has not ended and is in one. -/
  ended : ∀ r k : ℕ, k < sizes.getD r 0 →
    (s.log.count (.update .endTime r k) = 1 ∧ ∀ reg < g.regNb, ¬s.Holds reg (r, k)) ∨
    (s.log.count (.update .endTime r k) = 0 ∧ ∃! reg, reg < g.regNb ∧ s.Holds reg (r, k))
  /-- The list is well formed and holds the requests with a page yet to end. -/
  outstanding : ∃ xs, SRep s.requests.heap s.requests.root xs ∧
    (xs.map fun x => x.2.requestNb).Nodup ∧
    ∀ r, (∃ x ∈ xs, x.2.requestNb = r) ↔
      ∃ k < sizes.getD r 0, s.log.count (.update .endTime r (k : ℕ)) = 0
  /-- Every other request was freed once, right after its last end. -/
  freed : ∀ r < sizes.length,
    (∀ k < sizes.getD r 0, s.log.count (.update .endTime r (k : ℕ)) ≠ 0) →
    s.log.count (.free r) = 1 ∧ FreedLast s.log r
  /-- A request with a page yet to end was not freed. -/
  kept : ∀ r k : ℕ, k < sizes.getD r 0 → s.log.count (.update .endTime r k) = 0 →
    s.log.count (.free r) = 0
  /-- When no register works, no request is outstanding. -/
  idle : (∀ reg < g.regNb, s.regIoCmd reg = .noop) →
    s.requests.root.head = none ∧ s.requests.root.count = 0
  /-- Nothing went wrong on the way. -/
  noError : ∀ e, .error e ∉ s.log

variable {g} {s : Io} {τ : Tracker}

/-! ### One call -/

private theorem call_other (h : IoInv g s τ) {c : Call} (hc : c.IsOther g) :
    KeepsTo g s τ (Io.call g t clk c s) := by
  cases c with
  | ssdPageWrite f b p offset type n =>
    obtain ⟨hf, rfl⟩ := hc
    exact ssdPageWrite_gc t clk h hf b offset n
  | ssdPageRead f b p offset type n =>
    obtain ⟨hf, rfl⟩ := hc
    exact ssdPageRead_gc t clk h hf b offset n
  | ssdBlockErase f b => exact ssdBlockErase_spec t clk h hc b
  | getNewPage _ => exact h.keepsTo rfl
  | garbageCollection => exact h.keepsTo rfl
  | error _ => exact h.keepsTo rfl
  | allocIoRequest _ _ _ => exact hc.elim
  | increaseIoRequestSeqNb => exact hc.elim
  | ssdPagePartialWrite _ _ _ _ _ _ _ _ _ => exact hc.elim

private theorem call_host (h : IoInv g s τ) {c : Call} (hc : c.IsHost g (τ.begun s.ioRequestSeqNb))
    (hr : τ.begun s.ioRequestSeqNb < τ.size s.ioRequestSeqNb) :
    BeginsTo g s τ (Io.call g t clk c s) := by
  cases c with
  | ssdPageWrite f b p offset type n =>
    obtain ⟨hf, rfl, rfl⟩ := hc
    exact ssdPageWrite_host t clk h hf b hr n
  | ssdPagePartialWrite f₀ b₀ p₀ f b p offset type n =>
    obtain ⟨hf₀, hf, rfl, rfl⟩ := hc
    exact ssdPagePartialWrite_host t clk h hf b hr n hf₀ b₀
  | ssdPageRead f b p offset type n =>
    obtain ⟨hf, rfl, rfl⟩ := hc
    exact ssdPageRead_host t clk h hf b hr n
  | _ => exact hc.elim

/-! ### One request -/

private theorem ioRun_others {es : List Event} (h : IoInv g s τ)
    (hes : ∀ e ∈ es, e.call.IsOther g) : KeepsTo g s τ (ioRun g t clk es s) := by
  induction es generalizing s τ with
  | nil => exact h.keepsTo rfl
  | cons e es ih =>
    obtain ⟨τ₁, h₁, hkeep⟩ := call_other t clk h (hes e (by simp))
    exact (ih h₁ fun e he => hes e (List.mem_cons_of_mem _ he)).after hkeep

theorem HostCalls.le {n k : ℕ} {es : List Event} (h : HostCalls g n k es) : k ≤ n := by
  induction es generalizing k with
  | nil => exact Nat.le_of_eq h
  | cons e es ih =>
    rcases h with ⟨-, h⟩ | ⟨-, h⟩
    · exact ih h
    · exact Nat.le_of_succ_le (ih h)

private theorem ioRun_pages {es : List Event} {k n : ℕ} (h : IoInv g s τ) (hes : HostCalls g n k es)
    (hk : τ.begun s.ioRequestSeqNb = k) (hn : τ.size s.ioRequestSeqNb = n) :
    ∃ τ', IoInv g (ioRun g t clk es s) τ' ∧ τ'.count = τ.count ∧ τ'.size = τ.size ∧
      τ'.begun = Function.update τ.begun s.ioRequestSeqNb n ∧
      (ioRun g t clk es s).ioRequestSeqNb = s.ioRequestSeqNb := by
  induction es generalizing s τ k with
  | nil =>
    refine ⟨τ, h, rfl, rfl, ?_, rfl⟩
    rw [← (show k = n from hes), ← hk, Function.update_eq_self]
  | cons e es ih =>
    rcases hes with ⟨hc, hes⟩ | ⟨hc, hes⟩
    · obtain ⟨τ₁, h₁, hkeep⟩ := call_other t clk h hc
      obtain ⟨τ₂, h₂, hcount, hsize, hbegun, hseq⟩ := ih h₁ hes
        (by rw [hkeep.begun, hkeep.seqNb]; exact hk) (by rw [hkeep.size, hkeep.seqNb]; exact hn)
      refine ⟨τ₂, h₂, hcount.trans hkeep.count, hsize.trans hkeep.size, ?_, hseq.trans hkeep.seqNb⟩
      rw [hbegun, hkeep.begun, hkeep.seqNb]
    · have hlt : k < n := hes.le
      subst hk
      obtain ⟨τ₁, h₁, hbegin⟩ := call_host t clk h hc (by rw [hn]; exact hlt)
      obtain ⟨τ₂, h₂, hcount, hsize, hbegun, hseq⟩ := ih h₁ hes
        (by rw [hbegin.begun, hbegin.seqNb, Function.update_self])
        (by rw [hbegin.size, hbegin.seqNb]; exact hn)
      refine ⟨τ₂, h₂, hcount.trans hbegin.count, hsize.trans hbegin.size, ?_,
        hseq.trans hbegin.seqNb⟩
      rw [hbegun, hbegin.begun, hbegin.seqNb, Function.update_idem]

/-- Between two host requests: every page has been begun. -/
structure Rest (g : Geometry) (s : Io) (τ : Tracker) : Prop where
  inv : IoInv g s τ
  seqNb : s.ioRequestSeqNb = τ.count
  begun : τ.begun = τ.size

/-- A request that follows the script. -/
private theorem ioRun_script {n : ℕ} {es : List Event} (h : Rest g s τ) (hes : Script g n es)
    (hcount : τ.count + 1 < 2 ^ 32 - 1) (hn : n < 2 ^ 15) :
    ∃ τ', Rest g (ioRun g t clk es s) τ' ∧ τ'.count = τ.count + 1 ∧
      τ'.size = Function.update τ.size τ.count n := by
  obtain ⟨sectorNb, length, ioType, pages, gc, sAlloc, sNext, rfl, rfl, hpos, hpages, hgc⟩ := hes
  obtain ⟨requests, k, o, halloc, hbook⟩ := allocIoRequest_spec clk h.inv.booked h.seqNb hcount
    ioType hpos hn
  set τ₁ := τ.arrive (ioPageNb g sectorNb length) with hτ₁
  have h₁ : IoInv g { s with requests, tick := k, ioAllocOverhead := o } τ₁ :=
    ⟨hbook, h.inv.held, h.inv.pending, h.inv.due, h.inv.command, h.inv.channelTime⟩
  obtain ⟨τ₂, h₂, hcount₂, hsize₂, hbegun₂, hseq₂⟩ := ioRun_pages t clk h₁ hpages
    (by rw [show _ = s.ioRequestSeqNb from rfl, h.seqNb]; exact Tracker.begun_eq_zero (τ := τ) le_rfl)
    (by rw [show _ = s.ioRequestSeqNb from rfl, h.seqNb]; exact Function.update_self ..)
  set s₂ := ioRun g t clk pages { s with requests, tick := k, ioAllocOverhead := o }
  have hseq₃ : (increaseIoRequestSeqNb s₂).ioRequestSeqNb = τ.count + 1 := by
    rw [increaseIoRequestSeqNb, hseq₂]
    dsimp only
    rw [h.seqNb, if_neg (by omega)]
  have h₃ : IoInv g (increaseIoRequestSeqNb s₂) τ₂ :=
    ⟨h₂.booked, h₂.held, h₂.pending, h₂.due, h₂.command, h₂.channelTime⟩
  obtain ⟨τ₄, h₄, hkeep⟩ := ioRun_others t clk h₃ hgc
  have hrun : ioRun g t clk (⟨.allocIoRequest sectorNb length ioType, sAlloc⟩ ::
      (pages ++ ⟨.increaseIoRequestSeqNb, sNext⟩ :: gc)) s =
      ioRun g t clk gc (increaseIoRequestSeqNb s₂) := by
    rw [ioRun, List.foldl_cons, List.foldl_append, List.foldl_cons, Io.call, halloc]
    rfl
  rw [hrun]
  refine ⟨τ₄, ⟨h₄, ?_, ?_⟩, ?_, ?_⟩
  · rw [hkeep.seqNb, hseq₃, hkeep.count, hcount₂]
    rfl
  · rw [hkeep.begun, hkeep.size, hbegun₂, hsize₂]
    change Function.update τ.begun s.ioRequestSeqNb _ = Function.update τ.size τ.count _
    rw [h.begun, h.seqNb]
  · rw [hkeep.count, hcount₂]
    rfl
  · rw [hkeep.size, hsize₂]
    rfl

/-! ### Runs -/

private theorem allocated_append (xs ys : List Event) :
    allocated g (xs ++ ys) = allocated g xs ++ allocated g ys := List.filterMap_append ..

private theorem allocated_others {es : List Event} (hes : ∀ e ∈ es, e.call.IsOther g) :
    allocated g es = [] := by
  refine List.filterMap_eq_nil_iff.mpr fun e he => ?_
  have hc := hes e he
  split
  · rename_i heq
    rw [heq] at hc
    exact hc.elim
  · rfl

private theorem allocated_pages {n k : ℕ} {es : List Event} (hes : HostCalls g n k es) :
    allocated g es = [] := by
  induction es generalizing k with
  | nil => rfl
  | cons e es ih =>
    have hnone : ∀ sectorNb length ioType, e.call ≠ .allocIoRequest sectorNb length ioType := by
      intro sectorNb length ioType heq
      rcases hes with ⟨hc, -⟩ | ⟨hc, -⟩ <;> rw [heq] at hc <;> exact hc
    have htail : allocated g es = [] := by
      rcases hes with ⟨-, hes⟩ | ⟨-, hes⟩ <;> exact ih hes
    rw [allocated, List.filterMap_cons_none, ← allocated, htail]
    split
    · rename_i heq
      exact absurd heq (hnone _ _ _)
    · rfl

private theorem Script.allocated_eq {n : ℕ} {es : List Event} (h : Script g n es) :
    allocated g es = [n] := by
  obtain ⟨sectorNb, length, ioType, pages, gc, sAlloc, sNext, rfl, rfl, -, hpages, hgc⟩ := h
  have htail : allocated g (⟨.increaseIoRequestSeqNb, sNext⟩ :: gc) = [] :=
    (rfl : _ = allocated g gc).trans (allocated_others hgc)
  change ioPageNb g sectorNb length :: allocated g (pages ++ _) = _
  rw [allocated_append, allocated_pages hpages, htail]
  rfl

/-- The tracker agrees with what has been allocated. -/
structure Counted (sizes : List ℕ) (τ : Tracker) : Prop where
  count : τ.count = sizes.length
  size : ∀ r, τ.size r = sizes.getD r 0

private theorem Counted.concat {sizes : List ℕ} (h : Counted sizes τ) {τ' : Tracker} {n : ℕ}
    (hcount : τ'.count = τ.count + 1) (hsize : τ'.size = Function.update τ.size τ.count n) :
    Counted (sizes ++ [n]) τ' := by
  refine ⟨by rw [hcount, h.count, List.length_append, List.length_singleton], fun r => ?_⟩
  rw [hsize]
  rcases lt_trichotomy r sizes.length with hr | rfl | hr
  · rw [Function.update_of_ne (by rw [h.count]; omega), h.size, List.getD_append _ _ _ _ hr]
  · rw [← h.count, Function.update_self, List.getD_append_right _ _ _ _ (by rw [h.count]), h.count]
    simp
  · rw [Function.update_of_ne (by rw [h.count]; omega), h.size]
    rw [List.getD_eq_default _ _ hr.le, List.getD_eq_default _ _ (by simp; omega)]

private theorem init_rest : Rest g (Io.init t) Tracker.empty := by
  refine ⟨⟨⟨⟨by decide, fun _ => (by decide : 0 < 2 ^ 15)⟩, ⟨[], ⟨⟨rfl, rfl, fun h => absurd rfl h⟩, rfl, by simp⟩⟩, ?_⟩,
    by simp [Tracker.empty], fun _ _ => .inl rfl, fun _ _ => .inl rfl, fun _ => .inl rfl, le_rfl⟩, rfl, rfl⟩
  refine ⟨fun r k => ?_, fun r k => ?_, fun r => ?_, fun r hr => ?_, fun e hmem => ?_⟩
  · simp [Io.init, Tracker.empty]
  · simp [Io.init, Tracker.empty]
  · simp [Io.init, Tracker.empty]
  · exact absurd hr (Nat.not_lt_zero r)
  · cases hmem

/-- Served requests lead from rest to rest. -/
private theorem serves_rest {hist : List Served} {f f' : Ftl} {sizes : List ℕ}
    (htrace : Trace (Serve g) f hist f') (hf : f.Bounded g) (hrest : Rest g s τ)
    (hcounted : Counted sizes τ)
    (hok : ∀ e ∈ hist, ∀ sectorNb length, e.request = .write sectorNb length → e.ret = .success)
    (hlen : τ.count + hist.length < 2 ^ 32 - 1) (hsize : ∀ e ∈ hist, e.request.pageNb g ≤ 32767) :
    ∃ τ', Rest g (ioRun g t clk (eventLog hist) s) τ' ∧
      Counted (sizes ++ allocated g (eventLog hist)) τ' := by
  induction htrace generalizing s τ sizes with
  | nil => exact ⟨τ, hrest, by simpa [eventLog, allocated] using hcounted⟩
  | @cons f m f' e hist hserve _ ih =>
    obtain ⟨hm, hscript⟩ := hserve.script hf
    have hok' := fun e' he' => hok e' (List.mem_cons_of_mem e he')
    have hsize' := fun e' he' => hsize e' (List.mem_cons_of_mem e he')
    rw [List.length_cons] at hlen
    have hlog : eventLog (e :: hist) = e.events ++ eventLog hist := rfl
    have hfold : ioRun g t clk (eventLog (e :: hist)) s =
        ioRun g t clk (eventLog hist) (ioRun g t clk e.events s) := by
      rw [hlog, ioRun, List.foldl_append]
      rfl
    rw [hfold, hlog, allocated_append]
    rcases hscript (hok e (by simp)) with hnil | hscript
    · rw [hnil]
      exact ih hm hrest hcounted hok' (by omega) hsize'
    · have hn := hsize e (by simp)
      obtain ⟨τ₁, hrest₁, hcount₁, hsize₁⟩ := ioRun_script t clk hrest hscript (by omega) (by omega)
      rw [hscript.allocated_eq, ← List.append_assoc]
      exact ih hm hrest₁ (hcounted.concat hcount₁ hsize₁) hok' (by omega) hsize'

/-- At rest, the invariant says what the life of the requests has been. -/
private theorem Rest.lifecycle {sizes : List ℕ} (h : Rest g s τ) (hcounted : Counted sizes τ) :
    Lifecycle g sizes s := by
  have hlog := h.inv.booked.log
  obtain ⟨xs, hxs⟩ := h.inv.booked.list
  have hsize : ∀ r, sizes.getD r 0 = τ.begun r := fun r => by rw [h.begun, hcounted.size]
  have hend : ∀ r k, k < τ.begun r → (s.log.count (.update .endTime r (k : ℕ)) = 0 ↔
      (r, k) ∈ τ.pending) := fun r k hk => by
    rw [hlog.ended]
    by_cases hmem : (r, k) ∈ τ.pending <;> simp [hk, hmem]
  have hlive : ∀ r, τ.Live r ↔
      ∃ k < τ.begun r, s.log.count (.update .endTime r (k : ℕ)) = 0 := fun r => by
    rw [Tracker.Live, ← h.begun, or_iff_right (lt_irrefl _), ne_eq, Tracker.inFlight_eq_zero_iff]
    push Not
    constructor
    · rintro ⟨⟨r', k⟩, hmem, rfl⟩
      have hk := τ.pending_lt _ hmem
      exact ⟨k, hk, (hend r' k hk).mpr hmem⟩
    · rintro ⟨k, hk, h0⟩
      exact ⟨(r, k), (hend r k hk).mp h0, rfl⟩
  refine ⟨fun r k hk => ?_, fun r k hk => ?_, ⟨xs, hxs.rep, ?_, fun r => ?_⟩, fun r hr hall => ?_,
    fun r k hk h0 => ?_, fun hnoop => ?_, hlog.noError⟩
  · rw [hsize] at hk
    rw [hlog.started, if_pos hk]
  · rw [hsize] at hk
    by_cases hmem : (r, k) ∈ τ.pending
    · exact .inr ⟨(hend r k hk).mpr hmem, h.inv.held _ hmem⟩
    · refine .inl ⟨by rw [hlog.ended, if_pos ⟨hk, hmem⟩], fun reg hreg hold => ?_⟩
      have hcount : r < τ.count := by
        by_contra hle
        rw [Tracker.begun_eq_zero (not_lt.mp hle)] at hk
        exact absurd hk (Nat.not_lt_zero k)
      rcases h.inv.pending reg hreg with hvac | ⟨q, hq, hold'⟩
      · exact hold.not_vacant h.inv.booked.fits hcount hvac
      · exact hmem (hold.inj hold' h.inv.booked.fits hcount (Tracker.lt_count hq) ▸ hq)
  · rw [hxs.numbers]
    exact Tracker.nodup_liveJobs
  · rw [hsize, ← hlive, ← Tracker.mem_liveJobs, ← hxs.numbers, List.mem_map]
  · have hdead : ¬τ.Live r := fun hl => by
      obtain ⟨k, hk, h0⟩ := (hlive r).mp hl
      exact hall k (by rw [hsize]; exact hk) h0
    have hr' : r < τ.count := by rw [hcounted.count]; exact hr
    exact ⟨by rw [hlog.freed, if_pos ⟨hr', hdead⟩], hlog.freedLast r hr' hdead⟩
  · rw [hsize] at hk
    rw [hlog.freed, if_neg fun hdead => hdead.2 ((hlive r).mpr ⟨k, hk, h0⟩)]
  · -- a pending page would be due in its register
    have hpend : τ.pending = ∅ := Finset.eq_empty_of_forall_notMem fun p hp => by
      obtain ⟨reg, ⟨hreg, hold⟩, -⟩ := h.inv.held p hp
      have hdue := (h.inv.due reg hreg).resolve_left (h.inv.not_vacant hp hold)
      simp [Due, hnoop reg hreg] at hdue
    have hnil : xs = [] := by
      rw [← List.map_eq_nil_iff (f := fun x : ℕ × IoRequest => x.2.requestNb), hxs.numbers]
      refine List.eq_nil_iff_forall_not_mem.mpr fun r hr => ?_
      obtain ⟨k, hk, h0⟩ := (hlive r).mp (Tracker.mem_liveJobs.mp hr)
      rw [hend r k hk, hpend] at h0
      exact absurd h0 (Finset.notMem_empty _)
    subst hnil
    exact ⟨hxs.rep.seg, hxs.rep.count⟩

/-- **The life of I/O requests.** -/
theorem run_ioLifecycle {hist : List Served} {f : Ftl} (hrun : Run g hist f)
    (hok : ∀ e ∈ hist, ∀ sectorNb length, e.request = .write sectorNb length → e.ret = .success)
    (hlen : hist.length < 2 ^ 32 - 1) (hsize : ∀ e ∈ hist, e.request.pageNb g ≤ 32767) :
    Lifecycle g (allocated g (eventLog hist)) (ioRun g t clk (eventLog hist) (Io.init t)) := by
  have hempty : Counted [] Tracker.empty := ⟨rfl, fun _ => rfl⟩
  have hcount : Tracker.empty.count + hist.length < 2 ^ 32 - 1 := by
    rw [show Tracker.empty.count = 0 from rfl]
    omega
  obtain ⟨τ, hrest, hcounted⟩ := serves_rest t clk hrun ftlInit_bounded (init_rest t) hempty hok
    hcount hsize
  exact hrest.lifecycle hcounted

/-- A clock that advances by one at every reading. -/
def steadyClock : Clock where
  read n := n
  wait time tick := tick + (time - tick).toNat + 1
  nonneg n := Int.natCast_nonneg n
  mono _ _ h := Int.ofNat_le.mpr h
  wait_eq time tick n hn hlt := by
    rcases Nat.eq_zero_or_pos n with rfl | hpos
    · omega
    · have := hlt (n - 1) (by omega)
      omega

/-- Delays for a device with one channel. -/
def smallDelays : IoConfig where
  channelNb := 1
  channelNb_pos := Nat.one_pos
  ioParallelism := true
  oDirectVssim := false
  regWriteDelay := 3
  cellProgramDelay := 20
  regReadDelay := 3
  cellReadDelay := 5
  blockEraseDelay := 30
  channelSwitchDelayR := 1
  channelSwitchDelayW := 2

/-- A run with partial writes, a read and a collection. -/
theorem run_ioLifecycle_smallDevice : ∃ hist f, Run smallDevice hist f ∧
    hist.map Served.ret = List.replicate 7 .success ∧
    (∃ e ∈ eventLog hist, e.call = .ssdBlockErase 0 0) ∧
    allocated smallDevice (eventLog hist) = [2, 2, 2, 1, 2, 1, 1] ∧
    Lifecycle smallDevice (allocated smallDevice (eventLog hist))
      (ioRun smallDevice smallDelays steadyClock (eventLog hist) (Io.init smallDelays)) := by
  obtain ⟨hist, f, hrun, hP⟩ := exists_run (g := smallDevice) 30
    [.write 0 4, .write 1 2, .write 0 3, .write 2 2, .read 0 4, .write 0 1, .write 3 1]
    (fun hist _ => decide (hist.map Served.ret = List.replicate 7 .success ∧
      (∃ e ∈ eventLog hist, e.call = .ssdBlockErase 0 0) ∧
      allocated smallDevice (eventLog hist) = [2, 2, 2, 1, 2, 1, 1] ∧
      ∀ e ∈ hist, e.request.pageNb smallDevice ≤ 32767))
    (by decide +kernel) (by decide +kernel)
  obtain ⟨hret, hgc, hsizes, hsize⟩ := of_decide_eq_true hP
  have hlen : hist.length = 7 := by simpa using congrArg List.length hret
  refine ⟨hist, f, hrun, hret, hgc, hsizes, run_ioLifecycle _ _ hrun (fun e he _ _ _ => ?_)
    (by omega) hsize⟩
  exact List.eq_of_mem_replicate (hret ▸ List.mem_map_of_mem he)

end Vssim
