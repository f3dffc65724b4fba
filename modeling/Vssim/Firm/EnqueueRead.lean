import Vssim.Firm.EnqueueWrite

/-!
# Enqueueing reads

`ENQUEUE_READ` looks for the last pending write that shares a sector with the read and flushes the
queue up to it. If this write has all sectors of the read, the data is copied out of its frames,
which the flush has just given back: all of them are `'0'` by then, so the copy takes consecutive
frames (`copyDataToReadBuffer_eq`). Otherwise the read is left to the FTL, which is up to date on
its sectors.
-/

namespace Vssim

open LinkedHeap

variable {b : BufferConfig} {g : Geometry} {newPage : ℕ → Ret} {fit : Prop} {reqs : List Request}
  {rs ws us vs cs : List (EventAt b)} {fs : List (ℕ × SNode (EventQueueEntry b))}
  {orphans : List (WbPtr b)} {r w : EventAt b} {d : Device b} {sectorNb : ℤ} {length : ℕ}

/-! ### Looking for a pending write -/

private theorem lastOverlap_none (h : EventQueues.lastOverlap sectorNb length ws = none) :
    ∀ w ∈ ws, overlaps w.2 sectorNb length = false := by
  rw [EventQueues.lastOverlap, List.getLast?_eq_none_iff, List.filter_eq_nil_iff] at h
  simpa using h

private theorem lastOverlap_some (h : EventQueues.lastOverlap sectorNb length ws = some w) :
    overlaps w.2 sectorNb length = true ∧
      ∃ us vs, ws = us ++ w :: vs ∧ ∀ v ∈ vs, overlaps v.2 sectorNb length = false := by
  induction ws using List.reverseRecOn with
  | nil => simp [EventQueues.lastOverlap] at h
  | append_singleton ws u ih =>
    by_cases hu : overlaps u.2 sectorNb length = true
    · rw [EventQueues.lastOverlap, List.filter_append, List.filter_singleton, hu] at h
      obtain rfl : u = w := by simpa using h
      exact ⟨hu, ws, [], rfl, by simp⟩
    · rw [EventQueues.lastOverlap, List.filter_append, List.filter_singleton,
        Bool.eq_false_iff.mpr hu, cond_false, List.append_nil] at h
      obtain ⟨hw, us, vs, rfl, hvs⟩ := ih h
      refine ⟨hw, us, vs ++ [u], by simp, fun v hv => ?_⟩
      rcases List.mem_append.mp hv with hv | hv
      · exact hvs v hv
      · rw [List.mem_singleton.mp hv]
        simpa using hu

/-- The test of `CHECK_IO_DEPENDENCY_FOR_READ` on requests within the device. -/
private theorem overlaps_iff {e : EventQueueEntry b} (he : InRange g e.sectorNb e.length)
    (hreq : InRange g sectorNb length) :
    overlaps e sectorNb length = true ↔
      e.valid = true ∧ e.sectorNb < sectorNb + length ∧ sectorNb < e.sectorNb + e.length := by
  have h0 := he.nonneg
  have h1 := he.le_int32
  have h2 := hreq.nonneg
  have h3 := hreq.le_int32
  have h4 := he.pos
  have h5 := hreq.pos
  have hend : toI32 (e.sectorNb + e.length - 1) = _ := toI32_of_bounds (by omega) (by omega)
  have hend' : toI32 (sectorNb + length - 1) = _ := toI32_of_bounds (by omega) (by omega)
  simp only [overlaps, hend, hend', Bool.and_eq_true, decide_eq_true_eq, and_assoc]
  refine and_congr_right fun _ => ?_
  omega

/-- A pending write that shares no sector with a request stores none of its sectors. -/
theorem PendingWrite.stamps_none {n : ℕ} {f : WbPtr b → Frame} {e : EventQueueEntry b}
    (h : PendingWrite g n f e) (hreq : InRange g sectorNb length)
    (hover : overlaps e sectorNb length = false) {x : ℤ} (hx : Covers sectorNb length x) :
    e.stamps x = none := by
  refine if_neg fun hx' => ?_
  have hyes : overlaps e sectorNb length = true := by
    rw [overlaps_iff h.inRange hreq]
    simp only [Covers.iff] at hx hx'
    exact ⟨hx'.1, by omega, by omega⟩
  rw [hover] at hyes
  exact absurd hyes (by simp)

/-- Without a pending write of its sectors, a new read finds its data in the FTL. -/
private theorem Core.upToDate {s : Firm b} (h : Core g reqs s rs ws cs fs orphans)
    (hreq : InRange g sectorNb length) (hover : ∀ w ∈ ws, overlaps w.2 sectorNb length = false)
    (more : List Request) : UpToDate (reqs ++ more) s.store reqs.length sectorNb length := by
  intro x hx
  rw [List.take_left]
  exact h.store_eq fun w hw => (h.wb.events w hw).stamps_none hreq (hover w hw) hx

/-! ### Copying frames -/

/-- The calls that copy consecutive frames, from `src` on, out of the write buffer of `s`. -/
structure CopyRun (requestNb : ℕ) (sectorNb : ℤ) (k length : ℕ) (src : WbPtr b) (s : Firm b)
    (evs : List (FirmEvent b)) : Prop where
  calls : evs.map FirmEvent.call =
    (List.range length).map fun j : ℕ => .copyFrame requestNb sectorNb (k + j) (Ring.advance src j)
  wb : ∀ ev ∈ evs, ev.firm.wb = s.wb
  queues : ∀ ev ∈ evs, ev.firm.queues = s.queues

/-- Copying is in order as long as `e_queue` is. -/
theorem CopyRun.callOk {requestNb k : ℕ} {src : WbPtr b} {s : Firm b} {evs : List (FirmEvent b)}
    (h : CopyRun requestNb sectorNb k length src s evs) (hshape : s.queues.Shape rs ws)
    {ev : FirmEvent b} (hev : ev ∈ evs) : CallOk fit reqs ev := by
  have hcall : ev.call ∈ evs.map FirmEvent.call := List.mem_map_of_mem hev
  rw [h.calls] at hcall
  obtain ⟨j, -, hcall⟩ := List.mem_map.mp hcall
  refine ⟨rs, ws, (h.queues ev hev).symm ▸ hshape, ?_⟩
  rw [← hcall]
  trivial

private theorem Device.copyLoop_eq (requestNb : ℕ) (sectorNb : ℤ) {n fuel k : ℕ} {src : WbPtr b}
    {dst : RbPtr b}
    (hfuel : n ≤ fuel) (hdst : d.firm.rb.ftlReadPtr = dst)
    (hcells : ∀ j < n, (d.firm.wb.frames (Ring.advance src j)).valid ≠ .invalid) :
    ∃ d' evs, d.copyLoop requestNb sectorNb fuel n k src dst = .ok d' ∧
      d'.firm = { d.firm with rb := { d.firm.rb with ftlReadPtr := Ring.advance dst n } } ∧
      d'.log = d.log ++ evs ∧ CopyRun requestNb sectorNb k n src d.firm evs := by
  induction n generalizing d fuel k src dst with
  | zero =>
    refine ⟨d, [], by rw [copyLoop], ?_, by simp, ⟨rfl, by simp, by simp⟩⟩
    rw [Ring.advance_zero, ← hdst]
  | succ n ih =>
    obtain ⟨fuel, rfl⟩ : ∃ m, fuel = m + 1 := ⟨fuel - 1, by omega⟩
    have hfirst := hcells 0 (by omega)
    rw [Ring.advance_zero] at hfirst
    rw [copyLoop, if_neg hfirst]
    set d₁ := (d.note (.copyFrame requestNb sectorNb k src)).setRb
      { d.firm.rb with ftlReadPtr := Ring.next dst } with hd₁
    have hcells₁ : ∀ j < n,
        (d₁.firm.wb.frames (Ring.advance (Ring.next src) j)).valid ≠ .invalid := by
      intro j hj
      rw [Ring.advance_next]
      exact hcells (j + 1) (by omega)
    have hdst₁ : d₁.firm.rb.ftlReadPtr = Ring.next dst := rfl
    have hfuel₁ : n ≤ fuel := by omega
    obtain ⟨d', evs, hd', hfirm, hlog, hrun⟩ := ih (k := k + 1) hfuel₁ hdst₁ hcells₁
    refine ⟨d', ⟨.copyFrame requestNb sectorNb k src, d.firm⟩ :: evs, hd', ?_, ?_, ?_, ?_, ?_⟩
    · rw [hfirm, Ring.advance_next]
      rfl
    · rw [hlog, hd₁]
      simp [note, setRb]
    · rw [List.map_cons, hrun.calls, List.range_succ_eq_map, List.map_cons, List.map_map,
        Ring.advance_zero, Nat.add_zero]
      refine congrArg (List.cons _) (List.map_congr_left fun j _ => ?_)
      rw [Function.comp_apply, Ring.advance_next, Nat.succ_eq_add_one, Nat.add_assoc,
        Nat.add_comm 1 j]
    · intro ev hev
      rcases List.mem_cons.mp hev with rfl | hev
      · rfl
      · exact hrun.wb ev hev
    · intro ev hev
      rcases List.mem_cons.mp hev with rfl | hev
      · rfl
      · exact hrun.queues ev hev

/-- **`COPY_DATA_TO_READ_BUFFER`** when none of the frames it passes is `'I'`. -/
theorem Device.copyDataToReadBuffer_eq {a : ℕ} {e src : EventQueueEntry b} {n : Option ℕ}
    {p : WbPtr b} {offset : ℕ} (hcell : d.firm.queues.heap.cell a = some ⟨e, n⟩)
    (hbuf : src.buf = some (.wb p)) (hoff : toI32 (e.sectorNb - src.sectorNb) = offset)
    (hroom : offset + e.length ≤ b.writeBufferFrameNb)
    (hcells : ∀ j < offset + e.length, (d.firm.wb.frames (Ring.advance p j)).valid ≠ .invalid) :
    ∃ d' evs, d.copyDataToReadBuffer a src = .ok d' ∧
      d'.firm = { d.firm with rb := { d.firm.rb with
        ftlReadPtr := Ring.advance d.firm.rb.ftlReadPtr e.length
        readLimitPtr := Ring.advance d.firm.rb.ftlReadPtr e.length } } ∧
      d'.log = d.log ++ evs ∧
      CopyRun e.requestNb e.sectorNb 0 e.length (Ring.advance p offset) d.firm evs := by
  -- the first loop passes `offset` frames
  have hskip : ∃ f, scanFrames (fun v => v != .invalid) id offset p d.firm.wb.frames =
      .ok (Ring.advance p offset, f) := by
    refine ⟨_, scanFrames_span (P := fun _ => true) (k := offset) (fun q hq => ?_) (by omega) ?_ ?_⟩
    · obtain ⟨j, hj, rfl⟩ := Ring.mem_span.mp hq
      simpa using hcells j (by omega)
    · simp
    · intro c _
      rfl
  obtain ⟨f, hskip⟩ := hskip
  have hfuel : e.length ≤ b.writeBufferFrameNb * e.length :=
    Nat.le_mul_of_pos_left _ b.writeBufferFrameNb_pos
  have hcells' : ∀ j < e.length,
      (d.firm.wb.frames (Ring.advance (Ring.advance p offset) j)).valid ≠ .invalid := by
    intro j hj
    rw [Ring.advance_advance]
    exact hcells _ (by omega)
  obtain ⟨d₁, evs, hd₁, hfirm, hlog, hrun⟩ :=
    Device.copyLoop_eq e.requestNb e.sectorNb (k := 0) hfuel rfl hcells'
  refine ⟨d₁.setRb { d₁.firm.rb with readLimitPtr := d₁.firm.rb.ftlReadPtr }, evs, ?_, ?_, hlog,
    hrun⟩
  · rw [copyDataToReadBuffer, EventQueues.deref_eq hcell, hbuf]
    simp only [ok_bind, hoff, hskip, hd₁, ReadBuffer.increaseRbLimitPointer_eq]
    rfl
  · rw [Device.setRb, hfirm]

/-! ### Flushing what the read depends on -/

/-- The pending write that has all sectors of a read, if the last one that shares a sector does. -/
def bufferHit (sectorNb : ℤ) (length : ℕ) (ws : List (EventAt b)) : Option (EventAt b) :=
  (EventQueues.lastOverlap sectorNb length ws).filter fun w =>
    decide (w.2.sectorNb ≤ sectorNb ∧
      toU32 (sectorNb + length) ≤ toU32 (w.2.sectorNb + w.2.length))

/-- What a hit is. -/
theorem bufferHit_some {n : ℕ} {s : WriteBuffer b} {extra : List (WbPtr b)}
    (hwb : WbRep g n s orphans ws extra) (hreq : InRange g sectorNb length)
    (hhit : bufferHit sectorNb length ws = some w) :
    EventQueues.lastOverlap sectorNb length ws = some w ∧ w.2.valid = true ∧
      ∃ offset : ℕ, sectorNb = w.2.sectorNb + offset ∧ offset + length ≤ w.2.length ∧
        ∃ us vs, ws = us ++ w :: vs ∧ ∀ v ∈ vs, overlaps v.2 sectorNb length = false := by
  rw [bufferHit, Option.filter_eq_some_iff] at hhit
  obtain ⟨hlast, hcontained⟩ := hhit
  obtain ⟨hover, us, vs, rfl, hvs⟩ := lastOverlap_some hlast
  have hw := (hwb.events w (by simp)).inRange
  have hv := ((overlaps_iff hw hreq).mp hover).1
  simp only [decide_eq_true_eq] at hcontained
  obtain ⟨hstart, hend⟩ := hcontained
  have h0 := hw.nonneg
  have h1 := hw.le_int32
  have h2 := hreq.nonneg
  have h3 := hreq.le_int32
  have hend₁ := toU32_of_nonneg (x := w.2.sectorNb + w.2.length) (by omega) (by omega)
  have hend₂ := toU32_of_nonneg (x := sectorNb + length) (by omega) (by omega)
  obtain ⟨offset, hoff⟩ := Int.eq_ofNat_of_zero_le (a := sectorNb - w.2.sectorNb) (by omega)
  exact ⟨hlast, hv, offset, by omega, by omega, us, vs, rfl, hvs⟩

/-- The middle of `ENQUEUE_READ` for a read that is left to the FTL: afterwards no pending write
shares a sector with it. -/
private theorem Core.resolveRead_miss (hnew : ∀ n, newPage n = .success) (a : ℕ)
    (h : Core g reqs d.firm rs ws cs fs orphans) (hrb : fit → RbOk d.firm.rb cs rs)
    (hreq : InRange g sectorNb length) (hmiss : bufferHit sectorNb length ws = none) :
    ∃ d' rs' ws' cs' orphans', d.resolveRead g newPage a sectorNb length = .ok d' ∧
      Core g reqs d'.firm rs' ws' cs' fs orphans' ∧ (orphans = [] → orphans' = []) ∧
      (∀ w ∈ ws', overlaps w.2 sectorNb length = false) ∧
      totalLength cs' + totalLength rs' = totalLength cs + totalLength rs ∧
      (fit → RbOk d'.firm.rb cs' rs') ∧ Quiet fit reqs d d' := by
  have hcheck := h.queues.checkIoDependencyForRead sectorNb length
  rw [Device.resolveRead, hcheck]
  rcases hlast : EventQueues.lastOverlap sectorNb length ws with _ | w
  · exact ⟨d, rs, ws, cs, orphans, rfl, h, id, lastOverlap_none hlast, rfl, hrb, .refl d⟩
  · obtain ⟨hover, us, vs, rfl, hvs⟩ := lastOverlap_some hlast
    have hw := h.wb.events w (by simp)
    obtain ⟨m, hcell⟩ := h.queues.pending.cell (x := w) (by simp)
    obtain ⟨d', cs', hd', htotal, h', hrb', hquiet⟩ :=
      h.flush_write hnew hrb ((overlaps_iff hw.inRange hreq).mp hover).1
    refine ⟨d', [], vs, cs', [], ?_, h', fun _ => rfl, hvs, by simpa using htotal, hrb', hquiet⟩
    rw [bufferHit, hlast, Option.filter_some, ite_eq_right_iff] at hmiss
    have hnot : ¬ (w.2.sectorNb ≤ sectorNb ∧
        toU32 (sectorNb + length) ≤ toU32 (w.2.sectorNb + w.2.length)) := by
      intro hc
      exact absurd (hmiss (by simpa using hc)) (by simp)
    simp only [Option.map_some, ok_bind, EventQueues.deref_eq hcell, hd', if_neg hnot]

/-- The middle of `ENQUEUE_READ` for a read that the write buffer serves. -/
private theorem Core.resolveRead_hit (hnew : ∀ n, newPage n = .success) {a : ℕ}
    {e : EventQueueEntry b} (h : Core g reqs d.firm rs ws cs ((a, ⟨e, none⟩) :: fs) orphans)
    (hrb : fit → RbOk d.firm.rb cs rs) (hreq : InRange g sectorNb length)
    (hsector : e.sectorNb = sectorNb) (hlength : e.length = length)
    (hhit : bufferHit sectorNb length ws = some w) :
    ∃ d' d₁ evs vs cs' p, ∃ offset : ℕ, d.resolveRead g newPage a sectorNb length = .ok d' ∧
      Core g reqs d'.firm [] vs cs'
        ((a, ⟨{ e with buf := some (.rb d₁.firm.rb.ftlReadPtr) }, none⟩) :: fs) [] ∧
      totalLength cs' = totalLength cs + totalLength rs ∧ (fit → RbOk d₁.firm.rb cs' []) ∧
      d'.firm = { d₁.firm with
        queues := d'.firm.queues
        rb := { d₁.firm.rb with
          ftlReadPtr := Ring.advance d₁.firm.rb.ftlReadPtr length
          readLimitPtr := Ring.advance d₁.firm.rb.ftlReadPtr length } } ∧
      Quiet fit reqs d d₁ ∧ d'.log = d₁.log ++ evs ∧
      CopyRun e.requestNb sectorNb 0 length (Ring.advance p offset) d'.firm evs ∧
      w.2.buf = some (.wb p) ∧ sectorNb = w.2.sectorNb + offset ∧
      offset + length ≤ w.2.length := by
  have hcheck := h.queues.checkIoDependencyForRead sectorNb length
  obtain ⟨hlast, hv, offset, hstart, hend, us, vs, rfl, hvs⟩ := bufferHit_some h.wb hreq hhit
  obtain ⟨m, hcell⟩ := h.queues.pending.cell (x := w) (by simp)
  obtain ⟨p, hbuf, hspan, -, hsep⟩ := h.wb.segment
  obtain ⟨hlen, hle, hlt⟩ := h.wb.length_lt (a := w.1) (e := w.2) hv
  obtain ⟨d₁, cs', hd₁, htotal, h₁, hrb₁, hquiet₁⟩ := h.flush_write hnew hrb hv
  -- by now the frames of the event have been given back
  have hcells : ∀ j < offset + length,
      (d₁.firm.wb.frames (Ring.advance p j)).valid ≠ .invalid := by
    intro j hj
    have hmem : Ring.advance p j ∈ w.2.frames := by
      rw [hspan]
      exact Ring.mem_span.mpr ⟨j, by omega, rfl⟩
    rw [h₁.wb.zero]
    · simp
    · simp only [List.nil_append, List.append_nil, mem_ownedFrames, not_exists, not_and]
      exact fun v hv => (hsep _ hmem).2.2 v (by simp [hv])
  have hfloat := h₁.queues.modify_float fun e => { e with buf := some (.rb d₁.firm.rb.ftlReadPtr) }
  set d₂ := d₁.setQueues (d₁.firm.queues.modify a fun e =>
    { e with buf := some (.rb d₁.firm.rb.ftlReadPtr) }) with hd₂
  have hcell₂ : d₂.firm.queues.heap.cell a =
      some ⟨{ e with buf := some (.rb d₁.firm.rb.ftlReadPtr) }, none⟩ :=
    hfloat.floating (a, _) (by simp)
  have hoff : toI32 (e.sectorNb - w.2.sectorNb) = offset := by
    rw [hsector, hstart, add_sub_cancel_left]
    exact toI32_of_bounds (by omega) (by omega)
  obtain ⟨d', evs, hd', hfirm, hlog, hrun⟩ := Device.copyDataToReadBuffer_eq hcell₂ hbuf hoff
    (by dsimp only; omega) (by dsimp only; rw [hlength]; exact hcells)
  dsimp only at hfirm hrun
  rw [hlength] at hfirm hrun
  rw [hsector] at hrun
  have hcontained : w.2.sectorNb ≤ sectorNb ∧
      toU32 (sectorNb + length) ≤ toU32 (w.2.sectorNb + w.2.length) := by
    rw [bufferHit, Option.filter_eq_some_iff] at hhit
    simpa using hhit.2
  refine ⟨d', d₁, evs, vs, cs', p, offset, ?_, ?_, htotal, hrb₁, ?_, hquiet₁, hlog, ?_, hbuf, hstart,
    hend⟩
  · simp only [Device.resolveRead, hcheck, hlast, Option.map_some, ok_bind,
      EventQueues.deref_eq hcell, hd₁, if_pos hcontained]
    exact hd'
  · rw [hfirm]
    exact { h₁ with queues := hfloat }
  · rw [hfirm]
    rfl
  · rw [hfirm]
    exact ⟨hrun.calls, hrun.wb, hrun.queues⟩

/-! ### The whole of `ENQUEUE_READ` -/

/-- The event that `ENQUEUE_READ` allocates. -/
def newRead (requestNb : ℕ) (sectorNb : ℤ) (length : ℕ) : EventQueueEntry b :=
  { ioType := .read
    valid := true
    sectorNb
    length
    buf := none
    requestNb
    merged := []
    frames := [] }

private theorem pendingRead_newRead {store : ℤ → Option ℕ} (hreq : InRange g sectorNb length)
    (buf : Option (BufPtr b)) (hdata : buf = none →
      UpToDate (reqs ++ [.read sectorNb length]) store reqs.length sectorNb length) :
    PendingRead g (reqs ++ [.read sectorNb length]) store
      ({ newRead reqs.length sectorNb length with buf } : EventQueueEntry b) :=
  ⟨rfl, hreq, by simp [newRead], hdata⟩

/-- The end of `ENQUEUE_READ`: account for the space the read needs. -/
def Device.claim (length : ℕ) (d : Device b) : Device b :=
  d.setRb { d.firm.rb with
    emptyReadBufferFrame := toI32 (d.firm.rb.emptyReadBufferFrame - length) }

/-- `ENQUEUE_READ` with an empty queue. -/
private theorem Device.enqueueRead_nil (hcount : d.firm.queues.eQueue.count = 0) :
    d.enqueueRead g newPage sectorNb length = .ok (Device.claim length (d.setQueues
      { d.firm.queues.allocNewEvent (newRead d.firm.requestNb sectorNb length) with
        eQueue := ⟨some d.firm.queues.heap.brk, some d.firm.queues.heap.brk,
          d.firm.queues.eQueue.count + 1⟩
        lastReadEntry := some d.firm.queues.heap.brk })) := by
  rw [enqueueRead]
  exact if_pos hcount

/-- `ENQUEUE_READ` with pending events, up to the calls it makes. -/
private theorem Device.enqueueRead_cons {d₀ d₁ : Device b} {q : EventQueues b}
    (hcount : d.firm.queues.eQueue.count ≠ 0)
    (hd₀ : d.setQueues (d.firm.queues.allocNewEvent
      (newRead d.firm.requestNb sectorNb length)) = d₀)
    (hd₁ : d₀.resolveRead g newPage d.firm.queues.heap.brk sectorNb length = .ok d₁)
    (hq : d₁.firm.queues.insertRead d.firm.queues.heap.brk = .ok q) :
    d.enqueueRead g newPage sectorNb length = .ok (Device.claim length (d₁.setQueues q)) := by
  have hcount₀ : ¬ d₀.firm.queues.eQueue.count = 0 := by
    rw [← hd₀]
    exact hcount
  rw [newRead] at hd₀
  rw [enqueueRead, hd₀]
  simp only [if_neg hcount₀, hd₁, ok_bind, hq]
  rfl

private theorem Quiet.claim {d' : Device b} (h : Quiet fit reqs d d') (length : ℕ) :
    Quiet fit reqs d (d'.claim length) := h.setRb _

/-- **`ENQUEUE_READ`** of a read that is left to the FTL. -/
theorem Core.enqueueRead_miss (hnew : ∀ n, newPage n = .success)
    (h : Core g reqs d.firm rs ws cs [] orphans) (hrb : fit → RbOk d.firm.rb cs rs)
    (hroom : fit → totalLength cs + totalLength rs + length ≤ b.readBufferFrameNb)
    (hreq : InRange g sectorNb length) (hnb : d.firm.requestNb = reqs.length)
    (hmiss : bufferHit sectorNb length ws = none) :
    ∃ d' rs' ws' cs' orphans', d.enqueueRead g newPage sectorNb length = .ok d' ∧
      Core g (reqs ++ [.read sectorNb length]) d'.firm rs' ws' cs' [] orphans' ∧
      (orphans = [] → orphans' = []) ∧ (fit → RbOk d'.firm.rb cs' rs') ∧ Quiet fit reqs d d' := by
  set a := d.firm.queues.heap.brk with ha
  have halloc := h.queues.alloc (newRead d.firm.requestNb sectorNb length)
  rw [← ha, hnb] at halloc
  by_cases hcount : d.firm.queues.eQueue.count = 0
  · -- the queue is empty
    obtain ⟨rfl, rfl⟩ := List.append_eq_nil_iff.mp (h.queues.pending.count_eq_zero.mp hcount)
    have hread := pendingRead_newRead (b := b) hreq none fun _ =>
      h.upToDate hreq (by simp) [.read sectorNb length]
    refine ⟨_, [(a, newRead reqs.length sectorNb length)], [], cs, orphans,
      Device.enqueueRead_nil hcount, ?_, id, fun hfit => ?_,
      ((Quiet.refl d).setQueues _).claim length⟩
    · rw [hnb]
      exact h.joinRead (halloc.start_read rfl) rfl rfl hread
    · exact (hrb hfit).enqueue_unowned (r := (a, newRead reqs.length sectorNb length)) rfl
        (hroom hfit)
  · generalize hd₀ : d.setQueues (d.firm.queues.allocNewEvent
      (newRead d.firm.requestNb sectorNb length)) = d₀
    have h₀ : Core g reqs d₀.firm rs ws cs [(a, ⟨newRead reqs.length sectorNb length, none⟩)]
        orphans := by
      rw [← hd₀, hnb]
      exact { h with queues := halloc }
    have hquiet₀ : Quiet fit reqs d d₀ := by
      rw [← hd₀]
      exact (Quiet.refl d).setQueues _
    have hrb₀ : fit → RbOk d₀.firm.rb cs rs := by
      rw [← hd₀]
      exact hrb
    obtain ⟨d₁, rs', ws', cs', orphans', hd₁, h₁, horphans, hover, htotal, hrb₁, hquiet₁⟩ :=
      h₀.resolveRead_miss hnew a hrb₀ hreq hmiss
    obtain ⟨q, hq, hrep⟩ := h₁.queues.insertRead rfl
    have hread := pendingRead_newRead (b := b) hreq none fun _ =>
      h₁.upToDate hreq hover [.read sectorNb length]
    refine ⟨_, rs' ++ [(a, newRead reqs.length sectorNb length)], ws', cs', orphans',
      Device.enqueueRead_cons hcount hd₀ hd₁ hq, ?_, horphans, fun hfit => ?_,
      ((hquiet₀.trans hquiet₁).setQueues q).claim length⟩
    · exact h₁.joinRead hrep rfl rfl hread
    · refine (hrb₁ hfit).enqueue_unowned (r := (a, newRead reqs.length sectorNb length)) rfl ?_
      rw [htotal]
      exact hroom hfit

/-- **`ENQUEUE_READ`** of a read that the write buffer serves: after the flush, `length` consecutive
frames are copied, starting `offset` frames behind the `buf` of the write. -/
theorem Core.enqueueRead_hit (hnew : ∀ n, newPage n = .success)
    (h : Core g reqs d.firm rs ws cs [] orphans) (hrb : fit → RbOk d.firm.rb cs rs)
    (hroom : fit → totalLength cs + totalLength rs + length ≤ b.readBufferFrameNb)
    (hreq : InRange g sectorNb length) (hnb : d.firm.requestNb = reqs.length)
    (hhit : bufferHit sectorNb length ws = some w) :
    ∃ d' d₁ evs s rs' ws' cs' p, ∃ offset : ℕ,
      d.enqueueRead g newPage sectorNb length = .ok d' ∧
      Core g (reqs ++ [.read sectorNb length]) d'.firm rs' ws' cs' [] [] ∧
      (fit → RbOk d'.firm.rb cs' rs') ∧ Quiet fit reqs d d₁ ∧ d'.log = d₁.log ++ evs ∧
      d'.firm = { d₁.firm with queues := d'.firm.queues, rb := d'.firm.rb } ∧
      s.wb = d₁.firm.wb ∧ s.queues.Shape [] ws' ∧
      CopyRun reqs.length sectorNb 0 length (Ring.advance p offset) s evs ∧
      w.2.buf = some (.wb p) ∧ sectorNb = w.2.sectorNb + offset ∧
      offset + length ≤ w.2.length := by
  set a := d.firm.queues.heap.brk with ha
  have halloc := h.queues.alloc (newRead d.firm.requestNb sectorNb length)
  rw [← ha, hnb] at halloc
  have hcount : ¬ d.firm.queues.eQueue.count = 0 := by
    intro hcount
    obtain ⟨rfl, rfl⟩ := List.append_eq_nil_iff.mp (h.queues.pending.count_eq_zero.mp hcount)
    simp [bufferHit, EventQueues.lastOverlap] at hhit
  generalize hd₀ : d.setQueues (d.firm.queues.allocNewEvent
    (newRead d.firm.requestNb sectorNb length)) = d₀
  have h₀ : Core g reqs d₀.firm rs ws cs [(a, ⟨newRead reqs.length sectorNb length, none⟩)]
      orphans := by
    rw [← hd₀, hnb]
    exact { h with queues := halloc }
  have hquiet₀ : Quiet fit reqs d d₀ := by
    rw [← hd₀]
    exact (Quiet.refl d).setQueues _
  have hrb₀ : fit → RbOk d₀.firm.rb cs rs := by
    rw [← hd₀]
    exact hrb
  obtain ⟨d₂, d₁, evs, vs, cs', p, offset, hd₂, h₂, htotal, hrb₁, hfirm₂, hquiet₁, hlog, hrun, hbuf,
    hstart, hend⟩ := h₀.resolveRead_hit hnew hrb₀ hreq rfl rfl hhit
  obtain ⟨q, hq, hrep⟩ := h₂.queues.insertRead rfl
  set e : EventQueueEntry b := { newRead reqs.length sectorNb length with
    buf := some (.rb d₁.firm.rb.ftlReadPtr) } with he
  have hread : PendingRead g (reqs ++ [.read sectorNb length]) d₂.firm.store e :=
    pendingRead_newRead hreq _ fun hnone => absurd hnone (by simp)
  have hrb₂ : d₂.firm.rb = { d₁.firm.rb with
      ftlReadPtr := Ring.advance d₁.firm.rb.ftlReadPtr length
      readLimitPtr := Ring.advance d₁.firm.rb.ftlReadPtr length } := by rw [hfirm₂]
  refine ⟨_, d₁, evs, d₂.firm, [] ++ [(a, e)], vs, cs', p, offset,
    Device.enqueueRead_cons hcount hd₀ hd₂ hq, h₂.joinRead hrep rfl rfl hread, fun hfit => ?_,
    hquiet₀.trans hquiet₁, hlog, ?_, ?_, h₂.queues.toShape, hrun, hbuf, hstart, hend⟩
  · have howned := (hrb₁ hfit).enqueue_owned (r := (a, e)) rfl (by
      rw [htotal]
      exact hroom hfit) (Ring.advance d₁.firm.rb.ftlReadPtr length)
    simp only [Device.claim, Device.setRb, Device.setQueues, hrb₂]
    exact howned
  · rw [Device.claim, Device.setRb, Device.setQueues, hfirm₂]
  · rw [hfirm₂]

end Vssim
