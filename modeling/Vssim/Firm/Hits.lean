import Vssim.Firm.Ordering

/-!
# Reads served from the write buffer

`COPY_DATA_TO_READ_BUFFER` finds the data of a sector by counting the frames that are not `'I'` from
the `buf` of the event on. But it runs after the event has been flushed, when all its frames are
`'0'`. So it takes the right frames exactly if there was no `'I'` among those it passes
(`run_copiesNewest`); an event that has merged an overlapping write has such holes
(`holes_copyStale`).
-/

namespace Vssim

open LinkedHeap

variable {b : BufferConfig} {g : Geometry} {newPage : ℕ → Ret} {fit : Prop} {reqs : List Request}
  {rs ws cs : List (EventAt b)} {w : EventAt b} {d : Device b} {sectorNb : ℤ} {length : ℕ}

/-- The pending events, in queue order. -/
def EventQueues.pendingEvents (q : EventQueues b) : List (EventQueueEntry b) :=
  walk SNode.val SNode.next q.heap q.eQueue.count q.eQueue.head

/-- The pending write that serves a read: the last valid one that shares a sector with the read, if
it has all of them. -/
def servingEvent (s : Firm b) (sectorNb : ℤ) (length : ℕ) : Option (EventQueueEntry b) :=
  (s.queues.pendingEvents.filter fun e =>
    e.ioType = .write && overlaps e sectorNb length).getLast?.filter fun e =>
      decide (e.sectorNb ≤ sectorNb ∧ toU32 (sectorNb + length) ≤ toU32 (e.sectorNb + e.length))

/-- The event that serves a read has no holes up to the end of the read: its frames from `buf` on, as
many as it has sectors up to there, are all `'V'`. -/
def NoHoles (s : Firm b) (sectorNb : ℤ) (length : ℕ) : Prop :=
  ∀ e p, servingEvent s sectorNb length = some e → e.buf = some (.wb p) →
    ∀ j : ℕ, e.sectorNb + j < sectorNb + length →
      (s.wb.frames (Ring.advance p j)).valid = .valid

/-- A copy of a frame takes the one that the most recent write of its sector has filled. -/
def CopiesNewest (reqs : List Request) (ev : FirmEvent b) : Prop :=
  ∀ requestNb sectorNb k src, ev.call = .copyFrame requestNb sectorNb k src →
    ∃ nb, (ev.firm.wb.frames src).label = some (sectorNb + k, nb) ∧
      lastStamp (ssdWrites reqs) (sectorNb + k) = some nb

/-! ### Frames and sectors -/

/-- The `m`-th element that passes a test, with what stands before it. -/
private theorem exists_split_of_filter {α : Type} {p : α → Bool} {cs : List α} {m : ℕ} {x : α}
    (h : (cs.filter p)[m]? = some x) :
    ∃ us vs, cs = us ++ x :: vs ∧ (us.filter p).length = m ∧ p x = true := by
  obtain ⟨hm, hx⟩ := List.getElem?_eq_some_iff.mp h
  have hsplit : cs.filter p = (cs.filter p).take m ++ x :: (cs.filter p).drop (m + 1) := by
    rw [← hx, ← List.drop_eq_getElem_cons hm, List.take_append_drop]
  obtain ⟨us, cs', rfl, hus, hcs'⟩ := List.filter_eq_append_iff.mp hsplit
  obtain ⟨us', vs, rfl, hus', hpx, -⟩ := List.filter_eq_cons_iff.mp hcs'
  refine ⟨us ++ us', vs, by simp, ?_, hpx⟩
  rw [List.filter_append, List.filter_eq_nil_iff.mpr hus', List.append_nil, hus, List.length_take]
  omega

/-- If the frames have different labels and the one at `m` has the label of the `m`-th valid one, all
frames up to it are valid. -/
private theorem valid_of_label {cs : List Frame} {m : ℕ} {c : Frame}
    (hdistinct : (cs.map Frame.label).Nodup) (hc : cs[m]? = some c)
    (hlabel : ((cs.filter Frame.isValid).map Frame.label)[m]? = some c.label) :
    ∀ j ≤ m, ∀ y, cs[j]? = some y → y.isValid = true := by
  rw [List.getElem?_map, Option.map_eq_some_iff] at hlabel
  obtain ⟨x, hx, hxc⟩ := hlabel
  obtain ⟨us, vs, rfl, hus, hvalid⟩ := exists_split_of_filter hx
  have hm : us.length = m := by
    refine (List.getElem?_inj ?_ hdistinct).mp ?_
    · rw [List.length_map, List.length_append, List.length_cons]
      omega
    · rw [List.getElem?_map, List.getElem?_map, hc, Option.map_some, ← hxc]
      simp
  have hall : ∀ y ∈ us, y.isValid = true := List.length_filter_eq_length_iff.mp (hus.trans hm.symm)
  intro j hj y hy
  rcases Nat.lt_or_ge j us.length with hlt | hge
  · rw [List.getElem?_append_left hlt] at hy
    exact hall y (List.mem_of_getElem? hy)
  · obtain rfl : j = us.length := by omega
    rw [List.getElem?_append_right le_rfl, Nat.sub_self, List.getElem?_cons_zero] at hy
    exact Option.some.inj hy ▸ hvalid

/-- If the first frames are all valid, their labels are those of the valid ones. -/
private theorem label_of_valid {cs : List Frame} {m : ℕ} {c : Frame}
    (hall : ∀ j ≤ m, ∀ y, cs[j]? = some y → y.isValid = true) (hc : cs[m]? = some c) :
    ((cs.filter Frame.isValid).map Frame.label)[m]? = some c.label := by
  have hm := (List.getElem?_eq_some_iff.mp hc).1
  have htake : ∀ y ∈ cs.take (m + 1), y.isValid = true := by
    intro y hy
    obtain ⟨j, hj, hget⟩ := List.mem_take_iff_getElem.mp hy
    exact hall j (by omega) y (List.getElem?_eq_some_iff.mpr ⟨by omega, hget⟩)
  have hlen : m < ((cs.take (m + 1)).map Frame.label).length := by
    rw [List.length_map, List.length_take]
    omega
  rw [← List.take_append_drop (m + 1) cs, List.filter_append, List.filter_eq_self.mpr htake,
    List.map_append, List.getElem?_append_left hlen, List.getElem?_map,
    List.getElem?_take_of_lt (Nat.lt_succ_self m), hc, Option.map_some]

private theorem EventQueueEntry.labels_getElem {e : EventQueueEntry b} {j : ℕ} (hj : j < e.length) :
    e.labels[j]? =
      some ((lastStamp e.merged (e.sectorNb + j)).map fun i => (e.sectorNb + (j : ℤ), i)) := by
  rw [EventQueueEntry.labels, List.getElem?_map, List.getElem?_range hj, Option.map_some]

/-- Counting frames from `buf` on finds the newest ones exactly if there is no hole before the last
of them. -/
private theorem PendingWrite.noHoles_iff {n : ℕ} {f : WbPtr b → Frame} {e : EventQueueEntry b}
    {p : WbPtr b} (h : PendingWrite g n f e) (hv : e.valid = true)
    (hspan : e.frames = Ring.span p e.frames.length) {offset : ℕ} (hpos : 0 < length)
    (hend : offset + length ≤ e.length) :
    (∀ j < offset + length, (f (Ring.advance p j)).valid = .valid) ↔
      ∀ j, offset ≤ j → j < offset + length → (f (Ring.advance p j)).label =
        (lastStamp e.merged (e.sectorNb + j)).map fun i => (e.sectorNb + (j : ℤ), i) := by
  have hlen := h.length_le hv
  have hget : ∀ j < e.length, (e.frames.map f)[j]? = some (f (Ring.advance p j)) := by
    intro j hj
    rw [hspan, Ring.span, List.map_map, List.getElem?_map, List.getElem?_range (by omega)]
    rfl
  have hnewest := h.newest hv
  have hdistinct : ((e.frames.map f).map Frame.label).Nodup := by
    rw [List.map_map]
    exact h.distinct
  constructor
  · intro hall j _ hj
    have hvalid : ∀ i ≤ j, ∀ y, (e.frames.map f)[i]? = some y → y.isValid = true := by
      intro i hi y hy
      rw [hget i (by omega), Option.some.injEq] at hy
      rw [← hy, Frame.isValid_iff]
      exact hall i (by omega)
    have hlabel := label_of_valid hvalid (hget j (by omega))
    rw [hnewest, EventQueueEntry.labels_getElem (by omega), Option.some.injEq] at hlabel
    exact hlabel.symm
  · intro hlabel j hj
    -- the last of the frames decides: its label is that of the last sector
    have hlast : ((e.frames.map f |>.filter Frame.isValid).map Frame.label)[offset + length - 1]? =
        some (f (Ring.advance p (offset + length - 1))).label := by
      rw [hnewest, EventQueueEntry.labels_getElem (by omega), hlabel _ (by omega) (by omega)]
    have hvalid := valid_of_label hdistinct (hget _ (by omega)) hlast j (by omega) _
      (hget j (by omega))
    exact Frame.isValid_iff.mp hvalid

/-! ### The event that serves a read -/

private theorem EventQueues.Shape.pendingEvents {q : EventQueues b} (h : q.Shape rs ws) :
    q.pendingEvents = (rs ++ ws).map Prod.snd := by
  rw [EventQueues.pendingEvents, h.pending.count]
  exact h.pending.seg.walk_eq

/-- Walking the queue finds the pending write that `CHECK_IO_DEPENDENCY_FOR_READ` returns. -/
private theorem servingEvent_eq {s : Firm b} (h : s.queues.Shape rs ws) :
    servingEvent s sectorNb length = (bufferHit sectorNb length ws).map Prod.snd := by
  have hreads : (rs.map Prod.snd).filter
      (fun e : EventQueueEntry b => e.ioType = .write && overlaps e sectorNb length) = [] := by
    rw [List.filter_eq_nil_iff]
    intro e he
    obtain ⟨r, hr, rfl⟩ := List.mem_map.mp he
    simp [h.reads r hr]
  have hwrites : (ws.map Prod.snd).filter
      (fun e : EventQueueEntry b => e.ioType = .write && overlaps e sectorNb length) =
        (ws.filter fun w => overlaps w.2 sectorNb length).map Prod.snd := by
    rw [List.filter_map]
    refine congrArg _ (List.filter_congr fun w hw => ?_)
    simp [h.writes w hw]
  rw [servingEvent, h.pendingEvents, List.map_append, List.filter_append, hreads, hwrites,
    List.nil_append, List.getLast?_map, Option.filter_map, bufferHit, EventQueues.lastOverlap]
  rfl

/-- The newest data of a sector of the read is what the event has merged last. -/
private theorem FirmInv.lastStamp_hit (h : FirmInv g fit reqs d rs ws cs)
    (hreq : InRange g sectorNb length)
    (hhit : bufferHit sectorNb length ws = some w) {x : ℤ} (hx : Covers sectorNb length x) :
    lastStamp (ssdWrites reqs) x = lastStamp w.2.merged x ∧ (lastStamp w.2.merged x).isSome := by
  obtain ⟨-, hv, offset, hstart, hend, us, vs, rfl, hvs⟩ := bufferHit_some h.core.wb hreq hhit
  have hw := h.core.wb.events w (by simp)
  have hcovers : Covers w.2.sectorNb w.2.length x := by
    rw [Covers.iff] at hx ⊢
    omega
  have hsome := (hw.covered x).mp hcovers
  obtain ⟨i, hi⟩ := Option.isSome_iff_exists.mp hsome
  have hstamp : w.2.stamps x = some i := by
    rw [EventQueueEntry.stamps, if_pos ⟨hv, hcovers⟩, hi]
  refine ⟨?_, hsome⟩
  rw [← h.core.value, List.map_append, List.map_cons, hi]
  refine Overlay.stack_apply_last hstamp fun q hq => ?_
  obtain ⟨v, hmem, rfl⟩ := List.mem_map.mp hq
  exact (h.core.wb.events v (by simp [hmem])).stamps_none hreq (hvs v hmem) hx

/-- One copied frame. -/
private theorem copiesNewest_iff {ev : FirmEvent b} {requestNb k : ℕ} {src : WbPtr b}
    (hcall : ev.call = .copyFrame requestNb sectorNb k src)
    (hsome : (lastStamp (ssdWrites reqs) (sectorNb + k)).isSome) :
    CopiesNewest reqs ev ↔ (ev.firm.wb.frames src).label =
      (lastStamp (ssdWrites reqs) (sectorNb + k)).map fun i => (sectorNb + (k : ℤ), i) := by
  obtain ⟨i, hi⟩ := Option.isSome_iff_exists.mp hsome
  rw [hi, Option.map_some]
  constructor
  · intro h
    obtain ⟨nb, hlabel, hnb⟩ := h requestNb sectorNb k src hcall
    rw [hlabel, Option.some.inj (hi.symm.trans hnb)]
  · intro h requestNb' sectorNb' k' src' hcall'
    obtain ⟨-, rfl, rfl, rfl⟩ : requestNb = requestNb' ∧ sectorNb = sectorNb' ∧ k = k' ∧
        src = src' := by simpa using hcall.symm.trans hcall'
    exact ⟨i, h, hi⟩

/-- A call that copies nothing. -/
private theorem Plain.copiesNewest {ev : FirmEvent b} (h : Plain fit reqs ev) :
    CopiesNewest reqs ev := by
  intro requestNb sectorNb k src hcall
  have hplain := h.2
  simp [FirmEvent.isCopy, hcall] at hplain

/-- **A read that the write buffer serves** gets the newest data exactly if the event that serves it
has no holes before the end of the read. -/
theorem FirmInv.copiesNewest_hit (hnew : ∀ n, newPage n = .success)
    (h : FirmInv g fit reqs d rs ws cs) (hreq : InRange g sectorNb length)
    (hlen : fit → length ≤ b.readBufferFrameNb) (hhit : bufferHit sectorNb length ws = some w) :
    ∃ d', d.ssdRead g newPage length sectorNb = .ok d' ∧
      ((∀ ev ∈ d'.log.drop d.log.length, CopiesNewest reqs ev) ↔
        NoHoles d.firm sectorNb length) := by
  obtain ⟨d', -, -, -, d₁, evs, p, offset, hd', -, ⟨evs₁, hlog₁, hplain⟩, hlog, hcalls, hlabels, hbuf,
    hstart, hend⟩ := h.ssdRead_hit hnew hreq hlen hhit
  obtain ⟨-, hv, -, -, -, us, vs, rfl, -⟩ := bufferHit_some h.core.wb hreq hhit
  have hw := h.core.wb.events w (by simp)
  obtain ⟨q, hbuf', hspan, -, -⟩ := h.core.wb.segment
  obtain rfl : p = q := by simpa [hbuf] using hbuf'
  have hpos := hreq.pos
  refine ⟨d', hd', ?_⟩
  have hholes : NoHoles d.firm sectorNb length ↔
      ∀ j < offset + length, (d.firm.wb.frames (Ring.advance p j)).valid = .valid := by
    rw [NoHoles, servingEvent_eq h.core.queues.toShape, hhit, Option.map_some]
    constructor
    · intro hno j hj
      exact hno w.2 p rfl hbuf j (by omega)
    · rintro hno e q he hq j hj
      obtain rfl := Option.some.inj he
      obtain rfl : p = q := by simpa [hbuf] using hq
      exact hno j (by omega)
  have hnewest : ∀ k < length, lastStamp (ssdWrites reqs) (sectorNb + k) =
      lastStamp w.2.merged (sectorNb + k) ∧ (lastStamp w.2.merged (sectorNb + k)).isSome := by
    intro k hk
    refine h.lastStamp_hit hreq hhit ?_
    rw [Covers.iff]
    omega
  have hdrop : d'.log.drop d.log.length = evs₁ ++ evs := by
    rw [hlog, hlog₁, List.append_assoc, List.drop_left]
  have hevs : evs.length = length := by simpa using congrArg List.length hcalls
  have hcall : ∀ k, (hk : k < evs.length) → evs[k].call =
      .copyFrame reqs.length sectorNb k (Ring.advance p (offset + k)) := by
    intro k hk
    have := congrArg (fun l => l[k]?) hcalls
    simpa [hk, List.getElem?_range (hevs ▸ hk)] using this
  -- the `k`-th copy is that of the frame `offset + k` of the event
  have hcopy : ∀ k, (hk : k < evs.length) → (CopiesNewest reqs evs[k] ↔
      (d.firm.wb.frames (Ring.advance p (offset + k))).label =
        (lastStamp w.2.merged (w.2.sectorNb + (offset + k : ℕ))).map
          fun i => (w.2.sectorNb + ((offset + k : ℕ) : ℤ), i)) := by
    intro k hk
    obtain ⟨heq, hsome⟩ := hnewest k (by omega)
    have hx : w.2.sectorNb + ((offset + k : ℕ) : ℤ) = sectorNb + k := by omega
    rw [copiesNewest_iff (hcall k hk) (heq ▸ hsome), hlabels _ (List.getElem_mem hk), heq, hx]
  rw [hdrop, hholes, hw.noHoles_iff hv hspan hpos hend]
  constructor
  · intro hall j hj hj'
    obtain ⟨k, rfl⟩ := Nat.exists_eq_add_of_le hj
    exact (hcopy k (by omega)).mp (hall _ (List.mem_append_right _ (List.getElem_mem _)))
  · intro hall ev hev
    rcases List.mem_append.mp hev with hev | hev
    · exact (hplain ev hev).copiesNewest
    · obtain ⟨k, hk, rfl⟩ := List.getElem_of_mem hev
      exact (hcopy k hk).mpr (hall _ (by omega) (by omega))

/-- **Reads served from the write buffer.** After every sequence of requests within the device that
fit into the buffers, as long as pages can be allocated, every further read copies from the write
buffer only the newest data of its sectors if and only if the pending write that serves it has no
holes before the end of the read. -/
theorem run_copiesNewest (newPage : ℕ → Ret) (hnew : ∀ n, newPage n = .success)
    (reqs : List Request) (hreq : ∀ req ∈ reqs, req.InRange g)
    (hwrite : ∀ req ∈ reqs, req.WriteFits b) (hread : ∀ req ∈ reqs, req.ReadFits b)
    (sectorNb : ℤ) (length : ℕ) (hin : InRange g sectorNb length)
    (hlen : length ≤ b.readBufferFrameNb) :
    ∃ d d', (initIoBuffer b).serveAll g newPage reqs = .ok d ∧
      d.ssdRead g newPage length sectorNb = .ok d' ∧
      ((∀ ev ∈ d'.log.drop d.log.length, CopiesNewest reqs ev) ↔
        NoHoles d.firm sectorNb length) := by
  obtain ⟨d, rs, ws, cs, hd, h⟩ :=
    serveAll_inv hnew (initIoBuffer_inv g True b) reqs hreq hwrite fun _ => hread
  rcases hhit : bufferHit sectorNb length ws with _ | w
  · obtain ⟨d', -, -, -, hd', -, evs, hlog, hplain⟩ := h.ssdRead_miss hnew hin (fun _ => hlen) hhit
    refine ⟨d, d', hd, hd', iff_of_true (fun ev hev => ?_) fun e p he => ?_⟩
    · rw [hlog, List.drop_left] at hev
      exact (hplain ev hev).copiesNewest
    · rw [servingEvent_eq h.core.queues.toShape, hhit] at he
      exact absurd he (by simp)
  · obtain ⟨d', hd', hiff⟩ := h.copiesNewest_hit hnew hin (fun _ => hlen) hhit
    exact ⟨d, d', hd, hd', hiff⟩

/-- Two adjacent writes become one event without holes, and a read across them gets its data. -/
theorem run_copiesNewest_smallBuffers : ∃ d d',
    (initIoBuffer smallBuffers).serveAll smallDevice (fun _ => .success)
      [.write 0 4, .write 4 3] = .ok d ∧
    d.ssdRead smallDevice (fun _ => .success) 4 2 = .ok d' ∧
    ∀ ev ∈ d'.log.drop d.log.length, CopiesNewest [.write 0 4, .write 4 3] ev := by
  obtain ⟨d, d', hd, hd', hiff⟩ :=
    run_copiesNewest (b := smallBuffers) (g := smallDevice) (fun _ => .success) (fun _ => rfl)
      [.write 0 4, .write 4 3] (by decide) (by decide) (by decide) 2 4 (by decide) (by decide)
  refine ⟨d, d', hd, hd', hiff.mpr fun e p he hp j hj => ?_⟩
  obtain ⟨d₀, hd₀, htest⟩ := exists_ok (x := (initIoBuffer smallBuffers).serveAll smallDevice
      (fun _ => .success) [.write 0 4, .write 4 3])
    (fun d => (servingEvent d.firm 2 4).all fun e : EventQueueEntry smallBuffers =>
      decide (e.sectorNb = 0) && (List.finRange _).all fun p => decide (e.buf = some (.wb p) →
        ∀ j ∈ List.range 6, (d.firm.wb.frames (Ring.advance p j)).valid = .valid))
    (by decide +kernel)
  obtain rfl : d = d₀ := by simpa [hd] using hd₀
  rw [he, Option.all_some, Bool.and_eq_true, decide_eq_true_eq, List.all_eq_true] at htest
  exact of_decide_eq_true (htest.2 p (List.mem_finRange p)) hp j (List.mem_range.mpr (by omega))

/-- Two overlapping writes become one event with holes. A read of all its sectors gets the frame of
the first write for sector 2, which the second write has overwritten. -/
theorem holes_copyStale : ∃ d d',
    (initIoBuffer smallBuffers).serveAll smallDevice (fun _ => .success)
      [.write 0 4, .write 2 4] = .ok d ∧
    d.ssdRead smallDevice (fun _ => .success) 6 0 = .ok d' ∧
    (∃ ev ∈ d'.log.drop d.log.length, ∃ src, ev.call = .copyFrame 2 0 2 src ∧
      (ev.firm.wb.frames src).label = some (2, 0)) ∧
    lastStamp (ssdWrites [.write 0 4, .write 2 4]) 2 = some 1 := by
  obtain ⟨d, hd, htest⟩ := exists_ok (x := (initIoBuffer smallBuffers).serveAll smallDevice
      (fun _ => .success) [.write 0 4, .write 2 4])
    (fun d => (d.ssdRead smallDevice (fun _ => .success) 6 0).toOption.any fun d' =>
      (d'.log.drop d.log.length).any fun ev => (List.finRange _).any fun src =>
        decide (ev.call.copied = some (2, 0, 2, src) ∧
          (ev.firm.wb.frames src).label = some (2, 0))) (by decide +kernel)
  obtain ⟨d', hd', htest⟩ := exists_ok _ htest
  obtain ⟨ev, hev, htest⟩ := List.any_eq_true.mp htest
  refine ⟨d, d', hd, hd', ⟨ev, hev, ?_⟩, by decide⟩
  obtain ⟨src, -, htest⟩ := List.any_eq_true.mp htest
  obtain ⟨hcopied, hlabel⟩ := of_decide_eq_true htest
  exact ⟨src, FirmCall.copied_eq_some hcopied, hlabel⟩

end Vssim
