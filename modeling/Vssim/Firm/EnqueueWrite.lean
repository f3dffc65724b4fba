import Vssim.Firm.Dequeue

/-!
# Enqueueing writes

`ENQUEUE_WRITE` fills the next free frames (`writeDataToBuffer_eq`), invalidates the pending writes
that the new one covers (`overwriteLoop_eq`), and then merges the new write into the tail event or
appends an event for it (`placeWrite_eq`). In each case the pending writes afterwards store what
they stored before, with the new write on top.
-/

namespace Vssim

open LinkedHeap

variable {b : BufferConfig} {g : Geometry} {fit : Prop} {reqs : List Request}
  {rs ws us vs cs : List (EventAt b)} {fs : List (ℕ × SNode (EventQueueEntry b))}
  {orphans extra : List (WbPtr b)} {d : Device b} {n : ℕ}

/-! ### Filling frames -/

/-- The rounds of `INCREASE_WB_SATA_POINTER`: the frames from `sata_write_ptr` on hold the sectors
of the write. -/
private theorem Device.fill_eq (fit : Prop) (reqs : List Request) (w : HostWrite)
    (hshape : d.firm.queues.Shape rs ws) (hwb : WbRep g n d.firm.wb orphans ws []) {k : ℕ}
    (hroom : (orphans ++ ownedFrames ws).length + k ≤ b.writeBufferFrameNb) :
    ∃ d' wb, (List.range k).foldl (fun d i => (d.note (.fillFrame d.firm.wb.sataWritePtr)).setWb
        (d.firm.wb.fill (w.sectorNb + i, w.nb))) d = d' ∧
      d'.firm = { d.firm with wb } ∧
      wb.sataWritePtr = Ring.advance d.firm.wb.sataWritePtr k ∧
      WbRep g n wb orphans ws (Ring.span d.firm.wb.sataWritePtr k) ∧
      (Ring.span d.firm.wb.sataWritePtr k).map wb.frames =
        (List.range k).map (fun j : ℕ => ⟨.valid, some (w.sectorNb + j, w.nb)⟩) ∧
      Device.Extends (Plain fit reqs) d d' := by
  induction k with
  | zero => exact ⟨d, d.firm.wb, rfl, rfl, (Ring.advance_zero _).symm, hwb, rfl, .of_eq rfl⟩
  | succ k ih =>
    obtain ⟨d₁, wb, hd₁, hfirm, hsata, hrep, hmap, hlog⟩ := ih (by omega)
    have hlen : (orphans ++ (ownedFrames ws ++ Ring.span d.firm.wb.sataWritePtr k)).length <
        b.writeBufferFrameNb := by
      simp only [List.length_append, Ring.length_span] at hroom ⊢
      omega
    have hfree := hrep.sata_notMem hlen
    have hspan : Ring.span d.firm.wb.sataWritePtr (k + 1) =
        Ring.span d.firm.wb.sataWritePtr k ++ [wb.sataWritePtr] := by
      rw [Ring.span_add, hsata]
      simp [Ring.span]
    have hwb₁ : d₁.firm.wb = wb := by rw [hfirm]
    have hcall : CallOk fit reqs ⟨.fillFrame d₁.firm.wb.sataWritePtr, d₁.firm⟩ := by
      rw [hfirm]
      exact ⟨rs, ws, hshape, hrep.zero _ hfree⟩
    set d₂ := (d₁.note (.fillFrame d₁.firm.wb.sataWritePtr)).setWb
      (d₁.firm.wb.fill (w.sectorNb + k, w.nb)) with hd₂
    have hlog₂ : Device.Extends (Plain fit reqs) d₁ d₂ :=
      .trans (.note ⟨hcall, rfl⟩) (.of_eq rfl)
    refine ⟨d₂, wb.fill (w.sectorNb + k, w.nb), ?_, ?_, ?_, ?_, ?_, hlog.trans hlog₂⟩
    · rw [List.range_succ, List.foldl_append, hd₁]
      rfl
    · rw [hd₂, Device.setWb, Device.note, hwb₁, hfirm]
    · rw [WriteBuffer.fill, hsata, Ring.next_eq_advance, Ring.advance_advance]
    · rw [hspan]
      exact hrep.fill hlen _
    · have hold : (Ring.span d.firm.wb.sataWritePtr k).map
          (wb.fill (w.sectorNb + k, w.nb)).frames =
          (Ring.span d.firm.wb.sataWritePtr k).map wb.frames := by
        refine List.map_congr_left fun p hp => Function.update_of_ne ?_ _ _
        rintro rfl
        exact hfree (List.mem_append_right _ (List.mem_append_right _ hp))
      rw [hspan, List.map_append, hold, hmap, List.range_succ, List.map_append]
      simp [WriteBuffer.fill]

/-- **`WRITE_DATA_TO_BUFFER`** with enough room. -/
theorem Core.writeDataToBuffer (fit : Prop) (w : HostWrite)
    (h : Core g reqs d.firm rs ws cs fs orphans)
    (hroom : (w.length : ℤ) ≤ d.firm.wb.emptyWriteBufferFrame) :
    ∃ wb, (d.writeDataToBuffer w).firm = { d.firm with wb } ∧
      WbRep g (ssdWrites reqs).length wb orphans ws (Ring.span d.firm.wb.sataWritePtr w.length) ∧
      (Ring.span d.firm.wb.sataWritePtr w.length).map wb.frames = w.filled ∧
      Device.Extends (Plain fit reqs) d (d.writeDataToBuffer w) := by
  have hempty := h.wb.empty
  rw [List.append_nil] at hempty
  have hlt := b.writeBufferFrameNb_lt
  have hlen : toI32 (w.length : ℤ) = w.length := toI32_of_bounds (by omega) (by omega)
  obtain ⟨d', wb, hd', hfirm, -, hrep, hmap, hlog⟩ :=
    Device.fill_eq (k := w.length) fit reqs w h.queues.toShape h.wb (by omega)
  rw [Device.writeDataToBuffer, hlen, Int.toNat_natCast, hd']
  exact ⟨wb, hfirm, hrep, hmap, hlog⟩

/-! ### Invalidating covered writes -/

/-- The event after a new write has been compared with it: one that is covered becomes invalid. -/
def EventQueueEntry.overwrittenBy (sectorNb : ℤ) (length : ℕ) (e : EventQueueEntry b) :
    EventQueueEntry b :=
  if e.valid ∧ checkOverwrite e sectorNb length = .success then { e with valid := false } else e

/-- The pending writes after a new write has been compared with them. -/
def overwriteAll (sectorNb : ℤ) (length : ℕ) (ws : List (EventAt b)) : List (EventAt b) :=
  ws.map fun w => (w.1, w.2.overwrittenBy sectorNb length)

@[simp] theorem overwriteAll_nil (sectorNb : ℤ) (length : ℕ) :
    overwriteAll sectorNb length ([] : List (EventAt b)) = [] := rfl

@[simp] theorem overwriteAll_cons (sectorNb : ℤ) (length : ℕ) (w : EventAt b)
    (ws : List (EventAt b)) :
    overwriteAll sectorNb length (w :: ws) =
      (w.1, w.2.overwrittenBy sectorNb length) :: overwriteAll sectorNb length ws := rfl

/-- Invalidating one pending write: its frames are marked and no others. -/
private theorem Device.overwrite_eq (fit : Prop) (reqs : List Request) {a : ℕ}
    {e : EventQueueEntry b} (hq : d.firm.queues.Rep rs (us ++ (a, e) :: vs) cs fs)
    (hwb : WbRep g n d.firm.wb orphans (us ++ (a, e) :: vs) extra) (hv : e.valid = true) :
    ∃ d' wb, (d.setQueues (d.firm.queues.modify a fun e =>
        { e with valid := false })).updateWbValidArray a e .invalid = .ok d' ∧
      d'.firm = { d.firm with
        queues := d.firm.queues.modify a fun e => { e with valid := false }
        wb } ∧
      d'.firm.queues.Rep rs (us ++ (a, { e with valid := false }) :: vs) cs fs ∧
      WbRep g n wb orphans (us ++ (a, { e with valid := false }) :: vs) extra ∧
      (∀ p ∈ extra, wb.frames p = d.firm.wb.frames p) ∧
      Device.Extends (Plain fit reqs) d d' := by
  obtain ⟨p, hbuf, -, -, hsep⟩ := hwb.segment
  obtain ⟨hrun, hwb'⟩ := hwb.invalidate hv hbuf
  have hkeep : ∀ q, q ∉ e.frames →
      Ring.rewrite Frame.isValid (Frame.set .invalid) e.frames d.firm.wb.frames q =
        d.firm.wb.frames q := fun q hq => Ring.rewrite_of_notMem hq
  have hq' : (d.firm.queues.modify a fun e => { e with valid := false }).Rep rs
      (us ++ (a, { e with valid := false }) :: vs) cs fs :=
    hq.modify_write (hq.writes (a, e) (by simp))
  set d₁ := d.setQueues (d.firm.queues.modify a fun e => { e with valid := false }) with hd₁
  have hrun₁ : d₁.firm.wb.updateWbValidArray p e.length .invalid = _ := hrun
  have hshape₁ : d₁.firm.queues.Shape rs _ := hq'.toShape
  obtain ⟨d', hd', hfirm, hlog⟩ :=
    wbLoop_eq (d := d₁) fit reqs .updateWbValidArray (some a) hrun₁ hshape₁ <| by
      intro q hchanged w hw hne hqw
      have hqe : q ∈ e.frames := by
        by_contra hqe
        exact hchanged (hkeep q hqe)
      have hcases : w = (a, { e with valid := false }) ∨ w ∈ us ++ vs := by
        simp only [List.mem_append, List.mem_cons] at hw ⊢
        tauto
      rcases hcases with rfl | hw
      · exact hne rfl
      · exact (hsep q hqe).2.2 w hw hqw
  refine ⟨d', _, ?_, hfirm, ?_, hwb', fun q hqx => hkeep q fun hqe => (hsep q hqe).2.1 hqx,
    .trans (.of_eq rfl) hlog⟩
  · dsimp only at hbuf
    rw [Device.updateWbValidArray, hbuf]
    exact hd'
  · rw [hfirm]
    exact hq'

/-- **The loop over the pending writes** invalidates those that the new write covers. -/
theorem Device.overwriteLoop_eq (fit : Prop) (reqs : List Request) (sectorNb : ℤ) (length : ℕ)
    {fuel : ℕ} {p : Option ℕ} (hq : d.firm.queues.Rep rs (us ++ vs) cs fs)
    (hseg : SSeg d.firm.queues.heap p vs none)
    (hwb : WbRep g n d.firm.wb orphans (us ++ vs) extra) (hfuel : vs.length ≤ fuel) :
    ∃ d' q wb, d.overwriteLoop sectorNb length fuel p = .ok d' ∧
      d'.firm = { d.firm with queues := q, wb } ∧
      q.Rep rs (us ++ overwriteAll sectorNb length vs) cs fs ∧
      WbRep g n wb orphans (us ++ overwriteAll sectorNb length vs) extra ∧
      (∀ p ∈ extra, wb.frames p = d.firm.wb.frames p) ∧
      Device.Extends (Plain fit reqs) d d' := by
  induction vs generalizing us p fuel d with
  | nil =>
    obtain rfl : p = none := hseg
    refine ⟨d, _, _, ?_, rfl, hq, hwb, fun _ _ => rfl, .of_eq rfl⟩
    cases fuel <;> rfl
  | cons v vs ih =>
    obtain ⟨a, e⟩ := v
    obtain ⟨fuel, rfl⟩ : ∃ k, fuel = k + 1 := ⟨fuel - 1, by simp at hfuel; omega⟩
    have hnd := hseg.nodup
    obtain ⟨rfl, m, hcell, hrest⟩ := hseg
    have hfuel' : vs.length ≤ fuel := by simpa using hfuel
    rw [overwriteLoop, EventQueues.deref_eq hcell, overwriteAll_cons]
    dsimp only [EventQueueEntry.overwrittenBy]
    simp only [ok_bind]
    by_cases hhit : e.valid ∧ checkOverwrite e sectorNb length = .success
    · obtain ⟨d₁, wb₁, hd₁, hfirm₁, hq₁, hwb₁, hextra₁, hlog₁⟩ :=
        Device.overwrite_eq fit reqs hq hwb hhit.1
      rw [List.append_cons] at hq₁
      have hrest₁ : SSeg d₁.firm.queues.heap m vs none := by
        rw [hfirm₁]
        refine hrest.frame fun x hx => Heap.modify_cell_of_ne _ _ ?_
        exact ne_of_mem_of_not_mem hx (List.nodup_cons.mp hnd).1
      have hwb₁' : WbRep g n d₁.firm.wb orphans (us ++ [(a, { e with valid := false })] ++ vs)
          extra := by
        rw [hfirm₁, ← List.append_cons]
        exact hwb₁
      obtain ⟨d', q, wb, hd', hfirm', hq', hwb', hextra', hlog'⟩ := ih hq₁ hrest₁ hwb₁' hfuel'
      rw [← List.append_cons] at hq' hwb'
      simp only [if_pos hhit, hd₁]
      refine ⟨d', q, wb, hd', ?_, hq', hwb', fun x hx => ?_, hlog₁.trans hlog'⟩
      · rw [hfirm', hfirm₁]
      · rw [hextra' x hx, hfirm₁]
        exact hextra₁ x hx
    · rw [List.append_cons] at hq hwb
      obtain ⟨d', q, wb, hd', hfirm', hq', hwb', hextra', hlog'⟩ := ih hq hrest hwb hfuel'
      rw [← List.append_cons] at hq' hwb'
      simp only [if_neg hhit]
      exact ⟨d', q, wb, hd', hfirm', hq', hwb', hextra', hlog'⟩

/-! ### Placing the new write -/

/-- A valid pending write stores the newest stamps of the writes it has merged. -/
private theorem PendingWrite.stamps_eq {f : WbPtr b → Frame} {e : EventQueueEntry b}
    (h : PendingWrite g n f e) (hv : e.valid = true) : e.stamps = lastStamp e.merged := by
  funext x
  rw [EventQueueEntry.stamps]
  by_cases hx : Covers e.sectorNb e.length x
  · rw [if_pos ⟨hv, hx⟩]
  · rw [if_neg fun hx' => hx hx'.2]
    rw [h.covered x, Option.not_isSome_iff_eq_none] at hx
    exact hx.symm

/-- The new write `w` has found its place: the pending writes `ws'` are `ws` with it on top. -/
structure OnTop (g : Geometry) (n : ℕ) (w : HostWrite) (s s' : Firm b)
    (rs ws ws' cs : List (EventAt b)) (fs : List (ℕ × SNode (EventQueueEntry b)))
    (orphans : List (WbPtr b)) : Prop where
  queues : s'.queues.Rep rs ws' cs fs
  wb : WbRep g (n + 1) s'.wb orphans ws' []
  value : ∀ base, Overlay.stack base (ws'.map fun w => w.2.stamps) =
    Overlay.layer w.stamps (Overlay.stack base (ws.map fun w => w.2.stamps))
  tail : ∃ us u, ws' = us ++ [u] ∧ u.2.valid = true
  rest : s' = { s with queues := s'.queues, wb := s'.wb }

/-- The new write becomes an event of its own. -/
private theorem Device.appendWrite_onTop {w : HostWrite} {e : EventQueueEntry b}
    (hq : d.firm.queues.Rep rs ws cs fs) (hwb : WbRep g n d.firm.wb orphans ws extra)
    (he : PendingWrite g (n + 1) d.firm.wb.frames e) (htype : e.ioType = .write)
    (hv : e.valid = true) (hmerged : e.merged = [w]) (hframes : e.frames = extra) :
    ∃ q ws', d.firm.queues.appendWrite e = .ok q ∧
      OnTop g n w d.firm (d.setQueues q).firm rs ws ws' cs fs orphans := by
  obtain ⟨q, hrun, hq'⟩ := hq.appendWrite htype
  have hstamps : e.stamps = w.stamps := by
    have hlast := lastStamp_concat [] w
    rw [List.nil_append, ← hmerged, ← he.stamps_eq hv] at hlast
    rw [hlast]
    funext x
    rw [Overlay.layer_apply, lastStamp_nil, Option.or_none]
  refine ⟨q, ws ++ [(d.firm.queues.heap.brk, e)], hrun, ?_⟩
  exact
    { queues := hq'
      wb := hwb.append (Nat.le_succ n) he hframes
      value := fun base => by
        rw [List.map_append, List.map_singleton, Overlay.stack_concat, hstamps]
      tail := ⟨ws, _, rfl, hv⟩
      rest := rfl }

/-- The new write becomes a part of the last event: of its frames those of the first `offset`
sectors are still `'V'`, and the new write starts behind them. -/
private theorem Device.mergeWrite_onTop {w : HostWrite} {a : ℕ} {e : EventQueueEntry b}
    {f : WbPtr b → Frame} {d₁ : Device b} {offset : ℕ} {grow : ℤ}
    (hq : d.firm.queues.Rep rs (us ++ [(a, e)]) cs fs)
    (hwb : WbRep g n d.firm.wb orphans (us ++ [(a, e)]) extra) (hv : e.valid = true)
    (hd₁ : d₁.firm = { d.firm with wb := { d.firm.wb with frames := f } })
    (hother : ∀ p, p ∉ e.frames → f p = d.firm.wb.frames p)
    (hlabel : ∀ p, (f p).label = (d.firm.wb.frames p).label)
    (hcells : ∀ p ∈ e.frames, (f p).valid = .valid ∨ (f p).valid = .invalid)
    (hnewest : ((e.frames.map f).filter Frame.isValid).map Frame.label = e.labels.take offset)
    (hextra : extra.map d.firm.wb.frames = w.filled) (hnb : w.nb = n)
    (hreq : InRange g w.sectorNb w.length) (hsector : w.sectorNb = e.sectorNb + offset)
    (hoff : offset ≤ e.length) (hend : e.length ≤ offset + w.length)
    (hgrow : toU32 (e.length + grow) = offset + w.length) :
    ∃ ws', OnTop g n w d.firm (d₁.mergeWrite a w extra grow).firm rs (us ++ [(a, e)]) ws' cs fs
      orphans := by
  have hw := hwb.events (a, e) (by simp)
  obtain ⟨-, -, -, -, hsep⟩ := hwb.segment
  have hextra' : extra.map f = w.filled := by
    rw [← hextra]
    exact List.map_congr_left fun p hp => hother p fun hpe => (hsep p hpe).2.1 hp
  have he' := hw.merge hv (fun p _ => hlabel p) hcells hnewest hoff hend hsector hreq hnb hextra'
  set e' : EventQueueEntry b := { e with
    length := offset + w.length
    merged := e.merged ++ [w]
    frames := e.frames ++ extra } with hmerged
  have hsame : ownedFrames (us ++ [(a, e')]) ++ [] = ownedFrames (us ++ [(a, e)]) ++ extra := by
    simp [hmerged]
  have hwb' := hwb.replace hother (Nat.le_succ n) he' hsame
  have hq' : (d.firm.queues.modify a fun e => { e with
      length := toU32 (e.length + grow)
      merged := e.merged ++ [w]
      frames := e.frames ++ extra }).Rep rs (us ++ [(a, e')]) cs fs := by
    rw [hmerged, ← hgrow]
    exact hq.modify_write (hq.writes (a, e) (by simp))
  have hfirm : (d₁.mergeWrite a w extra grow).firm = { d.firm with
      queues := d.firm.queues.modify a fun e => { e with
        length := toU32 (e.length + grow)
        merged := e.merged ++ [w]
        frames := e.frames ++ extra }
      wb := { d.firm.wb with frames := f } } := by
    rw [mergeWrite, setQueues, hd₁]
  refine ⟨us ++ [(a, e')], ?_⟩
  rw [hfirm]
  exact
    { queues := hq'
      wb := hwb'
      value := fun base => by
        rw [List.map_append, List.map_append, List.map_singleton, List.map_singleton,
          Overlay.stack_concat, Overlay.stack_concat, he'.stamps_eq hv, hw.stamps_eq hv,
          lastStamp_concat, Overlay.layer_assoc]
      tail := ⟨us, _, rfl, hv⟩
      rest := rfl }

/-- A write that `CHECK_SEQUENTIALITY` accepts starts where the event ends. -/
private theorem checkSequentiality_success {e : EventQueueEntry b} {w : HostWrite}
    (he : InRange g e.sectorNb e.length) (hw : InRange g w.sectorNb w.length)
    (h : checkSequentiality e w.sectorNb = .success) :
    e.valid = true ∧ w.sectorNb = e.sectorNb + e.length := by
  rw [checkSequentiality] at h
  split at h
  · next hcond =>
    have h0 := he.nonneg
    have h1 := he.le_int32
    have h2 := hw.nonneg
    have h3 := hw.le_int32
    have hend := toU32_of_nonneg (x := e.sectorNb + e.length) (by omega) (by omega)
    have hstart := toU32_of_nonneg (x := w.sectorNb) (by omega) (by omega)
    rw [hcond.2.2] at hend
    exact ⟨hcond.2.1, by omega⟩
  · exact absurd h (by simp)

/-- A write that `CHECK_IO_DEPENDENCY_FOR_WRITE` accepts starts inside the event and ends behind
it. -/
private theorem checkIoDependencyForWrite_success {e : EventQueueEntry b} {w : HostWrite}
    (he : InRange g e.sectorNb e.length) (hw : InRange g w.sectorNb w.length)
    (h : checkIoDependencyForWrite e w.sectorNb w.length = .success) :
    e.valid = true ∧ e.sectorNb < w.sectorNb ∧ w.sectorNb < e.sectorNb + e.length ∧
      e.sectorNb + e.length < w.sectorNb + w.length := by
  rw [checkIoDependencyForWrite] at h
  split at h
  · next hcond =>
    have h0 := he.nonneg
    have h1 := he.le_int32
    have h2 := hw.nonneg
    have h3 := hw.le_int32
    have h4 := he.pos
    have h5 := hw.pos
    have hend : toI32 (e.sectorNb + e.length - 1) = _ := toI32_of_bounds (by omega) (by omega)
    have hend' : toI32 (w.sectorNb + w.length - 1) = _ := toI32_of_bounds (by omega) (by omega)
    rw [hend, hend'] at hcond
    exact ⟨hcond.2.1, hcond.2.2.1, by omega, by omega⟩
  · exact absurd h (by simp)

/-- A sequential write is merged. -/
private theorem Device.mergeSequential_onTop {w : HostWrite} {a : ℕ} {e : EventQueueEntry b}
    (hq : d.firm.queues.Rep rs (us ++ [(a, e)]) cs fs)
    (hwb : WbRep g n d.firm.wb orphans (us ++ [(a, e)]) extra)
    (hextra : extra.map d.firm.wb.frames = w.filled) (hnb : w.nb = n)
    (hreq : InRange g w.sectorNb w.length)
    (hseq : checkSequentiality e w.sectorNb = .success) :
    ∃ ws', OnTop g n w d.firm (d.mergeWrite a w extra w.length).firm rs (us ++ [(a, e)]) ws' cs fs
      orphans := by
  have hw := hwb.events (a, e) (by simp)
  dsimp only at hw
  obtain ⟨hv, hsector⟩ := checkSequentiality_success hw.inRange hreq hseq
  have hgrow : toU32 (e.length + (w.length : ℤ)) = e.length + w.length := by
    have h0 := hw.inRange.nonneg
    have h1 := hreq.le_int32
    have := toU32_of_nonneg (x := e.length + (w.length : ℤ)) (by omega) (by omega)
    omega
  refine Device.mergeWrite_onTop hq hwb hv rfl (fun _ _ => rfl) (fun _ => rfl) (hw.cells hv) ?_
    hextra hnb hreq hsector le_rfl (Nat.le_add_right _ _) hgrow
  rw [hw.newest hv, List.take_of_length_le e.length_labels.le]

/-- A write that overlaps the rear of the last event is merged, after the frames it replaces have
been marked. -/
private theorem Device.mergeOverlap_onTop (fit : Prop) (reqs : List Request) {w : HostWrite} {a : ℕ}
    {e : EventQueueEntry b} {p : WbPtr b} (hq : d.firm.queues.Rep rs (us ++ [(a, e)]) cs fs)
    (hwb : WbRep g n d.firm.wb orphans (us ++ [(a, e)]) extra) (hbuf : e.buf = some (.wb p))
    (hextra : extra.map d.firm.wb.frames = w.filled) (hnb : w.nb = n)
    (hreq : InRange g w.sectorNb w.length)
    (hdep : checkIoDependencyForWrite e w.sectorNb w.length = .success) :
    ∃ d₁ ws', d.wbLoop .updateWbValidArrayPartial (some a) (·.updateWbValidArrayPartial p e.length
        .invalid (toI32 (e.sectorNb + e.length - w.sectorNb))) = .ok d₁ ∧
      OnTop g n w d.firm
        (d₁.mergeWrite a w extra (w.length - toI32 (e.sectorNb + e.length - w.sectorNb))).firm
        rs (us ++ [(a, e)]) ws' cs fs orphans ∧
      Device.Extends (Plain fit reqs) d d₁ := by
  have hw := hwb.events (a, e) (by simp)
  dsimp only at hw
  obtain ⟨hv, hstart, hinside, hbehind⟩ := checkIoDependencyForWrite_success hw.inRange hreq hdep
  have h0 := hw.inRange.nonneg
  have h1 := hw.inRange.le_int32
  have h2 := hreq.le_int32
  -- the first `offset` sectors of the event stay, the other `k` are replaced
  obtain ⟨offset, hoff⟩ := Int.eq_ofNat_of_zero_le (a := w.sectorNb - e.sectorNb) (by omega)
  obtain ⟨k, hk⟩ := Int.eq_ofNat_of_zero_le (a := e.sectorNb + e.length - w.sectorNb) (by omega)
  have hinvalid : toI32 (e.sectorNb + e.length - w.sectorNb) = k := by
    rw [hk]
    exact toI32_of_bounds (by omega) (by omega)
  have hgrow : toU32 (e.length + ((w.length : ℤ) - k)) = offset + w.length := by
    have := toU32_of_nonneg (x := e.length + ((w.length : ℤ) - k)) (by omega) (by omega)
    omega
  obtain ⟨f, hrun, hother, hlabel, hcells, hnewest⟩ :=
    hwb.markRear hv hbuf (show offset + k = e.length by omega)
  obtain ⟨-, -, -, -, hsep⟩ := hwb.segment
  obtain ⟨d₁, hd₁, hfirm, hlog⟩ :=
    wbLoop_eq fit reqs .updateWbValidArrayPartial (some a) hrun hq.toShape <| by
      intro q hchanged v hv hne hqv
      have hqe : q ∈ e.frames := by
        by_contra hqe
        exact hchanged (hother q hqe)
      rcases List.mem_append.mp hv with hv | hv
      · exact (hsep q hqe).2.2 v (by simp [hv]) hqv
      · exact hne (by rw [List.mem_singleton.mp hv])
  obtain ⟨ws', htop⟩ := Device.mergeWrite_onTop hq hwb hv hfirm hother hlabel hcells hnewest hextra
    hnb hreq (by omega) (by omega) (by omega) hgrow
  rw [hinvalid]
  exact ⟨d₁, ws', hd₁, htop, hlog⟩

/-- **The end of `ENQUEUE_WRITE`** puts the new write on top of the pending ones. -/
theorem Device.placeWrite_onTop (fit : Prop) (reqs : List Request) {w : HostWrite} {p : WbPtr b}
    (hq : d.firm.queues.Rep rs ws cs fs) (hwb : WbRep g n d.firm.wb orphans ws extra)
    (hextra : extra.map d.firm.wb.frames = w.filled) (hp : extra.head? = some p) (hnb : w.nb = n)
    (hreq : InRange g w.sectorNb w.length) :
    ∃ d' ws', d.placeWrite w p extra = .ok d' ∧
      OnTop g n w d.firm d'.firm rs ws ws' cs fs orphans ∧
      Device.Extends (Plain fit reqs) d d' := by
  have hnew := PendingWrite.new (f := d.firm.wb.frames) hreq hnb hextra d.firm.requestNb
  rw [hp, Option.map_some] at hnew
  obtain ⟨q, ws', hrun, htop⟩ := Device.appendWrite_onTop hq hwb hnew rfl rfl rfl rfl
  have happend : d.placeWrite w p extra = .ok (d.setQueues q) → ∃ d' ws',
      d.placeWrite w p extra = .ok d' ∧ OnTop g n w d.firm d'.firm rs ws ws' cs fs orphans ∧
      Device.Extends (Plain fit reqs) d d' :=
    fun h => ⟨d.setQueues q, ws', h, htop, .of_eq rfl⟩
  rcases List.eq_nil_or_concat' ws with rfl | ⟨us, ⟨a, e⟩, rfl⟩
  · -- no pending write: the tail is a read, or there is none
    refine happend ?_
    rcases List.eq_nil_or_concat' rs with rfl | ⟨us, ⟨a, e⟩, rfl⟩
    · rw [placeWrite, hq.tailEvent_nil]
      exact congrArg (Except.map d.setQueues) hrun
    · have htype : e.ioType = .read := hq.reads (a, e) (by simp)
      rw [placeWrite, hq.tailEvent_concat (List.append_nil _)]
      simp only [ok_bind, checkSequentiality, checkIoDependencyForWrite, htype,
        reduceCtorEq, false_and, if_false]
      exact congrArg (Except.map d.setQueues) hrun
  · have hw := hwb.events (a, e) (by simp)
    rw [placeWrite, hq.tailEvent_concat (List.append_assoc _ _ _).symm] at happend ⊢
    simp only [ok_bind] at happend ⊢
    by_cases hseq : checkSequentiality e w.sectorNb = .success
    · obtain ⟨ws', htop⟩ := Device.mergeSequential_onTop hq hwb hextra hnb hreq hseq
      rw [if_pos hseq]
      exact ⟨_, ws', rfl, htop, .of_eq rfl⟩
    by_cases hdep : checkIoDependencyForWrite e w.sectorNb w.length = .success
    · obtain ⟨p', hbuf, -⟩ := hwb.segment
      dsimp only at hbuf
      obtain ⟨d₁, ws', hd₁, htop, hlog⟩ :=
        Device.mergeOverlap_onTop fit reqs hq hwb hbuf hextra hnb hreq hdep
      rw [if_neg hseq, if_pos hdep]
      simp only [hbuf, hd₁]
      exact ⟨_, ws', rfl, htop, hlog.trans (.of_eq rfl)⟩
    · rw [if_neg hseq, if_neg hdep] at happend ⊢
      exact happend (congrArg (Except.map d.setQueues) hrun)

/-! ### The whole of `ENQUEUE_WRITE` -/

/-- A covered event stores nothing that the new write does not. -/
private theorem PendingWrite.overwrittenBy_stamps {f : WbPtr b → Frame} {e : EventQueueEntry b}
    {w : HostWrite} (h : PendingWrite g n f e) (hreq : InRange g w.sectorNb w.length) (x : ℤ) :
    (e.overwrittenBy w.sectorNb w.length).stamps x = e.stamps x ∨
      ((e.overwrittenBy w.sectorNb w.length).stamps x = none ∧ (w.stamps x).isSome) := by
  rw [EventQueueEntry.overwrittenBy]
  split
  · next hcond =>
    have hdead : ({ e with valid := false } : EventQueueEntry b).stamps x = none :=
      if_neg fun hx => absurd hx.1 (by simp)
    by_cases hx : Covers e.sectorNb e.length x
    · refine .inr ⟨hdead, HostWrite.stamps_isSome.mpr ?_⟩
      obtain ⟨-, hcheck⟩ := hcond
      rw [checkOverwrite] at hcheck
      split at hcheck
      · next hcover =>
        have h0 := h.inRange.nonneg
        have h1 := h.inRange.le_int32
        have h2 := hreq.nonneg
        have h3 := hreq.le_int32
        have hend := toU32_of_nonneg (x := e.sectorNb + e.length) (by omega) (by omega)
        have hend' := toU32_of_nonneg (x := w.sectorNb + w.length) (by omega) (by omega)
        simp only [Covers.iff] at hx ⊢
        omega
      · exact absurd hcheck (by simp)
    · left
      rw [hdead, EventQueueEntry.stamps, if_neg fun hx' => hx hx'.2]
  · exact .inl rfl

/-- Invalidating covered writes loses nothing once the new write is on top. -/
private theorem WbRep.overwriteAll_value {s : WriteBuffer b} {w : HostWrite}
    (h : WbRep g n s orphans ws extra) (hreq : InRange g w.sectorNb w.length)
    (base : ℤ → Option ℕ) :
    Overlay.layer w.stamps (Overlay.stack base
        ((overwriteAll w.sectorNb w.length ws).map fun w => w.2.stamps)) =
      Overlay.layer w.stamps (Overlay.stack base (ws.map fun w => w.2.stamps)) := by
  rw [overwriteAll, List.map_map]
  exact Overlay.layer_stack_congr fun v hv x => (h.events v hv).overwrittenBy_stamps hreq x

/-- `ENQUEUE_WRITE` as a sequence of its parts. -/
theorem Device.enqueueWrite_eq {sectorNb : ℤ} {length : ℕ} {w : HostWrite} {d₁ d₂ : Device b}
    {p : Option ℕ} (hw : w = ⟨d.firm.writeNb, sectorNb, length⟩)
    (hd₁ : d.writeDataToBuffer w = d₁) (hp : d₁.firm.queues.firstWrite = .ok p)
    (hd₂ : d₁.overwriteLoop sectorNb length d₁.firm.queues.heap.brk p = .ok d₂) :
    d.enqueueWrite sectorNb length = d₂.placeWrite w d.firm.wb.sataWritePtr
      (Ring.span d.firm.wb.sataWritePtr (toI32 length).toNat) := by
  rw [Device.enqueueWrite, ← hw, hd₁, hp]
  simp only [ok_bind, hd₂]

/-- **`ENQUEUE_WRITE`** with enough room. -/
theorem Core.enqueueWrite (fit : Prop) {sectorNb : ℤ} {length : ℕ}
    (h : Core g reqs d.firm rs ws cs fs orphans)
    (hroom : (length : ℤ) ≤ d.firm.wb.emptyWriteBufferFrame) (hreq : InRange g sectorNb length)
    (hnb : d.firm.writeNb = (ssdWrites reqs).length) :
    ∃ d' ws', d.enqueueWrite sectorNb length = .ok d' ∧
      Core g (reqs ++ [.write sectorNb length]) d'.firm rs ws' cs fs orphans ∧
      d'.firm = { d.firm with queues := d'.firm.queues, wb := d'.firm.wb } ∧
      Device.Extends (Plain fit reqs) d d' := by
  set w : HostWrite := ⟨d.firm.writeNb, sectorNb, length⟩ with hw
  obtain ⟨wb₁, hfirm₁, hwb₁, hmap₁, hlog₁⟩ := h.writeDataToBuffer fit w hroom
  generalize hd₁ : d.writeDataToBuffer w = d₁ at hfirm₁ hlog₁
  set extra := Ring.span d.firm.wb.sataWritePtr length with hextra
  have hq₁ : d₁.firm.queues.Rep rs ([] ++ ws) cs fs := by
    rw [hfirm₁]
    exact h.queues
  have hwb₁' : WbRep g (ssdWrites reqs).length d₁.firm.wb orphans ([] ++ ws) extra := by
    rw [hfirm₁]
    exact hwb₁
  obtain ⟨p, hp, hseg⟩ := hq₁.firstWrite
  obtain ⟨d₂, q₂, wb₂, hd₂, hfirm₂, hq₂, hwb₂, hkeep₂, hlog₂⟩ :=
    Device.overwriteLoop_eq fit reqs sectorNb length hq₁ hseg hwb₁'
      (EventQueues.length_le_brk hseg)
  have hq₂' : d₂.firm.queues.Rep rs (overwriteAll sectorNb length ws) cs fs := by
    rw [hfirm₂]
    exact hq₂
  have hwb₂' : WbRep g (ssdWrites reqs).length d₂.firm.wb orphans
      (overwriteAll sectorNb length ws) extra := by
    rw [hfirm₂]
    exact hwb₂
  have hmap₂ : extra.map d₂.firm.wb.frames = w.filled := by
    rw [← hmap₁, hfirm₂]
    refine List.map_congr_left fun q hq => (hkeep₂ q hq).trans ?_
    rw [hfirm₁]
  have hhead : extra.head? = some d.firm.wb.sataWritePtr := by
    obtain ⟨k, rfl⟩ : ∃ k, length = k + 1 := ⟨length - 1, by have := hreq.pos; omega⟩
    rw [hextra, Ring.span_succ]
    rfl
  obtain ⟨d₃, ws', hd₃, htop, hlog₃⟩ :=
    Device.placeWrite_onTop fit reqs hq₂' hwb₂' hmap₂ hhead hnb hreq
  have hrest : d₃.firm = { d.firm with queues := d₃.firm.queues, wb := d₃.firm.wb } := by
    rw [htop.rest, hfirm₂, hfirm₁]
  refine ⟨d₃, ws', ?_, ?_, hrest, hlog₁.trans (hlog₂.trans hlog₃)⟩
  · have hlt := b.writeBufferFrameNb_lt
    have hempty := h.wb.empty
    have hlen : toI32 (length : ℤ) = length := toI32_of_bounds (by omega) (by omega)
    rw [Device.enqueueWrite_eq hw hd₁ hp hd₂, hlen, Int.toNat_natCast]
    exact hd₃
  · have hcount : (ssdWrites (reqs ++ [.write sectorNb length])).length =
        (ssdWrites reqs).length + 1 := by
      rw [ssdWrites_write, List.length_append, List.length_singleton]
    have hstore : d₃.firm.store = d.firm.store := by rw [hrest]
    obtain ⟨us, u, hws', hu⟩ := htop.tail
    refine
      { queues := htop.queues
        wb := hcount ▸ htop.wb
        value := ?_
        reads := fun r hr => hstore ▸ (h.reads r hr).mono _
        tail := ?_
        nil := ?_ }
    · rw [hstore, htop.value, h.wb.overwriteAll_value hreq, h.value, ssdWrites_write,
        lastStamp_concat, hw, hnb]
    · rw [hws']
      simpa using hu
    · rw [hws']
      simp

end Vssim
