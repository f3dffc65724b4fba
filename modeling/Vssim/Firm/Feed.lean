import Vssim.Firm.Ordering
import Vssim.Firm.Threads

/-!
# What the firmware gives to the FTL

`FTL_WRITE` takes one frame of the write buffer for every sector, from `ftl_write_ptr` on and
leaving out the frames that are not `'V'`. `fed` is the sector array that these frames make, call by
call; a frame is represented by its label, the sector and the number of the `SSD_WRITE` that filled
it.

`Fed` says that the array is what the stamps of the firmware claim: every sector that has been
handed to the FTL was handed over in the frame that the newest `SSD_WRITE` of it has filled. Only
`DEQUEUE_IO` of a write needs an argument, from the representation of the write buffer
(`WbRep.taken_labels`); everything else the firmware does leaves both sides alone (`Unfed`).
-/

namespace Vssim

open LinkedHeap

variable {b : BufferConfig} {g : Geometry} {newPage : ℕ → Ret} {reqs : List Request}
  {rs ws cs : List (EventAt b)} {fs : List (ℕ × SNode (EventQueueEntry b))}
  {orphans : List (WbPtr b)} {w : EventAt b} {d d' d'' : Device b}

/-! ### The frames that `FTL_WRITE` takes -/

/-- The call as a request to the FTL. -/
def FirmCall.toFtl : FirmCall b → Option Request
  | .ftlRead _ sectorNb length => some (.read sectorNb length)
  | .ftlWrite sectorNb length => some (.write sectorNb length)
  | _ => none

/-- The first `n` frames with `'V'` from `ftl_write_ptr` on. -/
def WriteBuffer.taken (n : ℕ) (s : WriteBuffer b) : List (WbPtr b) :=
  ((Ring.span s.ftlWritePtr b.writeBufferFrameNb).filter fun p => (s.frames p).isValid).take n

/-- The frame that `FTL_WRITE` of the sectors from `sectorNb` on takes for the sector `x`. -/
def FirmEvent.data (ev : FirmEvent b) (sectorNb : ℤ) (length : ℕ) (x : ℤ) : Option (ℤ × ℕ) :=
  ((ev.firm.wb.taken length).map fun p => (ev.firm.wb.frames p).label).getD
    (x - sectorNb).toNat none

/-- The sector array after a call. -/
def FirmEvent.feed (A : ℤ → Option (ℤ × ℕ)) (ev : FirmEvent b) : ℤ → Option (ℤ × ℕ) :=
  match ev.call with
  | .ftlWrite sectorNb length =>
    fun x => if Covers sectorNb length x then ev.data sectorNb length x else A x
  | _ => A

/-- The sector array that the calls of a log make. -/
def fed (log : List (FirmEvent b)) : ℤ → Option (ℤ × ℕ) :=
  log.foldl FirmEvent.feed fun _ => none

/-- The labels that stamps stand for. -/
def asLabels (store : ℤ → Option ℕ) (x : ℤ) : Option (ℤ × ℕ) := (store x).map fun nb => (x, nb)

/-- The frames of the first pending write are the ones that `FTL_WRITE` takes for it. -/
theorem WbRep.taken_labels {n : ℕ} {s : WriteBuffer b}
    (h : WbRep g n s orphans (w :: ws) []) (hv : w.2.valid = true) :
    ((s.taken w.2.length).map fun p => (s.frames p).label) = w.2.labels := by
  have hw := h.events w (by simp)
  have hspan := h.span
  have hle := h.le
  obtain ⟨k, hk⟩ := Nat.exists_eq_add_of_le hle
  -- the ring from `ftl_write_ptr` on: orphans, the frames of the event, then others
  have hring : ∃ rest, Ring.span s.ftlWritePtr b.writeBufferFrameNb =
      orphans ++ (w.2.frames ++ rest) := by
    refine ⟨ownedFrames ws ++ Ring.span (Ring.advance s.writeLimitPtr
      (orphans ++ (ownedFrames (w :: ws) ++ [])).length) k, ?_⟩
    have hadd := Ring.span_add s.writeLimitPtr (orphans ++ (ownedFrames (w :: ws) ++ [])).length k
    rw [← hk, ← hspan] at hadd
    rw [h.ftl, hadd]
    simp
  obtain ⟨rest, hring⟩ := hring
  have horphans : (orphans.filter fun p => (s.frames p).isValid) = [] := by
    refine List.filter_eq_nil_iff.mpr fun p hp => ?_
    simp [Frame.isValid, h.orphan p hp]
  have hnewest : ((w.2.frames.filter fun p => (s.frames p).isValid).map
      fun p => (s.frames p).label) = w.2.labels := by
    have hnewest := hw.newest hv
    rw [List.filter_map, List.map_map] at hnewest
    exact hnewest
  have hlen : (w.2.frames.filter fun p => (s.frames p).isValid).length = w.2.length := by
    rw [← w.2.length_labels, ← hnewest, List.length_map]
  rw [WriteBuffer.taken, hring, List.filter_append, List.filter_append, horphans, List.nil_append,
    ← hlen, List.take_left, hnewest]

/-- The frame that `FTL_WRITE` takes for a sector of the first pending write. -/
private theorem WbRep.data_eq {n : ℕ} (h : WbRep g n d.firm.wb orphans (w :: ws) [])
    (hv : w.2.valid = true) (x : ℤ) (hx : Covers w.2.sectorNb w.2.length x) :
    ∃ nb, lastStamp w.2.merged x = some nb ∧
      FirmEvent.data ⟨.ftlWrite w.2.sectorNb w.2.length, d.firm⟩ w.2.sectorNb w.2.length x =
        some (x, nb) := by
  have hw := h.events w (by simp)
  obtain ⟨j, hj, rfl⟩ : ∃ j < w.2.length, x = w.2.sectorNb + (j : ℤ) := by
    obtain ⟨h₁, h₂⟩ := hx
    exact ⟨(x - w.2.sectorNb).toNat, by omega, by omega⟩
  obtain ⟨nb, hnb⟩ := Option.isSome_iff_exists.mp ((hw.covered _).mp hx)
  have hidx : (w.2.sectorNb + (j : ℤ) - w.2.sectorNb).toNat = j := by omega
  refine ⟨nb, hnb, ?_⟩
  rw [FirmEvent.data, h.taken_labels hv, hidx, EventQueueEntry.labels]
  simp [hj, hnb]

/-! ### Calls that are none of the FTL's -/

/-- The call is none of the FTL's. -/
def FirmEvent.Internal (ev : FirmEvent b) : Prop := ev.call.toFtl = none

/-- A step that calls no function of the FTL. -/
structure Unfed (d d' : Device b) : Prop where
  log : Device.Extends FirmEvent.Internal d d'
  store : d'.firm.store = d.firm.store

namespace Unfed

private theorem refl (d : Device b) : Unfed d d := ⟨.of_eq rfl, rfl⟩

private theorem trans (h : Unfed d d') (h' : Unfed d' d'') : Unfed d d'' :=
  ⟨h.log.trans h'.log, h'.store.trans h.store⟩

private theorem note (h : Unfed d d') {call : FirmCall b} (hcall : call.toFtl = none) :
    Unfed d (d'.note call) :=
  ⟨h.log.trans (.note hcall), h.store⟩

private theorem setQueues (h : Unfed d d') (queues : EventQueues b) :
    Unfed d (d'.setQueues queues) :=
  ⟨h.log.trans (.of_eq rfl), h.store⟩

private theorem setWb (h : Unfed d d') (wb : WriteBuffer b) : Unfed d (d'.setWb wb) :=
  ⟨h.log.trans (.of_eq rfl), h.store⟩

private theorem setRb (h : Unfed d d') (rb : ReadBuffer b) : Unfed d (d'.setRb rb) :=
  ⟨h.log.trans (.of_eq rfl), h.store⟩

/-- Two parts of a step. -/
private theorem bind {x : Except Fault (Device b)} {f : Device b → Except Fault (Device b)}
    (hx : Ensures x (Unfed d)) (hf : ∀ d', Ensures (f d') (Unfed d')) :
    Ensures (x >>= f) (Unfed d) :=
  hx.bind fun d' h => (hf d').mono fun _ => h.trans

end Unfed

namespace Device

private theorem wbLoop_unfed {loop : WbLoop} {owner : Option ℕ}
    {run : WriteBuffer b → Except Fault (WriteBuffer b)} :
    Ensures (d.wbLoop loop owner run) (Unfed d) :=
  .map_any fun wb => ((Unfed.refl d).note rfl).setWb wb

private theorem updateWbValidArray_unfed {a : ℕ} {e : EventQueueEntry b} {v : WbValid} :
    Ensures (d.updateWbValidArray a e v) (Unfed d) := by
  rw [updateWbValidArray]
  split
  · exact .ok ((Unfed.refl d).note rfl)
  · exact wbLoop_unfed
  · exact .error

private theorem overwriteLoop_unfed {sectorNb : ℤ} {length fuel : ℕ} {p : Option ℕ} :
    Ensures (d.overwriteLoop sectorNb length fuel p) (Unfed d) := by
  induction fuel generalizing p d with
  | zero =>
    cases p with
    | none => exact .ok (.refl d)
    | some a => exact .error
  | succ fuel ih =>
    cases p with
    | none => exact .ok (.refl d)
    | some a =>
      rw [overwriteLoop]
      refine .bind_any fun c => ?_
      split
      · refine Unfed.bind ?_ fun d' => ih
        exact updateWbValidArray_unfed.mono fun _ => ((Unfed.refl d).setQueues _).trans
      · exact Unfed.bind (.ok (.refl d)) fun d' => ih

private theorem placeWrite_unfed {w : HostWrite} {pBuf : WbPtr b} {frames : List (WbPtr b)} :
    Ensures (d.placeWrite w pBuf frames) (Unfed d) := by
  rw [placeWrite]
  refine .bind_any fun t => ?_
  split
  · exact .map_any fun q => (Unfed.refl d).setQueues q
  · split
    · exact .ok ((Unfed.refl d).setQueues _)
    · split
      · split
        · exact Unfed.bind wbLoop_unfed fun d' => .ok ((Unfed.refl d').setQueues _)
        · exact .error
      · exact .map_any fun q => (Unfed.refl d).setQueues q

private theorem writeDataToBuffer_unfed {w : HostWrite} : Unfed d (d.writeDataToBuffer w) := by
  rw [writeDataToBuffer]
  induction List.range (toI32 w.length).toNat generalizing d with
  | nil => exact .refl d
  | cons i is ih => exact (((Unfed.refl d).note rfl).setWb _).trans ih

private theorem enqueueWrite_unfed {sectorNb : ℤ} {length : ℕ} :
    Ensures (d.enqueueWrite sectorNb length) (Unfed d) := by
  rw [enqueueWrite]
  refine .bind_any fun p => ?_
  refine Unfed.bind ?_ fun d' => placeWrite_unfed
  exact overwriteLoop_unfed.mono fun _ => (writeDataToBuffer_unfed).trans

private theorem readDataFromBufferToHost_unfed {e : EventQueueEntry b} :
    Unfed d (d.readDataFromBufferToHost e) := by
  rw [readDataFromBufferToHost]
  have hnote : Unfed d (d.note (.toHost e)) := (Unfed.refl d).note rfl
  split
  · exact hnote.setRb _
  · exact (hnote.note rfl).setRb _

private theorem dequeueCompletedReadLoop_unfed {fuel : ℕ} {p : Option ℕ} :
    Ensures (d.dequeueCompletedReadLoop fuel p) (Unfed d) := by
  induction fuel generalizing p d with
  | zero =>
    cases p with
    | none => exact .ok (.refl d)
    | some a => exact .error
  | succ fuel ih =>
    cases p with
    | none => exact .ok (.refl d)
    | some a =>
      rw [dequeueCompletedReadLoop]
      refine .bind_any fun c => ?_
      exact ih.mono fun _ => (readDataFromBufferToHost_unfed.setQueues _).trans

private theorem dequeueCompletedRead_unfed : Ensures d.dequeueCompletedRead (Unfed d) := by
  rw [dequeueCompletedRead]
  dsimp only
  split
  · exact .ok (.refl d)
  · refine Unfed.bind dequeueCompletedReadLoop_unfed fun d' => ?_
    split
    · exact .ok ((Unfed.refl d').note rfl)
    · exact .ok ((Unfed.refl d').setQueues _)

private theorem copyLoop_unfed {requestNb : ℕ} {sectorNb : ℤ} {fuel n k : ℕ} {src : WbPtr b}
    {dst : RbPtr b} : Ensures (d.copyLoop requestNb sectorNb fuel n k src dst) (Unfed d) := by
  induction fuel generalizing n k src dst d with
  | zero =>
    cases n with
    | zero => exact .ok (.refl d)
    | succ n => exact .error
  | succ fuel ih =>
    cases n with
    | zero => exact .ok (.refl d)
    | succ n =>
      rw [copyLoop]
      split
      · exact ih
      · exact ih.mono fun _ => (((Unfed.refl d).note rfl).setRb _).trans

private theorem copyDataToReadBuffer_unfed {a : ℕ} {src : EventQueueEntry b} :
    Ensures (d.copyDataToReadBuffer a src) (Unfed d) := by
  rw [copyDataToReadBuffer]
  refine .bind_any fun c => ?_
  split
  · refine .bind_any fun r => ?_
    exact Unfed.bind copyLoop_unfed fun d' => .map_any fun rb => (Unfed.refl d').setRb rb
  · exact .error

/-- The page loop of `_FTL_WRITE` makes no further calls of the FTL. -/
private theorem ftlWriteLoop_log {merged : List HostWrite} {rounds : ℕ} {c : Cursor} :
    Ensures (d.ftlWriteLoop g newPage merged rounds c)
      fun r => Extends FirmEvent.Internal d r.2 := by
  induction rounds generalizing c d with
  | zero =>
    rw [ftlWriteLoop]
    split
    · exact .error
    · exact .ok (.of_eq rfl)
  | succ rounds ih =>
    rw [ftlWriteLoop]
    split
    · refine wbLoop_unfed.bind fun d₁ h₁ => ?_
      dsimp only
      split
      · exact .ok (h₁.log.trans (.trans (.of_eq rfl) (.note rfl)))
      · exact ih.mono fun r hr => h₁.log.trans (.trans (.of_eq rfl) hr)
    · exact .ok (.of_eq rfl)

end Device

/-! ### The sector array of the FTL -/

/-- A call of the FTL lies within the device, and a write has a frame for each of its sectors. -/
structure FirmEvent.Complete (g : Geometry) (ev : FirmEvent b) : Prop where
  inRange : ∀ req, ev.call.toFtl = some req → req.InRange g
  data : ∀ sectorNb length, ev.call = .ftlWrite sectorNb length →
    ∀ x, Covers sectorNb length x → (ev.data sectorNb length x).isSome

private theorem FirmEvent.Internal.complete {ev : FirmEvent b} (h : ev.Internal) :
    ev.Complete g where
  inRange req hreq := by
    rw [h] at hreq
    cases hreq
  data sectorNb length hcall := by
    rw [Internal, hcall] at h
    cases h

/-- The FTL has been given what the stamps say, now and whenever it has been asked to read. -/
structure Fed (g : Geometry) (d : Device b) : Prop where
  store : fed d.log = asLabels d.firm.store
  calls : ∀ ev ∈ d.log, ev.Complete g
  reads : ∀ (i : ℕ) (ev : FirmEvent b), d.log[i]? = some ev →
    ∀ requestNb sectorNb length, ev.call = .ftlRead requestNb sectorNb length →
      fed (d.log.take i) = asLabels ev.firm.store

theorem fed_append (log evs : List (FirmEvent b)) :
    fed (log ++ evs) = evs.foldl FirmEvent.feed (fed log) := by
  rw [fed, List.foldl_append, fed]

/-- Calls that are none of the FTL's leave the sector array. -/
private theorem fed_append_of_none (log : List (FirmEvent b)) {evs : List (FirmEvent b)}
    (hevs : ∀ ev ∈ evs, ev.Internal) : fed (log ++ evs) = fed log := by
  rw [fed_append]
  induction evs using List.reverseRecOn with
  | nil => rfl
  | append_singleton evs ev ih =>
    rw [List.foldl_append, ih fun ev hev => hevs ev (List.mem_append_left _ hev)]
    have hev := hevs ev (by simp)
    rw [List.foldl_cons, List.foldl_nil, FirmEvent.feed]
    cases hcall : ev.call with
    | ftlWrite sectorNb length => simp [FirmEvent.Internal, hcall, FirmCall.toFtl] at hev
    | _ => rfl

namespace Fed

/-- The calls of one step are appended to the log. -/
private theorem extend (h : Fed g d) {evs : List (FirmEvent b)} (hlog : d'.log = d.log ++ evs)
    (hstore : fed d'.log = asLabels d'.firm.store)
    (hcalls : ∀ ev ∈ evs, ev.Complete g)
    (hreads : ∀ (i : ℕ) (ev : FirmEvent b), evs[i]? = some ev →
      ∀ requestNb sectorNb length, ev.call = .ftlRead requestNb sectorNb length →
        fed (d.log ++ evs.take i) = asLabels ev.firm.store) : Fed g d' where
  store := hstore
  calls := by
    intro ev hev
    rw [hlog] at hev
    exact (List.mem_append.mp hev).elim (h.calls ev) (hcalls ev)
  reads := by
    intro i ev hev requestNb sectorNb length hcall
    rw [hlog] at hev ⊢
    by_cases hi : i < d.log.length
    · rw [List.getElem?_append_left hi] at hev
      rw [List.take_append_of_le_length hi.le]
      exact h.reads i ev hev requestNb sectorNb length hcall
    · rw [List.getElem?_append_right (not_lt.mp hi)] at hev
      rw [List.take_append, List.take_of_length_le (not_lt.mp hi)]
      exact hreads _ ev hev requestNb sectorNb length hcall

private theorem unfed (h : Fed g d) (hunfed : Unfed d d') : Fed g d' := by
  obtain ⟨evs, hlog, hevs⟩ := hunfed.log
  refine h.extend hlog ?_ ?_ ?_
  · rw [hlog, fed_append_of_none _ hevs, h.store, hunfed.store]
  · exact fun ev hev => (hevs ev hev).complete
  · intro i ev hev requestNb sectorNb length hcall
    have hnone := hevs ev (List.mem_of_getElem? hev)
    rw [FirmEvent.Internal, hcall] at hnone
    cases hnone

private theorem ftlRead (h : Fed g d) (requestNb : ℕ) {sectorNb : ℤ} {length : ℕ}
    (hreq : InRange g sectorNb length) :
    Ensures (d.ftlRead g requestNb sectorNb length) (Fed g) := by
  have hnote : Fed g (d.note (.ftlRead requestNb sectorNb length)) := by
    refine h.extend rfl ?_ ?_ ?_
    · exact (fed_append _ _).trans h.store
    · intro ev hev
      rw [List.mem_singleton.mp hev]
      constructor
      · intro req hcall
        cases hcall
        exact hreq
      · intro _ _ hcall
        cases hcall
    · intro i ev hev _ _ _ _
      obtain ⟨rfl, rfl⟩ : i = 0 ∧ ev = ⟨.ftlRead requestNb sectorNb length, d.firm⟩ := by
        rcases i with _ | i
        · exact ⟨rfl, (Option.some.inj hev).symm⟩
        · simp at hev
      rw [List.take_zero, List.append_nil]
      exact h.store
  rw [Device.ftlRead]
  split
  · exact .ok (hnote.unfed ((Unfed.refl _).note rfl))
  · exact .map_any fun rb => hnote.unfed ((Unfed.refl _).setRb rb)

/-- `FTL_WRITE` of the first pending write. -/
private theorem ftlWrite (hnew : ∀ n, newPage n = .success) {n : ℕ} (h : Fed g d)
    (hwb : WbRep g n d.firm.wb orphans (w :: ws) []) (hv : w.2.valid = true)
    (hshape : d.firm.queues.Shape rs ws) :
    Ensures (d.ftlWrite g newPage w.2.sectorNb w.2.length w.2.merged) (Fed g) := by
  intro d' hd'
  -- the calls it makes
  have hevs : Ensures (d.ftlWrite g newPage w.2.sectorNb w.2.length w.2.merged)
      (Device.Extends FirmEvent.Internal
        (d.note (.ftlWrite w.2.sectorNb w.2.length))) := by
    rw [Device.ftlWrite]
    split
    · exact .ok (.note rfl)
    · refine Device.ftlWriteLoop_log.bind fun r hr => ?_
      split
      · exact .ok hr
      · exact Device.wbLoop_unfed.mono fun _ hunfed => hr.trans hunfed.log
  obtain ⟨evs, hlog, hnone⟩ := hevs d' hd'
  set ev : FirmEvent b := ⟨.ftlWrite w.2.sectorNb w.2.length, d.firm⟩ with hevdef
  have hlog' : d'.log = d.log ++ ev :: evs := by
    rw [hlog, Device.note, List.append_assoc]
    rfl
  -- the stamps it stores
  obtain ⟨d₁, k, hd₁, hfirm, -⟩ := Device.ftlWrite_eq hnew True [] hwb hv hshape
  cases hd'.symm.trans hd₁
  have hw := hwb.events w (by simp)
  have hdata := hwb.data_eq (d := d) hv
  refine h.extend hlog' ?_ ?_ ?_
  · rw [hlog, fed_append_of_none _ hnone, Device.note, fed_append, h.store, hfirm]
    funext x
    simp only [List.foldl_cons, List.foldl_nil, FirmEvent.feed, asLabels, Overlay.layer_apply]
    by_cases hx : Covers w.2.sectorNb w.2.length x
    · obtain ⟨nb, hnb, hlabel⟩ := hdata x hx
      rw [if_pos hx, hlabel, EventQueueEntry.stamps, if_pos ⟨hv, hx⟩, hnb]
      rfl
    · rw [if_neg hx, EventQueueEntry.stamps, if_neg fun hx' => hx hx'.2, Option.none_or]
  · intro e he
    rcases List.mem_cons.mp he with rfl | he
    · constructor
      · intro req hcall
        cases hcall
        exact hw.inRange
      · intro sectorNb length hcall x hx
        cases hcall
        obtain ⟨nb, -, hlabel⟩ := hdata x hx
        rw [hlabel]
        rfl
    · exact (hnone e he).complete
  · intro i e he requestNb sectorNb length hcall
    rcases i with _ | i
    · cases he
      cases hcall
    · have hnone' := hnone e (List.mem_of_getElem? he)
      rw [FirmEvent.Internal, hcall] at hnone'
      cases hnone'

end Fed

/-! ### Operations that execute pending events -/

/-- The invariant of the firmware together with `Fed`. -/
def FedCore (g : Geometry) (reqs : List Request) (fs : List (ℕ × SNode (EventQueueEntry b)))
    (d : Device b) : Prop :=
  Fed g d ∧ ∃ rs ws cs orphans, Core g reqs d.firm rs ws cs fs orphans

namespace FedCore

private theorem dequeueIo (hnew : ∀ n, newPage n = .success) (h : FedCore g reqs fs d) :
    Ensures (d.dequeueIo g newPage) (FedCore g reqs fs) := by
  obtain ⟨hfed, rs, ws, cs, orphans, hcore⟩ := h
  rcases rs with _ | ⟨r, rs⟩
  · rcases ws with _ | ⟨w, ws⟩
    · -- no event
      have hcount : d.firm.queues.eQueue.count = 0 := hcore.queues.pending.count
      rw [Device.dequeueIo, if_pos hcount]
      exact .ok ⟨hfed.unfed ((Unfed.refl d).note rfl), [], [], cs, orphans, hcore⟩
    · obtain ⟨d', hd', hcore', -⟩ := hcore.dequeueIo_write hnew True
      intro d₁ hd₁
      cases hd'.symm.trans hd₁
      refine ⟨?_, [], ws, cs, _, hcore'⟩
      obtain ⟨n, hcell, hrun⟩ := Device.dequeueIo_eq g newPage hcore.queues (List.nil_append _)
      have htype : w.2.ioType = .write := hcore.queues.writes w (by simp)
      rw [hd'] at hrun
      simp only [htype, reduceCtorEq, if_false] at hrun
      obtain ⟨d₁, hexec, hok⟩ := Except.bind_eq_ok hrun.symm
      cases hok
      have hfed₁ := hfed.unfed
        ((Unfed.refl d).setQueues (d.firm.queues.unlinkHead w.1 ⟨w.2, n⟩))
      rw [Device.execute] at hexec
      split at hexec
      · next hv =>
        simp only [htype] at hexec
        exact hfed₁.ftlWrite hnew hcore.wb hv (hcore.queues.unlink_write hcell).toShape d' hexec
      · cases hexec
        exact hfed₁
  · obtain ⟨d', c, hd', -, hcore', -⟩ :=
      hcore.dequeueIo_read newPage fun hfit : False => hfit.elim
    intro d₁ hd₁
    cases hd'.symm.trans hd₁
    refine ⟨?_, rs, ws, _, orphans, hcore'⟩
    obtain ⟨n, hcell, hrun⟩ := Device.dequeueIo_eq g newPage hcore.queues List.cons_append
    have htype : r.2.ioType = .read := hcore.queues.reads r (by simp)
    rw [hd'] at hrun
    simp only [htype, if_true] at hrun
    obtain ⟨d₁, hexec, hok⟩ := Except.bind_eq_ok hrun.symm
    obtain ⟨q, -, rfl⟩ := Except.map_eq_ok hok
    have hfed₁ := hfed.unfed
      ((Unfed.refl d).setQueues (d.firm.queues.unlinkHead r.1 ⟨r.2, n⟩))
    refine Fed.unfed ?_ ((Unfed.refl d₁).setQueues q)
    rw [Device.execute] at hexec
    split at hexec
    · simp only [htype] at hexec
      split at hexec
      · have hread := hcore.reads r (by simp)
        exact (hfed₁.unfed ((Unfed.refl _).setQueues _)).ftlRead _ hread.inRange d₁ hexec
      · cases hexec
        exact hfed₁
    · cases hexec
      exact hfed₁

private theorem dequeueTimes (hnew : ∀ n, newPage n = .success) (h : FedCore g reqs fs d) (n : ℕ) :
    Ensures (d.dequeueTimes g newPage n) (FedCore g reqs fs) := by
  induction n generalizing d with
  | zero => exact .ok h
  | succ n ih => exact (h.dequeueIo hnew).bind fun d' h' => ih h'

theorem flushEventQueueUntil (hnew : ∀ n, newPage n = .success) (h : FedCore g reqs fs d)
    (p : Option ℕ) : Ensures (d.flushEventQueueUntil g newPage p) (FedCore g reqs fs) := by
  unfold Device.flushEventQueueUntil
  dsimp only
  split
  · split <;> exact .bind_any fun count => h.dequeueTimes hnew count
  · exact .ok ⟨h.1.unfed ((Unfed.refl d).note rfl), h.2⟩

theorem dequeueCompletedRead (h : FedCore g reqs fs d) :
    Ensures d.dequeueCompletedRead (FedCore g reqs fs) := by
  obtain ⟨hfed, rs, ws, cs, orphans, hcore⟩ := h
  obtain ⟨d', hd', hcore', -⟩ :=
    hcore.dequeueCompletedRead fun hfit : False => (hfit.elim : RbOk d.firm.rb cs rs)
  intro d₁ hd₁
  cases hd'.symm.trans hd₁
  exact ⟨hfed.unfed (Device.dequeueCompletedRead_unfed d' hd'), rs, ws, [], orphans, hcore'⟩

theorem secureReadBuffer (hnew : ∀ n, newPage n = .success) (h : FedCore g reqs fs d) :
    Ensures (d.secureReadBuffer g newPage) (FedCore g reqs fs) := by
  have hrest : ∀ d' : Device b, FedCore g reqs fs d' →
      Ensures (if d'.firm.queues.lastReadEntry ≠ none then do
        let d ← d'.flushEventQueueUntil g newPage d'.firm.queues.lastReadEntry
        d.dequeueCompletedRead
      else .ok d') (FedCore g reqs fs) := by
    intro d' h'
    split
    · exact (h'.flushEventQueueUntil hnew _).bind fun _ => dequeueCompletedRead
    · exact .ok h'
  rw [Device.secureReadBuffer]
  split
  · exact h.dequeueCompletedRead.bind hrest
  · exact hrest d h

private theorem secureBuffer (hnew : ∀ n, newPage n = .success) (h : FedCore g reqs fs d)
    (ioType : IoType) : Ensures (d.secureBuffer g newPage ioType) (FedCore g reqs fs) := by
  cases ioType with
  | write => exact h.flushEventQueueUntil hnew _
  | read => exact h.secureReadBuffer hnew
  | _ => exact .ok h

private theorem resolveRead (hnew : ∀ n, newPage n = .success) (h : FedCore g reqs fs d) (a : ℕ)
    (sectorNb : ℤ) (length : ℕ) :
    Ensures (d.resolveRead g newPage a sectorNb length) (Fed g) := by
  rw [Device.resolveRead]
  refine .bind_any fun ret => ?_
  cases ret with
  | none => exact .ok h.1
  | some r =>
    refine .bind_any fun c => ?_
    refine (h.flushEventQueueUntil hnew _).bind fun d' h' => ?_
    split
    · refine Device.copyDataToReadBuffer_unfed.mono fun _ hunfed => ?_
      exact h'.1.unfed (((Unfed.refl d').setQueues _).trans hunfed)
    · exact .ok h'.1

/-- `ENQUEUE_READ` executes events only to resolve dependencies. -/
private theorem enqueueRead (hnew : ∀ n, newPage n = .success) (h : FedCore g reqs [] d)
    (sectorNb : ℤ) (length : ℕ) : Ensures (d.enqueueRead g newPage sectorNb length) (Fed g) := by
  obtain ⟨hfed, rs, ws, cs, orphans, hcore⟩ := h
  rw [Device.enqueueRead]
  set d₀ := d.setQueues (d.firm.queues.allocNewEvent
    { ioType := .read
      valid := true
      sectorNb
      length
      buf := none
      requestNb := d.firm.requestNb
      merged := []
      frames := [] }) with hd₀
  have h₀ : ∃ fs, FedCore g reqs fs d₀ :=
    ⟨_, hfed.unfed ((Unfed.refl d).setQueues _), rs, ws, cs, orphans,
      { hcore with queues := hcore.queues.alloc _ }⟩
  obtain ⟨fs, h₀⟩ := h₀
  have hclaim : ∀ d' : Device b, Fed g d' → Ensures (ε := Fault) (.ok (d'.setRb { d'.firm.rb with
      emptyReadBufferFrame := toI32 (d'.firm.rb.emptyReadBufferFrame - length) })) (Fed g) :=
    fun d' h' => .ok (h'.unfed ((Unfed.refl d').setRb _))
  split
  · exact hclaim _ (h₀.1.unfed ((Unfed.refl d₀).setQueues _))
  · refine (h₀.resolveRead hnew _ _ _).bind fun d' h' => ?_
    exact (Ensures.map_any fun q => h'.unfed ((Unfed.refl d').setQueues q)).bind hclaim

private theorem enqueueIo (hnew : ∀ n, newPage n = .success) (h : FedCore g reqs [] d)
    (ioType : IoType) (sectorNb : ℤ) (length : ℕ) :
    Ensures (d.enqueueIo g newPage ioType sectorNb length) (Fed g) := by
  cases ioType with
  | read => exact h.enqueueRead hnew sectorNb length
  | write => exact Device.enqueueWrite_unfed.mono fun _ => h.1.unfed
  | _ => exact .ok (h.1.unfed ((Unfed.refl d).note rfl))

/-- A host request, whatever it makes the firmware do first. -/
private theorem serve (hnew : ∀ n, newPage n = .success) (h : FedCore g reqs [] d) (req : Request) :
    Ensures (d.serve g newPage req) (Fed g) := by
  rw [Device.serve_eq]
  refine h.dequeueCompletedRead.bind fun d₁ h₁ => ?_
  have hroom : Ensures (if eventQueueIsFull req.ioType req.length d₁.firm = .success then
      d₁.secureBuffer g newPage req.ioType else .ok d₁) (FedCore g reqs []) := by
    split
    · exact h₁.secureBuffer hnew _
    · exact .ok h₁
  refine hroom.bind fun d₂ h₂ => ?_
  refine (h₂.enqueueIo hnew _ _ _).bind fun d₃ h₃ => .ok ?_
  refine h₃.unfed ⟨.of_eq ?_, ?_⟩
  · cases req <;> rfl
  · cases req <;> rfl

end FedCore

/-! ### Runs -/

theorem initIoBuffer_fed (g : Geometry) (b : BufferConfig) : Fed g (initIoBuffer b) where
  store := rfl
  calls := by simp [initIoBuffer]
  reads := by simp [initIoBuffer]

/-- Every sequence of requests within the device whose writes fit into the buffer. -/
theorem serveAll_fed (hnew : ∀ n, newPage n = .success) {fit : Prop}
    (h : FirmInv g fit reqs d rs ws cs) (hfed : Fed g d) (more : List Request)
    (hreq : ∀ req ∈ more, req.InRange g) (hwrite : ∀ req ∈ more, req.WriteFits b)
    (hread : fit → ∀ req ∈ more, req.ReadFits b) :
    ∃ d' rs' ws' cs', d.serveAll g newPage more = .ok d' ∧
      FirmInv g fit (reqs ++ more) d' rs' ws' cs' ∧ Fed g d' := by
  induction more generalizing reqs d rs ws cs with
  | nil => exact ⟨d, rs, ws, cs, rfl, by simpa using h, hfed⟩
  | cons req more ih =>
    obtain ⟨d₁, rs₁, ws₁, cs₁, hd₁, h₁⟩ := h.serve hnew (hreq req (by simp))
      (hwrite req (by simp)) fun hfit => hread hfit req (by simp)
    have hcore : FedCore g reqs [] d := ⟨hfed, rs, ws, cs, [], h.core⟩
    obtain ⟨d', rs', ws', cs', hd', h', hfed'⟩ := ih h₁ (hcore.serve hnew req d₁ hd₁)
      (fun req hmem => hreq req (List.mem_cons_of_mem _ hmem))
      (fun req hmem => hwrite req (List.mem_cons_of_mem _ hmem))
      fun hfit req hmem => hread hfit req (List.mem_cons_of_mem _ hmem)
    refine ⟨d', rs', ws', cs', ?_, by simpa using h', hfed'⟩
    rw [Device.serveAll, List.foldlM_cons, hd₁]
    exact hd'

end Vssim
