import Vssim.Firm.WriteRep

/-!
# The invariant of the firmware

What holds between two steps of the firmware, for a given list of past requests: the queues are
lists of events, the write buffer holds the frames of the pending writes, the read buffer those of
the reads that own space, and executing all pending writes would leave in the FTL the stamp of
the last write of every sector (`Core`, `RbRep`). A pending read that will go to the FTL already
finds there what it has to find.

The read buffer is described only under the assumption that every read fits into it; nothing else
depends on that.
-/

namespace Vssim

open LinkedHeap

variable {b : BufferConfig}

/-! ### Numbering the writes -/

/-- The sectors of an `SSD_WRITE`. -/
def Request.asWrite : Request → Option (ℤ × ℕ)
  | .write sectorNb length => some (sectorNb, length)
  | .read _ _ => none

/-- The `SSD_WRITE`s of a sequence of requests, numbered in order. -/
def ssdWrites (reqs : List Request) : List HostWrite :=
  (reqs.filterMap Request.asWrite).mapIdx fun i w => ⟨i, w.1, w.2⟩

@[simp] theorem ssdWrites_nil : ssdWrites [] = [] := rfl

theorem ssdWrites_write (reqs : List Request) (sectorNb : ℤ) (length : ℕ) :
    ssdWrites (reqs ++ [.write sectorNb length]) =
      ssdWrites reqs ++ [⟨(ssdWrites reqs).length, sectorNb, length⟩] := by
  simp [ssdWrites, Request.asWrite, List.mapIdx_append]

theorem ssdWrites_read (reqs : List Request) (sectorNb : ℤ) (length : ℕ) :
    ssdWrites (reqs ++ [.read sectorNb length]) = ssdWrites reqs := by
  have hread : [Request.read sectorNb length].filterMap Request.asWrite = [] := rfl
  rw [ssdWrites, List.filterMap_append, hread, List.append_nil, ssdWrites]

/-! ### Logged calls -/

/-- The FTL holds, for every sector of a read, the stamp of the last write before it. -/
def UpToDate (reqs : List Request) (store : ℤ → Option ℕ) (requestNb : ℕ) (sectorNb : ℤ)
    (length : ℕ) : Prop :=
  ∀ x, Covers sectorNb length x → store x = lastStamp (ssdWrites (reqs.take requestNb)) x

/-- What a call must satisfy when it is made: whatever the call, `e_queue` is in order. A read that
the FTL executes is one of the requests and finds its data; a frame that is filled is free; a loop
over `wb_valid_array` changes no frame of another pending write; data handed to the host is where
`sata_read_ptr` points; no error message is printed. The last two hold if the reads fit into
the read buffer. -/
def CallOk (fit : Prop) (reqs : List Request) (ev : FirmEvent b) : Prop :=
  ∃ rs ws, ev.firm.queues.Shape rs ws ∧
    match ev.call with
    | .ftlRead requestNb sectorNb length =>
      reqs[requestNb]? = some (.read sectorNb length) ∧
        UpToDate reqs ev.firm.store requestNb sectorNb length
    | .fillFrame p => (ev.firm.wb.frames p).valid = .zero
    | .wbLoop _ owner after =>
      ∀ p, after p ≠ ev.firm.wb.frames p → ∀ w ∈ ws, owner ≠ some w.1 → p ∉ w.2.frames
    | .toHost e => fit → e.buf = some (.rb ev.firm.rb.sataReadPtr)
    | .error _ => ¬ fit
    | _ => True

/-- The call is a `memcpy` of `COPY_DATA_TO_READ_BUFFER`. -/
def FirmEvent.isCopy (ev : FirmEvent b) : Bool :=
  match ev.call with
  | .copyFrame .. => true
  | _ => false

/-- What a `memcpy` of `COPY_DATA_TO_READ_BUFFER` copies. -/
def FirmCall.copied : FirmCall b → Option (ℕ × ℤ × ℕ × WbPtr b)
  | .copyFrame requestNb sectorNb k src => some (requestNb, sectorNb, k, src)
  | _ => none

theorem FirmCall.copied_eq_some {call : FirmCall b} {requestNb k : ℕ} {sectorNb : ℤ} {src : WbPtr b}
    (h : call.copied = some (requestNb, sectorNb, k, src)) :
    call = .copyFrame requestNb sectorNb k src := by
  cases call <;> simp_all [FirmCall.copied]

private theorem take_append_of_lt {α : Type} {xs : List α} {i : ℕ} {x : α} (h : xs[i]? = some x)
    (ys : List α) :
    (xs ++ ys).take i = xs.take i ∧ (xs ++ ys)[i]? = some x := by
  have hlt : i < xs.length := (List.getElem?_eq_some_iff.mp h).1
  exact ⟨List.take_append_of_le_length hlt.le, by rwa [List.getElem?_append_left hlt]⟩

/-- What held of a call keeps holding when more requests arrive. -/
theorem CallOk.mono {fit : Prop} {reqs more : List Request} {ev : FirmEvent b}
    (h : CallOk fit reqs ev) : CallOk fit (reqs ++ more) ev := by
  obtain ⟨rs, ws, hshape, hcall⟩ := h
  refine ⟨rs, ws, hshape, ?_⟩
  match hev : ev.call with
  | .ftlRead requestNb sectorNb length =>
    rw [hev] at hcall
    obtain ⟨hreq, hdata⟩ := hcall
    obtain ⟨htake, hget⟩ := take_append_of_lt hreq more
    refine ⟨hget, fun x hx => ?_⟩
    rw [htake]
    exact hdata x hx
  | .ftlWrite .. => trivial
  | .fillFrame _ => simpa only [hev] using hcall
  | .copyFrame .. => trivial
  | .toHost _ => simpa only [hev] using hcall
  | .wbLoop .. => simpa only [hev] using hcall
  | .error _ => simpa only [hev] using hcall

namespace Device

/-- The log of `d'` continues that of `d` with calls that satisfy `P`. -/
def Extends (P : FirmEvent b → Prop) (d d' : Device b) : Prop :=
  ∃ evs, d'.log = d.log ++ evs ∧ ∀ ev ∈ evs, P ev

variable {P Q : FirmEvent b → Prop} {d d' d'' : Device b}

theorem Extends.of_eq (h : d'.log = d.log) : Extends P d d' := ⟨[], by simp [h], by simp⟩

theorem Extends.trans (h : Extends P d d') (h' : Extends P d' d'') : Extends P d d'' := by
  obtain ⟨evs, hlog, hevs⟩ := h
  obtain ⟨evs', hlog', hevs'⟩ := h'
  refine ⟨evs ++ evs', by rw [hlog', hlog, List.append_assoc], fun ev hev => ?_⟩
  exact (List.mem_append.mp hev).elim (hevs ev) (hevs' ev)

theorem Extends.imp (h : Extends P d d') (hPQ : ∀ ev, P ev → Q ev) : Extends Q d d' := by
  obtain ⟨evs, hlog, hevs⟩ := h
  exact ⟨evs, hlog, fun ev hev => hPQ ev (hevs ev hev)⟩

theorem Extends.note {call : FirmCall b} (h : P ⟨call, d.firm⟩) : Extends P d (d.note call) :=
  ⟨[⟨call, d.firm⟩], rfl, by simpa using h⟩

end Device

/-- A call that is in order and copies nothing. -/
def Plain (fit : Prop) (reqs : List Request) (ev : FirmEvent b) : Prop :=
  CallOk fit reqs ev ∧ ev.isCopy = false

/-- A step that does not touch the contents of the write buffer, copies nothing out of it and makes
only calls that are in order. -/
structure Quiet (fit : Prop) (reqs : List Request) (d d' : Device b) : Prop where
  log : Device.Extends (Plain fit reqs) d d'
  label : ∀ p, (d'.firm.wb.frames p).label = (d.firm.wb.frames p).label
  requestNb : d'.firm.requestNb = d.firm.requestNb
  writeNb : d'.firm.writeNb = d.firm.writeNb

namespace Quiet

variable {fit : Prop} {reqs : List Request} {d d' d'' : Device b}

theorem refl (d : Device b) : Quiet fit reqs d d := ⟨.of_eq rfl, fun _ => rfl, rfl, rfl⟩

theorem trans (h : Quiet fit reqs d d') (h' : Quiet fit reqs d' d'') : Quiet fit reqs d d'' :=
  ⟨h.log.trans h'.log, fun p => (h'.label p).trans (h.label p), h'.requestNb.trans h.requestNb,
    h'.writeNb.trans h.writeNb⟩

theorem note (h : Quiet fit reqs d d') {call : FirmCall b} (hcall : Plain fit reqs ⟨call, d'.firm⟩) :
    Quiet fit reqs d (d'.note call) :=
  ⟨h.log.trans (.note hcall), h.label, h.requestNb, h.writeNb⟩

theorem setQueues (h : Quiet fit reqs d d') (queues : EventQueues b) :
    Quiet fit reqs d (d'.setQueues queues) :=
  ⟨h.log.trans (.of_eq rfl), h.label, h.requestNb, h.writeNb⟩

theorem setRb (h : Quiet fit reqs d d') (rb : ReadBuffer b) : Quiet fit reqs d (d'.setRb rb) :=
  ⟨h.log.trans (.of_eq rfl), h.label, h.requestNb, h.writeNb⟩

end Quiet

/-! ### The read buffer -/

/-- The sectors that some reads ask for. -/
def totalLength (es : List (EventAt b)) : ℕ := (es.map fun e => e.2.length).sum

@[simp] theorem totalLength_nil : totalLength ([] : List (EventAt b)) = 0 := rfl

@[simp] theorem totalLength_cons (e : EventAt b) (es : List (EventAt b)) :
    totalLength (e :: es) = e.2.length + totalLength es := by simp [totalLength]

@[simp] theorem totalLength_append (es es' : List (EventAt b)) :
    totalLength (es ++ es') = totalLength es + totalLength es' := by simp [totalLength]

/-- The reads own consecutive stretches of the read buffer, from `p` on. -/
def Tiled : RbPtr b → List (EventAt b) → Prop
  | _, [] => True
  | p, e :: es => e.2.buf = some (.rb p) ∧ Tiled (Ring.advance p e.2.length) es

private theorem Tiled.append {p : RbPtr b} {es es' : List (EventAt b)} (h : Tiled p es)
    (h' : Tiled (Ring.advance p (totalLength es)) es') : Tiled p (es ++ es') := by
  induction es generalizing p with
  | nil => simpa using h'
  | cons e es ih =>
    refine ⟨h.1, ih h.2 ?_⟩
    rwa [Ring.advance_advance, ← totalLength_cons]

/-- The read buffer: the completed reads `cs` and then the pending reads `hs` own its frames from
`sata_read_ptr` to `ftl_read_ptr`; the other pending reads `ns` have no frames yet. The count of
free frames is what remains when all of them have theirs. -/
structure RbRep (s : ReadBuffer b) (cs hs ns : List (EventAt b)) : Prop where
  tiled : Tiled s.sataReadPtr (cs ++ hs)
  ftl : s.ftlReadPtr = Ring.advance s.sataReadPtr (totalLength (cs ++ hs))
  unowned : ∀ r ∈ ns, r.2.buf = none
  empty : s.emptyReadBufferFrame = b.readBufferFrameNb - totalLength (cs ++ (hs ++ ns))
  le : totalLength (cs ++ (hs ++ ns)) ≤ b.readBufferFrameNb

/-- The read buffer with completed reads `cs` and pending reads `rs`: those that own frames come
first. -/
def RbOk (s : ReadBuffer b) (cs rs : List (EventAt b)) : Prop :=
  ∃ hs ns, rs = hs ++ ns ∧ RbRep s cs hs ns

private theorem Tiled.buf_ne {p : RbPtr b} {es : List (EventAt b)} (h : Tiled p es) {e : EventAt b}
    (he : e ∈ es) : e.2.buf ≠ none := by
  induction es generalizing p with
  | nil => simp at he
  | cons e' es ih =>
    rcases List.mem_cons.mp he with rfl | he
    · simp [h.1]
    · exact ih h.2 he

/-- `INCREASE_RB_LIMIT_POINTER` reaches `ftl_read_ptr`. -/
theorem ReadBuffer.increaseRbLimitPointer_eq (s : ReadBuffer b) :
    s.increaseRbLimitPointer = .ok { s with readLimitPtr := s.ftlReadPtr } := by
  rw [increaseRbLimitPointer, Ring.chase_eq]

namespace RbOk

variable {s : ReadBuffer b} {cs rs : List (EventAt b)} {r : EventAt b}

/-- The lengths that the read buffer sees fit in an `int`. -/
private theorem length_eq (h : RbOk s cs rs) (hr : r ∈ cs ++ rs) :
    toI32 r.2.length = r.2.length := by
  obtain ⟨hs, ns, rfl, hrep⟩ := h
  have hle : r.2.length ≤ totalLength (cs ++ (hs ++ ns)) :=
    List.le_sum_of_mem (List.mem_map_of_mem hr)
  have hlt := b.readBufferFrameNb_lt
  have := hrep.le
  exact toI32_of_bounds (by omega) (by omega)

/-- A read that owns frames is completed. -/
theorem complete_owned (h : RbOk s cs (r :: rs)) (hbuf : r.2.buf ≠ none) :
    RbOk s (cs ++ [r]) rs := by
  obtain ⟨hs, ns, heq, hrep⟩ := h
  rcases hs with _ | ⟨r', hs⟩
  · obtain rfl : r :: rs = ns := heq
    exact absurd (hrep.unowned r (by simp)) hbuf
  · obtain ⟨rfl, rfl⟩ := List.cons.inj heq
    refine ⟨hs, ns, rfl, ?_⟩
    exact
      { tiled := by simpa using hrep.tiled
        ftl := by simpa using hrep.ftl
        unowned := hrep.unowned
        empty := by simpa using hrep.empty
        le := by simpa using hrep.le }

/-- A read that owns none gets its frames when the FTL executes it. -/
theorem execute_unowned (h : RbOk s cs (r :: rs)) (hbuf : r.2.buf = none) (p : RbPtr b) :
    RbOk { s.increaseRbFtlPointer r.2.length with readLimitPtr := p } cs
      ((r.1, { r.2 with buf := some (.rb s.ftlReadPtr) }) :: rs) := by
  have hlen := h.length_eq (r := r) (by simp)
  obtain ⟨hs, ns, heq, hrep⟩ := h
  rcases hs with _ | ⟨r', hs⟩
  · obtain rfl : r :: rs = ns := heq
    have hftl := hrep.ftl
    rw [List.append_nil] at hftl
    refine ⟨[(r.1, { r.2 with buf := some (.rb s.ftlReadPtr) })], rs, rfl, ?_⟩
    simp only [ReadBuffer.increaseRbFtlPointer, hlen, Int.toNat_natCast, Ring.iterate_next, hftl]
    exact
      { tiled := Tiled.append (by simpa using hrep.tiled) ⟨rfl, trivial⟩
        ftl := by
          rw [Ring.advance_advance]
          simp
        unowned := fun x hx => hrep.unowned x (List.mem_cons_of_mem _ hx)
        empty := by simpa using hrep.empty
        le := by simpa using hrep.le }
  · obtain ⟨rfl, rfl⟩ := List.cons.inj heq
    exact absurd hbuf (hrep.tiled.buf_ne (by simp))

/-- A read that owns none gets its frames when it is completed. -/
theorem complete_unowned (h : RbOk s cs (r :: rs)) (hbuf : r.2.buf = none) (p : RbPtr b) :
    RbOk { s.increaseRbFtlPointer r.2.length with readLimitPtr := p }
      (cs ++ [(r.1, { r.2 with buf := some (.rb s.ftlReadPtr) })]) rs :=
  (h.execute_unowned hbuf p).complete_owned (by simp)

/-- The host takes the first completed read, which lies at `sata_read_ptr`. -/
theorem consume (h : RbOk s (r :: cs) rs) :
    r.2.buf = some (.rb s.sataReadPtr) ∧ RbOk (s.increaseRbSataPointer r.2.length) cs rs := by
  have hlen := h.length_eq (r := r) (by simp)
  obtain ⟨hs, ns, rfl, hrep⟩ := h
  have htiled := hrep.tiled
  have hftl := hrep.ftl
  have hempty := hrep.empty
  have hle := hrep.le
  simp only [List.cons_append, totalLength_cons] at htiled hftl hempty hle
  refine ⟨htiled.1, hs, ns, rfl, ?_⟩
  simp only [ReadBuffer.increaseRbSataPointer, hlen, Int.toNat_natCast, Ring.iterate_next]
  exact
    { tiled := htiled.2
      ftl := by rw [Ring.advance_advance, hftl]
      unowned := hrep.unowned
      empty := by
        simp only [hempty]
        push_cast
        omega
      le := by omega }

/-- A new read that owns no frames yet. -/
theorem enqueue_unowned (h : RbOk s cs rs) (hbuf : r.2.buf = none)
    (hroom : totalLength cs + totalLength rs + r.2.length ≤ b.readBufferFrameNb) :
    RbOk { s with emptyReadBufferFrame := toI32 (s.emptyReadBufferFrame - r.2.length) } cs
      (rs ++ [r]) := by
  obtain ⟨hs, ns, rfl, hrep⟩ := h
  have hempty := hrep.empty
  have hlt := b.readBufferFrameNb_lt
  simp only [totalLength_append] at hempty hroom
  have hwrap : toI32 (s.emptyReadBufferFrame - r.2.length) = _ :=
    toI32_of_bounds (by omega) (by omega)
  refine ⟨hs, ns ++ [r], by simp, ?_⟩
  rw [hwrap]
  exact
    { tiled := hrep.tiled
      ftl := hrep.ftl
      unowned := fun x hx => by
        rcases List.mem_append.mp hx with hx | hx
        · exact hrep.unowned x hx
        · rwa [List.mem_singleton.mp hx]
      empty := by
        simp only [hempty, totalLength_append, totalLength_cons, totalLength_nil]
        push_cast
        omega
      le := by
        simp only [totalLength_append, totalLength_cons, totalLength_nil]
        omega }

/-- A new read that owns the frames from `ftl_read_ptr` on, when no other read is pending. -/
theorem enqueue_owned (h : RbOk s cs []) (hbuf : r.2.buf = some (.rb s.ftlReadPtr))
    (hroom : totalLength cs + r.2.length ≤ b.readBufferFrameNb) (p : RbPtr b) :
    RbOk { s with
        ftlReadPtr := Ring.advance s.ftlReadPtr r.2.length
        readLimitPtr := p
        emptyReadBufferFrame := toI32 (s.emptyReadBufferFrame - r.2.length) } cs [r] := by
  obtain ⟨hs, ns, hnil, hrep⟩ := h
  obtain ⟨rfl, rfl⟩ := List.append_eq_nil_iff.mp hnil.symm
  have hempty := hrep.empty
  have hftl := hrep.ftl
  have htiled := hrep.tiled
  have hlt := b.readBufferFrameNb_lt
  simp only [List.append_nil] at hempty hftl htiled
  have hwrap : toI32 (s.emptyReadBufferFrame - r.2.length) = _ :=
    toI32_of_bounds (by omega) (by omega)
  refine ⟨[r], [], rfl, ?_⟩
  rw [hwrap]
  exact
    { tiled := htiled.append ⟨hftl ▸ hbuf, trivial⟩
      ftl := by simp [hftl, Ring.advance_advance]
      unowned := by simp
      empty := by
        simp only [hempty, List.append_nil, totalLength_append, totalLength_cons, totalLength_nil]
        push_cast
        omega
      le := by simpa using hroom }

end RbOk

/-! ### The invariant -/

/-- A pending read: it is one of the requests, and if it has no data yet, the FTL has it. -/
structure PendingRead (g : Geometry) (reqs : List Request) (store : ℤ → Option ℕ)
    (e : EventQueueEntry b) : Prop where
  valid : e.valid = true
  inRange : InRange g e.sectorNb e.length
  request : reqs[e.requestNb]? = some (.read e.sectorNb e.length)
  upToDate : e.buf = none → UpToDate reqs store e.requestNb e.sectorNb e.length

theorem PendingRead.mono {g : Geometry} {reqs : List Request} {store : ℤ → Option ℕ} {e : EventQueueEntry b}
    (h : PendingRead g reqs store e) (more : List Request) :
    PendingRead g (reqs ++ more) store e := by
  obtain ⟨htake, hget⟩ := take_append_of_lt h.request more
  refine ⟨h.valid, h.inRange, hget, fun hbuf x hx => ?_⟩
  rw [htake]
  exact h.upToDate hbuf x hx

/-- What holds between two steps. -/
structure Core (g : Geometry) (reqs : List Request) (s : Firm b) (rs ws cs : List (EventAt b))
    (fs : List (ℕ × SNode (EventQueueEntry b))) (orphans : List (WbPtr b)) : Prop where
  queues : s.queues.Rep rs ws cs fs
  wb : WbRep g (ssdWrites reqs).length s.wb orphans ws []
  value : Overlay.stack s.store (ws.map fun w => w.2.stamps) = lastStamp (ssdWrites reqs)
  reads : ∀ r ∈ rs, PendingRead g reqs s.store r.2
  tail : ∀ w ∈ ws.getLast?, w.2.valid = true
  nil : ws = [] → orphans = []

namespace Core

variable {g : Geometry} {reqs : List Request} {s : Firm b} {rs ws cs : List (EventAt b)}
  {fs : List (ℕ × SNode (EventQueueEntry b))} {orphans : List (WbPtr b)}

/-- A place that no valid pending write covers is up to date in the FTL. -/
theorem store_eq (h : Core g reqs s rs ws cs fs orphans) {x : ℤ}
    (hx : ∀ w ∈ ws, w.2.stamps x = none) : s.store x = lastStamp (ssdWrites reqs) x := by
  rw [← h.value, Overlay.stack_apply_base]
  intro p hp
  obtain ⟨w, hw, rfl⟩ := List.mem_map.mp hp
  exact hx w hw

/-- A new read joins the pending ones. -/
theorem joinRead {s' : Firm b} {sectorNb : ℤ} {length : ℕ} {r : EventAt b}
    {fs' : List (ℕ × SNode (EventQueueEntry b))} (h : Core g reqs s rs ws cs fs orphans)
    (hq : s'.queues.Rep (rs ++ [r]) ws cs fs') (hwb : s'.wb = s.wb) (hstore : s'.store = s.store)
    (hread : PendingRead g (reqs ++ [.read sectorNb length]) s.store r.2) :
    Core g (reqs ++ [.read sectorNb length]) s' (rs ++ [r]) ws cs fs' orphans := by
  refine
    { queues := hq
      wb := ?_
      value := ?_
      reads := fun x hx => ?_
      tail := h.tail
      nil := h.nil }
  · rw [ssdWrites_read, hwb]
    exact h.wb
  · rw [ssdWrites_read, hstore]
    exact h.value
  · rw [hstore]
    rcases List.mem_append.mp hx with hx | hx
    · exact (h.reads x hx).mono _
    · rwa [List.mem_singleton.mp hx]

end Core

end Vssim
