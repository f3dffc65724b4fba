import Vssim.Firm.Core

/-!
# Executing pending events

What `DEQUEUE_IO` does to the invariant. A read leaves for the completed queue and owns a stretch
of the read buffer from then on. A valid write is stored by the FTL, which gives back its frames
and those of the orphans before it; the frames of an invalid write become orphans. From this, what
`FLUSH_EVENT_QUEUE_UNTIL` and `DEQUEUE_COMPLETED_READ` do follows by induction on the queues.

`GET_NEW_PAGE` does not fail here.
-/

namespace Vssim

open LinkedHeap

variable {b : BufferConfig} {g : Geometry} {newPage : ℕ → Ret} {fit : Prop} {reqs : List Request}
  {rs ws us vs cs : List (EventAt b)} {fs : List (ℕ × SNode (EventQueueEntry b))}
  {orphans : List (WbPtr b)} {r w : EventAt b} {d : Device b}

/-! ### Writing pages -/

private theorem WriteBuffer.drained_append_of_notMem {s : WriteBuffer b} {ps qs : List (WbPtr b)}
    {p : WbPtr b} (hp : p ∉ qs) : (s.drained (ps ++ qs)).frames p = (s.drained ps).frames p := by
  simp [drained, Ring.rewrite, hp]

private theorem WriteBuffer.released_of_notMem {s : WriteBuffer b} {ps : List (WbPtr b)}
    {p : WbPtr b} (hp : p ∉ ps) : (s.released ps).frames p = (s.drained ps).frames p := by
  simp [released, drained, Ring.rewrite, hp]

/-- A loop over the write buffer that stays away from the frames of the pending writes. -/
theorem Device.wbLoop_eq (fit : Prop) (reqs : List Request) (loop : WbLoop) (owner : Option ℕ)
    {run : WriteBuffer b → Except Fault (WriteBuffer b)} {wb : WriteBuffer b}
    (hrun : run d.firm.wb = .ok wb)
    (hshape : d.firm.queues.Shape rs ws)
    (hfree : ∀ p, wb.frames p ≠ d.firm.wb.frames p → ∀ w ∈ ws, owner ≠ some w.1 →
      p ∉ w.2.frames) :
    ∃ d', d.wbLoop loop owner run = .ok d' ∧ d'.firm = { d.firm with wb } ∧
      Device.Extends (Plain fit reqs) d d' := by
  refine ⟨(d.note (.wbLoop loop owner wb.frames)).setWb wb, ?_, rfl, ?_⟩
  · rw [Device.wbLoop, hrun]
    rfl
  · exact .trans (.note ⟨⟨rs, ws, hshape, hfree⟩, rfl⟩) (.of_eq rfl)

/-- The stamps of some sectors replaced by those of `merged`. -/
def restamp (merged : List HostWrite) (sectorNb : ℤ) (length : ℕ) (store : ℤ → Option ℕ) :
    ℤ → Option ℕ :=
  fun x => if Covers sectorNb length x then lastStamp merged x else store x

private theorem restamp_zero (merged : List HostWrite) (sectorNb : ℤ) (store : ℤ → Option ℕ) :
    restamp merged sectorNb 0 store = store := by
  funext x
  rw [restamp, if_neg]
  simp only [Covers.iff]
  omega

/-- Restamping the sectors of a round and then those of the later rounds. -/
private theorem Cursor.Ok.restamp_next {c : Cursor} (h : c.Ok g) (merged : List HostWrite)
    (store : ℤ → Option ℕ) :
    restamp merged (c.next g).lba (c.next g).remain
      (restamp merged c.lba (c.sects g) store) = restamp merged c.lba c.remain store := by
  have hsects := h.sects_le
  have hrem := h.next_remain
  rcases Nat.eq_zero_or_pos (c.next g).remain with h0 | hpos
  · rw [h0, restamp_zero, show c.sects g = c.remain by omega]
  · rw [h.next_lba hpos]
    funext x
    simp only [restamp, Covers.iff]
    split_ifs <;> first | rfl | omega

private theorem Device.ftlWriteLoop_done {merged : List HostWrite} {c : Cursor} (h0 : c.remain = 0)
    (rounds : ℕ) : d.ftlWriteLoop g newPage merged rounds c = .ok (.success, d) := by
  cases rounds <;> rw [ftlWriteLoop, if_neg (by omega)]

/-- The page loop of `_FTL_WRITE` takes the frames `qs`, which have one `'V'` per sector, and stores
their sectors. -/
private theorem Device.ftlWriteLoop_eq (hnew : ∀ n, newPage n = .success) (fit : Prop)
    (reqs : List Request) (merged : List HostWrite) {s : WriteBuffer b} {rest : List (WbPtr b)} {rounds : ℕ} {c : Cursor} {ps qs : List (WbPtr b)}
    (hc : 0 < c.remain → c.Ok g) (hrounds : c.remain ≤ rounds)
    (hspan : ps ++ (qs ++ rest) = Ring.span s.writeLimitPtr (ps ++ (qs ++ rest)).length)
    (hle : (ps ++ (qs ++ rest)).length ≤ b.writeBufferFrameNb)
    (hcount : (qs.map s.frames).countP Frame.isValid = c.remain)
    (hends : Ring.Ends Frame.isValid (qs.map s.frames)) (hwb : d.firm.wb = s.drained ps)
    (hshape : d.firm.queues.Shape rs ws) (hfree : ∀ p ∈ qs, ∀ w ∈ ws, p ∉ w.2.frames) :
    ∃ d' k, d.ftlWriteLoop g newPage merged rounds c = .ok (.success, d') ∧
      d'.firm = { d.firm with
        wb := s.drained (ps ++ qs)
        store := restamp merged c.lba c.remain d.firm.store
        newPageNb := k } ∧
      Device.Extends (Plain fit reqs) d d' := by
  induction rounds generalizing c ps qs d with
  | zero =>
    have h0 : c.remain = 0 := by omega
    have hqs : qs = [] := by
      by_contra hne
      have := hends.countP_pos (by simpa using hne)
      omega
    refine ⟨d, d.firm.newPageNb, ftlWriteLoop_done h0 0, ?_, .of_eq rfl⟩
    rw [h0, restamp_zero, hqs, List.append_nil, ← hwb]
  | succ rounds ih =>
    rcases Nat.eq_zero_or_pos c.remain with h0 | hpos
    · rw [ftlWriteLoop_done h0, ← ftlWriteLoop_done h0 rounds]
      exact ih hc (by omega) hspan hle hcount hends hwb hshape hfree
    have hok := hc hpos
    have hrem := hok.next_remain
    have hsects := hok.sects_le
    have hsects_pos := hok.sects_pos hpos
    -- the frames of this round
    have hcut : ∃ cs₁ cs₂, qs.map s.frames = cs₁ ++ cs₂ ∧
        cs₁.countP Frame.isValid = c.sects g ∧ Ring.Ends Frame.isValid cs₁ :=
      Ring.exists_split (hcount.symm ▸ hsects)
    obtain ⟨cs₁, cs₂, hcs, hcs₁, hends₁⟩ := hcut
    obtain ⟨qs₁, qs₂, rfl, rfl, rfl⟩ := List.map_eq_append_iff.mp hcs
    have hlt : c.sects g < 2 ^ 31 := by
      have := b.writeBufferFrameNb_lt
      have hcs := List.countP_le_length (p := Frame.isValid) (l := qs₁.map s.frames)
      simp only [List.length_append, List.length_map] at hle hcs
      omega
    rw [List.map_append, List.countP_append, hcs₁] at hcount
    rw [List.append_assoc] at hspan hle
    have hrun : d.firm.wb.increaseWbFtlPointer (c.sects g) = .ok (s.drained (ps ++ qs₁)) := by
      rw [hwb]
      exact WriteBuffer.increaseWbFtlPointer_drained hlt hspan hle hcs₁ hends₁
    obtain ⟨d₁, hd₁, hfirm₁, hlog₁⟩ :=
      wbLoop_eq fit reqs .increaseWbFtlPointer none hrun hshape fun p hp w hw _ hpw => hp <| by
        rw [hwb]
        refine WriteBuffer.drained_append_of_notMem fun hpq => ?_
        exact hfree p (List.mem_append_left _ hpq) w hw hpw
    -- the state in which the next round starts
    set d₂ : Device b := { d₁ with firm := { d₁.firm with
      newPageNb := d₁.firm.newPageNb + 1
      store := restamp merged c.lba (c.sects g) d₁.firm.store } } with hd₂
    have hround : d.ftlWriteLoop g newPage merged (rounds + 1) c =
        d₂.ftlWriteLoop g newPage merged rounds (c.next g) := by
      rw [ftlWriteLoop, if_pos hpos, hd₁]
      simp only [ok_bind, hnew]
      rfl
    have hends₂ : Ring.Ends Frame.isValid (qs₂.map s.frames) := by
      rw [List.map_append] at hends
      exact hends.of_append _
    have hwb₂ : d₂.firm.wb = s.drained (ps ++ qs₁) := by rw [hd₂, hfirm₁]
    have hshape₂ : d₂.firm.queues.Shape rs ws := by
      rw [hd₂, hfirm₁]
      exact hshape
    rw [← List.append_assoc] at hspan hle
    obtain ⟨d', k, hd', hfirm', hlog'⟩ := ih hok.next (by omega) hspan hle (by omega) hends₂ hwb₂
      hshape₂ fun p hp => hfree p (List.mem_append_right _ hp)
    refine ⟨d', k, hround.trans hd', ?_, hlog₁.trans (.trans (.of_eq rfl) hlog')⟩
    rw [hfirm', hd₂, hfirm₁, List.append_assoc, hok.restamp_next]

/-- What a pending write stores, in the words of the page loop. -/
private theorem PendingWrite.restamp_eq {n : ℕ} {f : WbPtr b → Frame} {e : EventQueueEntry b}
    (h : PendingWrite g n f e) (hv : e.valid = true) (store : ℤ → Option ℕ) :
    restamp e.merged e.sectorNb e.length store = Overlay.layer e.stamps store := by
  funext x
  rw [restamp, Overlay.layer_apply, EventQueueEntry.stamps]
  by_cases hx : Covers e.sectorNb e.length x
  · obtain ⟨i, hi⟩ := Option.isSome_iff_exists.mp ((h.covered x).mp hx)
    rw [if_pos hx, if_pos ⟨hv, hx⟩, hi, Option.some_or]
  · rw [if_neg hx, if_neg fun hx' => hx hx'.2, Option.none_or]

/-- **`FTL_WRITE` of the first pending write** stores its sectors and gives back its frames and those
of the orphans before it. -/
theorem Device.ftlWrite_eq (hnew : ∀ n, newPage n = .success) (fit : Prop) (reqs : List Request)
    {n : ℕ}
    (hwb : WbRep g n d.firm.wb orphans (w :: ws) []) (hv : w.2.valid = true)
    (hshape : d.firm.queues.Shape rs ws) :
    ∃ d' k, d.ftlWrite g newPage w.2.sectorNb w.2.length w.2.merged = .ok d' ∧
      d'.firm = { d.firm with
        wb := d.firm.wb.released (orphans ++ w.2.frames)
        store := Overlay.layer w.2.stamps d.firm.store
        newPageNb := k } ∧
      Device.Extends (Plain fit reqs) d d' := by
  have hw := hwb.events w (by simp)
  have hrange := hw.inRange
  set qs := orphans ++ w.2.frames with hqs
  set rest := ownedFrames ws with hrest
  have hsplit : orphans ++ (ownedFrames (w :: ws) ++ []) = qs ++ rest := by simp [hqs, hrest]
  have hspan := hwb.span
  have hle := hwb.le
  have hnd := hwb.nodup
  rw [hsplit] at hspan hle hnd
  have hfree : ∀ p ∈ qs, ∀ v ∈ ws, p ∉ v.2.frames := fun p hp v hv hpv =>
    (List.nodup_append.mp hnd).2.2 p hp p (mem_ownedFrames.mpr ⟨v, hv, hpv⟩) rfl
  have hcount : (qs.map d.firm.wb.frames).countP Frame.isValid = w.2.length := by
    have horphans : (orphans.map d.firm.wb.frames).countP Frame.isValid = 0 := by
      refine List.countP_eq_zero.mpr fun c hc => ?_
      obtain ⟨p, hp, rfl⟩ := List.mem_map.mp hc
      simp [Frame.isValid, hwb.orphan p hp]
    rw [hqs, List.map_append, List.countP_append, horphans, hw.countP_valid hv, Nat.zero_add]
  have hends : Ring.Ends Frame.isValid (qs.map d.firm.wb.frames) := by
    rw [hqs, List.map_append]
    exact (hw.ends hv).append _ fun hnil => absurd (List.map_eq_nil_iff.mp hnil) hw.frames_ne
  have hne : qs ≠ [] := by simp [hqs, hw.frames_ne]
  set d₀ := d.note (.ftlWrite w.2.sectorNb w.2.length) with hd₀
  have hlog₀ : Device.Extends (Plain fit reqs) d d₀ := .note ⟨⟨rs, ws, hshape, trivial⟩, rfl⟩
  obtain ⟨d₁, k, hd₁, hfirm₁, hlog₁⟩ := ftlWriteLoop_eq (d := d₀) hnew fit reqs w.2.merged
    (fun _ => Cursor.Ok.start hrange) (le_refl w.2.length) hspan hle hcount hends
    (WriteBuffer.drained_nil hwb.ftl).symm hshape hfree
  have hrun : d₁.firm.wb.increaseWbLimitPointer = .ok (d.firm.wb.released qs) := by
    rw [hfirm₁]
    exact WriteBuffer.increaseWbLimitPointer_drained hne hspan hle
  have hshape₁ : d₁.firm.queues.Shape rs ws := by
    rw [hfirm₁]
    exact hshape
  obtain ⟨d₂, hd₂, hfirm₂, hlog₂⟩ :=
    wbLoop_eq fit reqs .increaseWbLimitPointer none hrun hshape₁ fun p hp v hv _ hpv => hp <| by
      rw [hfirm₁]
      exact WriteBuffer.released_of_notMem fun hpq => hfree p hpq v hv hpv
  refine ⟨d₂, k, ?_, ?_, hlog₀.trans (hlog₁.trans hlog₂)⟩
  · rw [ftlWrite, if_neg hrange.toU32_le]
    simp only [ok_bind, hd₁, ← hd₀, hd₂]
  · rw [hfirm₂, hfirm₁]
    simp only [Cursor.start, hw.restamp_eq hv]
    rfl

/-! ### Taking an event off the queue -/

/-- `DEQUEUE_IO` of the event `r` at the head, up to the calls it makes. -/
theorem Device.dequeueIo_eq (g : Geometry) (newPage : ℕ → Ret)
    (hq : d.firm.queues.Rep rs ws cs fs) (hhead : rs ++ ws = r :: us) :
    ∃ n, d.firm.queues.heap.cell r.1 = some ⟨r.2, n⟩ ∧
      d.dequeueIo g newPage = (do
        let d ← (d.setQueues (d.firm.queues.unlinkHead r.1 ⟨r.2, n⟩)).execute g newPage r.1 r.2
        if r.2.ioType = .read then (d.firm.queues.completeRead r.1).map d.setQueues else .ok d) := by
  obtain ⟨hcount, hfirst, n, hcell, hderef⟩ := hq.head hhead
  refine ⟨n, hcell, ?_⟩
  simp only [Device.dequeueIo, if_neg hcount, hfirst, hderef, ok_bind]

/-- **`DEQUEUE_IO` of a write**: a valid one is stored and its frames are given back, those of an
invalid one become orphans. -/
theorem Core.dequeueIo_write (hnew : ∀ n, newPage n = .success) (fit : Prop)
    (h : Core g reqs d.firm [] (w :: ws) cs fs orphans) :
    ∃ d', d.dequeueIo g newPage = .ok d' ∧
      Core g reqs d'.firm [] ws cs fs (if w.2.valid then [] else orphans ++ w.2.frames) ∧
      d'.firm.rb = d.firm.rb ∧ Quiet fit reqs d d' := by
  obtain ⟨n, hcell, hrun⟩ := Device.dequeueIo_eq g newPage h.queues (List.nil_append _)
  have htype : w.2.ioType = .write := h.queues.writes w (by simp)
  have hq := h.queues.unlink_write hcell
  have htail : ∀ v ∈ ws.getLast?, v.2.valid = true := by
    intro v hv
    refine h.tail v ?_
    rw [List.getLast?_cons, Option.mem_def.mp hv]
    rfl
  set d₁ := d.setQueues (d.firm.queues.unlinkHead w.1 ⟨w.2, n⟩) with hd₁
  have hq₁ : d₁.firm.queues.Rep [] ws cs fs := hq
  simp only [htype, reduceCtorEq, if_false] at hrun
  by_cases hv : w.2.valid = true
  · obtain ⟨d', k, hd', hfirm, hlog⟩ :=
      Device.ftlWrite_eq (d := d₁) hnew fit reqs h.wb hv hq₁.toShape
    have hexec : d₁.execute g newPage w.1 w.2 = .ok d' := by
      rw [Device.execute, if_pos hv]
      simpa only [htype] using hd'
    refine ⟨d', ?_, ?_, ?_, ?_⟩
    · rw [hrun, hexec]
      rfl
    · rw [if_pos hv, hfirm]
      exact
        { queues := hq₁
          wb := h.wb.release
          value := h.value
          reads := by simp
          tail := htail
          nil := fun _ => rfl }
    · rw [hfirm]
      rfl
    · exact
        { log := .trans (.of_eq rfl) hlog
          label := fun p => by
            rw [hfirm]
            exact WriteBuffer.released_label p
          requestNb := by rw [hfirm]; rfl
          writeNb := by rw [hfirm]; rfl }
  · have hexec : d₁.execute g newPage w.1 w.2 = .ok d₁ := by rw [Device.execute, if_neg hv]
    have hnone : ∀ x, w.2.stamps x = none := fun x => if_neg fun hx => hv hx.1
    refine ⟨d₁, ?_, ?_, rfl, (Quiet.refl d).setQueues _⟩
    · rw [hrun, hexec]
      rfl
    · rw [if_neg hv]
      refine
        { queues := hq₁
          wb := h.wb.orphanHead (by simpa using hv)
          value := ?_
          reads := by simp
          tail := htail
          nil := ?_ }
      · rw [← h.value, List.map_cons, Overlay.stack_cons, Overlay.layer_none hnone]
        rfl
      · rintro rfl
        exact absurd (h.tail w (by simp)) hv

/-- `FTL_READ` of a read within the device. -/
theorem Device.ftlRead_eq {requestNb : ℕ} {sectorNb : ℤ} {length : ℕ}
    (hrange : InRange g sectorNb length) :
    d.ftlRead g requestNb sectorNb length =
      .ok ((d.note (.ftlRead requestNb sectorNb length)).setRb
        { d.firm.rb.increaseRbFtlPointer length with
          readLimitPtr := (d.firm.rb.increaseRbFtlPointer length).ftlReadPtr }) := by
  rw [ftlRead, if_neg hrange.toU32_le, ReadBuffer.increaseRbLimitPointer_eq]
  rfl

/-- **`DEQUEUE_IO` of a read**: it is completed, and the FTL executes it unless it has its data. -/
theorem Core.dequeueIo_read (newPage : ℕ → Ret)
    (h : Core g reqs d.firm (r :: rs) ws cs fs orphans)
    (hrb : fit → RbOk d.firm.rb cs (r :: rs)) :
    ∃ d' c, d.dequeueIo g newPage = .ok d' ∧ c.2.length = r.2.length ∧
      Core g reqs d'.firm rs ws (cs ++ [c]) fs orphans ∧
      (fit → RbOk d'.firm.rb (cs ++ [c]) rs) ∧ d'.firm.wb = d.firm.wb ∧ Quiet fit reqs d d' := by
  obtain ⟨n, hcell, hrun⟩ := Device.dequeueIo_eq g newPage h.queues List.cons_append
  have htype : r.2.ioType = .read := h.queues.reads r (by simp)
  have hread := h.reads r (by simp)
  have hreads : ∀ x ∈ rs, PendingRead g reqs d.firm.store x.2 :=
    fun x hx => h.reads x (List.mem_cons_of_mem _ hx)
  have hq := h.queues.unlink_read hcell
  set q := d.firm.queues.unlinkHead r.1 ⟨r.2, n⟩ with hqdef
  simp only [htype, if_true] at hrun
  rcases hbuf : r.2.buf with _ | p
  · -- the FTL executes it
    have hq₁ := hq.modify_float fun e => { e with buf := some (.rb d.firm.rb.ftlReadPtr) }
    set q₁ := q.modify r.1 fun e => { e with buf := some (.rb d.firm.rb.ftlReadPtr) } with hq₁def
    obtain ⟨q₂, hcomplete, hq₂⟩ := hq₁.completeRead
    set rb := { d.firm.rb.increaseRbFtlPointer r.2.length with
      readLimitPtr := (d.firm.rb.increaseRbFtlPointer r.2.length).ftlReadPtr } with hrbdef
    set d₁ := (((d.setQueues q₁).note (.ftlRead r.2.requestNb r.2.sectorNb r.2.length)).setRb rb)
      with hd₁
    have hexec : (d.setQueues q).execute g newPage r.1 r.2 = .ok d₁ := by
      rw [Device.execute, if_pos hread.valid]
      simp only [htype, hbuf, if_true]
      exact Device.ftlRead_eq hread.inRange
    refine ⟨d₁.setQueues q₂, (r.1, { r.2 with buf := some (.rb d.firm.rb.ftlReadPtr) }), ?_, rfl, ?_,
      fun hfit => (hrb hfit).complete_unowned hbuf _, rfl, ?_⟩
    · rw [hrun, hexec]
      exact congrArg (Except.map d₁.setQueues) hcomplete
    · exact { h with queues := hq₂, reads := hreads }
    · have hcall : CallOk fit reqs
          ⟨.ftlRead r.2.requestNb r.2.sectorNb r.2.length, (d.setQueues q₁).firm⟩ :=
        ⟨rs, ws, hq₁.toShape, hread.request, hread.upToDate hbuf⟩
      exact ((((Quiet.refl d).setQueues q₁).note ⟨hcall, rfl⟩).setRb rb).setQueues q₂
  · -- its data came from the write buffer
    obtain ⟨q₂, hcomplete, hq₂⟩ := hq.completeRead
    have hexec : (d.setQueues q).execute g newPage r.1 r.2 = .ok (d.setQueues q) := by
      rw [Device.execute, if_pos hread.valid]
      simp [htype, hbuf]
    refine ⟨(d.setQueues q).setQueues q₂, r, ?_, rfl, ?_,
      fun hfit => (hrb hfit).complete_owned (by simp [hbuf]), rfl,
      ((Quiet.refl d).setQueues q).setQueues q₂⟩
    · rw [hrun, hexec]
      exact congrArg (Except.map (d.setQueues q).setQueues) hcomplete
    · exact { h with queues := hq₂, reads := hreads }

/-! ### Flushing -/

private theorem Device.dequeueTimes_add (m n : ℕ) :
    d.dequeueTimes g newPage (m + n) =
      (d.dequeueTimes g newPage m >>= fun d => d.dequeueTimes g newPage n) := by
  induction m generalizing d with
  | zero =>
    rw [Nat.zero_add]
    rfl
  | succ m ih =>
    rw [Nat.add_right_comm, dequeueTimes, dequeueTimes, bind_assoc]
    exact bind_congr fun d => ih

/-- Taking all reads off the queue. -/
private theorem Core.dequeue_reads (newPage : ℕ → Ret) (h : Core g reqs d.firm rs ws cs fs orphans)
    (hrb : fit → RbOk d.firm.rb cs rs) :
    ∃ d' cs', d.dequeueTimes g newPage rs.length = .ok d' ∧
      totalLength cs' = totalLength cs + totalLength rs ∧
      Core g reqs d'.firm [] ws cs' fs orphans ∧ (fit → RbOk d'.firm.rb cs' []) ∧
      d'.firm.wb = d.firm.wb ∧ Quiet fit reqs d d' := by
  induction rs generalizing d cs with
  | nil => exact ⟨d, cs, rfl, rfl, h, hrb, rfl, .refl d⟩
  | cons r rs ih =>
    obtain ⟨d₁, c, hd₁, hlen, h₁, hrb₁, hwb₁, hquiet₁⟩ := h.dequeueIo_read newPage hrb
    obtain ⟨d', cs', hd', htotal, h', hrb', hwb', hquiet'⟩ := ih h₁ hrb₁
    refine ⟨d', cs', ?_, ?_, h', hrb', hwb'.trans hwb₁, hquiet₁.trans hquiet'⟩
    · rw [List.length_cons, Device.dequeueTimes, hd₁]
      exact hd'
    · simp only [totalLength_append, totalLength_cons, totalLength_nil] at htotal ⊢
      omega

/-- Taking writes off the queue. If the last of them is valid, no orphans remain. -/
private theorem Core.dequeue_writes (hnew : ∀ n, newPage n = .success) (fit : Prop)
    (h : Core g reqs d.firm [] (us ++ ws) cs fs orphans) :
    ∃ d' orphans', d.dequeueTimes g newPage us.length = .ok d' ∧
      Core g reqs d'.firm [] ws cs fs orphans' ∧
      (us = [] → orphans' = orphans) ∧ (∀ w ∈ us.getLast?, w.2.valid = true → orphans' = []) ∧
      d'.firm.rb = d.firm.rb ∧ Quiet fit reqs d d' := by
  induction us generalizing d orphans with
  | nil => exact ⟨d, orphans, rfl, h, fun _ => rfl, by simp, rfl, .refl d⟩
  | cons w us ih =>
    obtain ⟨d₁, hd₁, h₁, hrb₁, hquiet₁⟩ := h.dequeueIo_write hnew fit
    obtain ⟨d', orphans', hd', h', hnil, hlast, hrb', hquiet'⟩ := ih h₁
    refine ⟨d', orphans', ?_, h', by simp, ?_, hrb'.trans hrb₁, hquiet₁.trans hquiet'⟩
    · rw [List.length_cons, Device.dequeueTimes, hd₁]
      exact hd'
    · intro v hv hvalid
      rcases List.eq_nil_or_concat' us with rfl | ⟨us', u, rfl⟩
      · obtain rfl : w = v := by simpa using hv
        rw [hnil rfl, if_pos hvalid]
      · exact hlast v (by simpa [List.getLast?_cons] using hv) hvalid

/-- `FLUSH_EVENT_QUEUE_UNTIL` takes the events up to the given one off the queue. -/
theorem Device.flushEventQueueUntil_eq (g : Geometry) (newPage : ℕ → Ret)
    (hq : d.firm.queues.Rep rs ws cs fs) (hsplit : rs ++ ws = us ++ w :: vs) :
    d.flushEventQueueUntil g newPage (some w.1) = d.dequeueTimes g newPage (us.length + 1) := by
  have hpend := hsplit ▸ hq.pending
  have hhead : ∃ p, d.firm.queues.eQueue.head = some p := by
    rcases us with _ | ⟨u, us⟩
    · exact ⟨w.1, hpend.seg.1⟩
    · exact ⟨u.1, hpend.seg.1⟩
  obtain ⟨p, hp⟩ := hhead
  simp only [Device.flushEventQueueUntil, hp]
  split
  · next htail =>
    -- the event is the last one
    rcases List.eq_nil_or_concat' vs with rfl | ⟨vs, v, rfl⟩
    · rw [hpend.count, List.length_append, List.length_singleton]
      rfl
    · rw [hpend.tail, ← List.cons_append, ← List.append_assoc, lastAddr_concat] at htail
      have hnd := hpend.seg.nodup
      simp [addrs, Option.some.inj htail, List.nodup_append] at hnd
  · have hlen := EventQueues.length_le_brk hpend.seg
    rw [List.length_append] at hlen
    rw [EventQueues.countUntil_eq (a := w.1) (e := w.2) (hp ▸ hpend.seg) (by omega) 1,
      Nat.add_comm]
    rfl

/-- **Flushing up to a pending write**: all reads are completed, and the writes up to this one are
executed. -/
theorem Core.flush_write (hnew : ∀ n, newPage n = .success)
    (h : Core g reqs d.firm rs (us ++ w :: ws) cs fs orphans)
    (hrb : fit → RbOk d.firm.rb cs rs) (hv : w.2.valid = true) :
    ∃ d' cs', d.flushEventQueueUntil g newPage (some w.1) = .ok d' ∧
      totalLength cs' = totalLength cs + totalLength rs ∧
      Core g reqs d'.firm [] ws cs' fs [] ∧ (fit → RbOk d'.firm.rb cs' []) ∧
      Quiet fit reqs d d' := by
  obtain ⟨d₁, cs', hd₁, htotal, h₁, hrb₁, -, hquiet₁⟩ := h.dequeue_reads newPage hrb
  rw [List.append_cons] at h₁
  obtain ⟨d', orphans', hd', h', -, hlast, hrb', hquiet'⟩ := h₁.dequeue_writes hnew fit
  obtain rfl : orphans' = [] := hlast w (by simp) hv
  refine ⟨d', cs', ?_, htotal, h', fun hfit => hrb' ▸ hrb₁ hfit, hquiet₁.trans hquiet'⟩
  have hsplit : rs ++ (us ++ w :: ws) = (rs ++ us) ++ w :: ws := (List.append_assoc _ _ _).symm
  rw [Device.flushEventQueueUntil_eq g newPage h.queues hsplit, List.length_append, Nat.add_assoc,
    Device.dequeueTimes_add, hd₁]
  rwa [List.length_append, List.length_singleton] at hd'

/-- Flushing up to the last read. -/
private theorem Core.flush_reads (newPage : ℕ → Ret)
    (h : Core g reqs d.firm (rs ++ [r]) ws cs fs orphans)
    (hrb : fit → RbOk d.firm.rb cs (rs ++ [r])) :
    ∃ d' cs', d.flushEventQueueUntil g newPage d.firm.queues.lastReadEntry = .ok d' ∧
      Core g reqs d'.firm [] ws cs' fs orphans ∧ (fit → RbOk d'.firm.rb cs' []) ∧
      d'.firm.wb = d.firm.wb ∧ Quiet fit reqs d d' := by
  obtain ⟨d', cs', hd', -, h', hrb', hwb', hquiet⟩ := h.dequeue_reads newPage hrb
  refine ⟨d', cs', ?_, h', hrb', hwb', hquiet⟩
  have hsplit : (rs ++ [r]) ++ ws = rs ++ r :: ws := by simp
  rw [h.queues.last, lastAddr_concat, Device.flushEventQueueUntil_eq g newPage h.queues hsplit]
  rwa [List.length_append, List.length_singleton] at hd'

/-- **`SECURE_WRITE_BUFFER`** executes every pending event. -/
theorem Core.secureWriteBuffer (hnew : ∀ n, newPage n = .success)
    (h : Core g reqs d.firm rs ws cs fs orphans) (hne : rs ++ ws ≠ [])
    (hrb : fit → RbOk d.firm.rb cs rs) :
    ∃ d' cs', d.secureWriteBuffer g newPage = .ok d' ∧ Core g reqs d'.firm [] [] cs' fs [] ∧
      (fit → RbOk d'.firm.rb cs' []) ∧ Quiet fit reqs d d' := by
  rcases List.eq_nil_or_concat' ws with rfl | ⟨us, w, rfl⟩
  · rw [List.append_nil] at hne
    obtain ⟨us, r, rfl⟩ := (List.eq_nil_or_concat' rs).resolve_left hne
    obtain ⟨d', cs', hd', h', hrb', -, hquiet⟩ := h.flush_reads newPage hrb
    have htail : d.firm.queues.eQueue.tail = d.firm.queues.lastReadEntry := by
      rw [h.queues.pending.tail, h.queues.last, List.append_nil]
    obtain rfl := h'.nil rfl
    exact ⟨d', cs', by rw [Device.secureWriteBuffer, htail, hd'], h', hrb', hquiet⟩
  · obtain ⟨d', cs', hd', -, h', hrb', hquiet⟩ := h.flush_write hnew hrb (h.tail w (by simp))
    have htail : d.firm.queues.eQueue.tail = some w.1 := by
      rw [h.queues.pending.tail, ← List.append_assoc, lastAddr_concat]
    exact ⟨d', cs', by rw [Device.secureWriteBuffer, htail, hd'], h', hrb', hquiet⟩

/-! ### Handing data to the host -/

/-- `READ_DATA_FROM_BUFFER_TO_HOST` for the first completed read. -/
private theorem Device.readDataFromBufferToHost_quiet (reqs : List Request)
    (hshape : d.firm.queues.Shape rs ws)
    (hrb : fit → RbOk d.firm.rb (r :: cs) vs) :
    (d.readDataFromBufferToHost r.2).firm =
        { d.firm with rb := d.firm.rb.increaseRbSataPointer r.2.length } ∧
      Quiet fit reqs d (d.readDataFromBufferToHost r.2) := by
  have hcall : CallOk fit reqs ⟨.toHost r.2, d.firm⟩ :=
    ⟨rs, ws, hshape, fun hfit => (hrb hfit).consume.1⟩
  have hquiet := (Quiet.refl d).note ⟨hcall, rfl⟩
  by_cases hbuf : r.2.buf = some (.rb d.firm.rb.sataReadPtr)
  · have hrun : d.readDataFromBufferToHost r.2 =
        (d.note (.toHost r.2)).setRb (d.firm.rb.increaseRbSataPointer r.2.length) := by
      simp only [readDataFromBufferToHost, note, hbuf, if_true]
    rw [hrun]
    exact ⟨rfl, hquiet.setRb _⟩
  · have hrun : d.readDataFromBufferToHost r.2 =
        ((d.note (.toHost r.2)).note (.error .readDataFromBufferToHostSataPointer)).setRb
          (d.firm.rb.increaseRbSataPointer r.2.length) := by
      simp only [readDataFromBufferToHost, note, hbuf, if_false]
    have herror : CallOk fit reqs ⟨.error .readDataFromBufferToHostSataPointer, d.firm⟩ :=
      ⟨rs, ws, hshape, fun hfit => hbuf (hrb hfit).consume.1⟩
    rw [hrun]
    exact ⟨rfl, (hquiet.note ⟨herror, rfl⟩).setRb _⟩

/-- The root of the completed queue, when `p` is where the walk has arrived. -/
def Firm.completedFrom (s : Firm b) (p : Option ℕ) (cs : List (EventAt b)) : Firm b :=
  { s with queues := { s.queues with cEQueue := ⟨p, lastAddr none cs, cs.length⟩ } }

/-- The walk of `DEQUEUE_COMPLETED_READ` hands over one read after the other. The reads `vs` come
after them in the read buffer. -/
private theorem Core.dequeueCompletedReadLoop {p : Option ℕ} {fuel : ℕ}
    (h : Core g reqs (d.firm.completedFrom p cs) rs ws cs fs orphans)
    (hcount : d.firm.queues.cEQueue.count = cs.length) (hfuel : cs.length ≤ fuel)
    (hrb : fit → RbOk d.firm.rb cs vs) :
    ∃ d', d.dequeueCompletedReadLoop fuel p = .ok d' ∧
      Core g reqs (d'.firm.completedFrom none []) rs ws [] fs orphans ∧
      d'.firm.queues.cEQueue.count = 0 ∧ (fit → RbOk d'.firm.rb [] vs) ∧
      d'.firm.wb = d.firm.wb ∧ Quiet fit reqs d d' := by
  induction cs generalizing d p fuel with
  | nil =>
    obtain rfl : p = none := h.queues.completed.seg
    refine ⟨d, ?_, h, hcount, hrb, rfl, .refl d⟩
    cases fuel <;> rfl
  | cons c cs ih =>
    obtain ⟨fuel, rfl⟩ : ∃ k, fuel = k + 1 := ⟨fuel - 1, by simp at hfuel; omega⟩
    obtain ⟨hp, n, hlive, -⟩ := h.queues.completed.seg
    obtain rfl : p = some c.1 := hp
    have hcell : d.firm.queues.heap.cell c.1 = some ⟨c.2, n⟩ := hlive
    have hshape : d.firm.queues.Shape rs ws :=
      ⟨h.queues.pending, h.queues.last, h.queues.reads, h.queues.writes⟩
    obtain ⟨hfirm, hquiet⟩ := Device.readDataFromBufferToHost_quiet reqs hshape hrb
    set d₁ := d.readDataFromBufferToHost c.2 with hd₁
    set d₂ := d₁.setQueues { d₁.firm.queues with
      heap := d₁.firm.queues.heap.free c.1
      cEQueue := { d₁.firm.queues.cEQueue with count := d₁.firm.queues.cEQueue.count - 1 } }
      with hd₂
    have h₂ : Core g reqs (d₂.firm.completedFrom n cs) rs ws cs fs orphans := by
      rw [hd₂, Device.setQueues, hfirm]
      exact { h with queues := h.queues.free_completed hcell }
    have hcount₂ : d₂.firm.queues.cEQueue.count = cs.length := by
      rw [hd₂, Device.setQueues, hfirm]
      simp [hcount]
    have hrb₂ : fit → RbOk d₂.firm.rb cs vs := by
      rw [hd₂, Device.setQueues, hfirm]
      exact fun hfit => (hrb hfit).consume.2
    have hwb₂ : d₂.firm.wb = d.firm.wb := by
      rw [hd₂, Device.setQueues, hfirm]
    obtain ⟨d', hd', h', hcount', hrb', hwb', hquiet'⟩ := ih h₂ hcount₂ (by simpa using hfuel) hrb₂
    refine ⟨d', ?_, h', hcount', hrb', hwb'.trans hwb₂, (hquiet.setQueues _).trans hquiet'⟩
    rw [Device.dequeueCompletedReadLoop, EventQueues.deref_eq hcell]
    exact hd'

/-- **`DEQUEUE_COMPLETED_READ`** hands all completed reads to the host. -/
theorem Core.dequeueCompletedRead (h : Core g reqs d.firm rs ws cs fs orphans)
    (hrb : fit → RbOk d.firm.rb cs vs) :
    ∃ d', d.dequeueCompletedRead = .ok d' ∧ Core g reqs d'.firm rs ws [] fs orphans ∧
      (fit → RbOk d'.firm.rb [] vs) ∧ d'.firm.wb = d.firm.wb ∧ Quiet fit reqs d d' := by
  rcases cs with _ | ⟨c, cs⟩
  · refine ⟨d, if_pos (.inl h.queues.completed.count), h, hrb, rfl, .refl d⟩
  have hcount := h.queues.completed.count
  obtain ⟨hhead, n, hcell, -⟩ := h.queues.completed.seg
  have hsome : ¬ (d.firm.queues.cEQueue.count = 0 ∨ d.firm.queues.cEQueue.head = none) := by
    rw [hcount, hhead]
    simp
  have hroot : d.firm.completedFrom d.firm.queues.cEQueue.head (c :: cs) = d.firm := by
    rw [Firm.completedFrom, ← h.queues.completed.tail, ← hcount]
  obtain ⟨d₁, hd₁, h₁, hcount₁, hrb₁, hwb₁, hquiet₁⟩ :=
    Core.dequeueCompletedReadLoop (hroot.symm ▸ h) hcount
      (EventQueues.length_le_brk h.queues.completed.seg) hrb
  refine ⟨d₁.setQueues (d₁.firm.completedFrom none []).queues, ?_, h₁, hrb₁, hwb₁,
    hquiet₁.setQueues _⟩
  rw [Device.dequeueCompletedRead, if_neg hsome]
  simp only [ok_bind, hd₁, hcount₁, ne_eq, not_true, if_false]
  simp only [Firm.completedFrom, lastAddr, List.length_nil]

/-- **`SECURE_READ_BUFFER`** completes all reads and hands them to the host. -/
theorem Core.secureReadBuffer (newPage : ℕ → Ret) (h : Core g reqs d.firm rs ws cs fs orphans)
    (hrb : fit → RbOk d.firm.rb cs rs) :
    ∃ d', d.secureReadBuffer g newPage = .ok d' ∧ Core g reqs d'.firm [] ws [] fs orphans ∧
      (fit → RbOk d'.firm.rb [] []) ∧ d'.firm.wb = d.firm.wb ∧ Quiet fit reqs d d' := by
  obtain ⟨d₁, hd₁, h₁, hrb₁, hwb₁, hquiet₁⟩ := h.dequeueCompletedRead hrb
  have hfirst : d.secureReadBuffer g newPage =
      if d₁.firm.queues.lastReadEntry ≠ none then do
        let d ← d₁.flushEventQueueUntil g newPage d₁.firm.queues.lastReadEntry
        d.dequeueCompletedRead
      else .ok d₁ := by
    rw [Device.secureReadBuffer]
    by_cases hcount : d.firm.queues.cEQueue.count = 0
    · obtain rfl : d = d₁ := by
        rw [Device.dequeueCompletedRead, if_pos (.inl hcount)] at hd₁
        exact Except.ok.inj hd₁
      simp only [hcount, ne_eq, not_true, if_false]
      rfl
    · simp only [hcount, ne_eq, not_false_eq_true, if_true, hd₁]
      rfl
  rcases List.eq_nil_or_concat' rs with rfl | ⟨us, u, rfl⟩
  · have hlast : d₁.firm.queues.lastReadEntry = none := h₁.queues.last
    refine ⟨d₁, ?_, h₁, hrb₁, hwb₁, hquiet₁⟩
    rw [hfirst, if_neg (not_not.mpr hlast)]
  · have hlast : d₁.firm.queues.lastReadEntry ≠ none := by
      rw [h₁.queues.last, lastAddr_concat]
      simp
    obtain ⟨d₂, cs₂, hd₂, h₂, hrb₂, hwb₂, hquiet₂⟩ := h₁.flush_reads newPage hrb₁
    obtain ⟨d₃, hd₃, h₃, hrb₃, hwb₃, hquiet₃⟩ := h₂.dequeueCompletedRead hrb₂
    refine ⟨d₃, ?_, h₃, hrb₃, hwb₃.trans (hwb₂.trans hwb₁),
      hquiet₁.trans (hquiet₂.trans hquiet₃)⟩
    rw [hfirst, if_pos hlast, hd₂]
    exact hd₃

end Vssim
