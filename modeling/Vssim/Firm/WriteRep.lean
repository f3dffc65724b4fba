import Vssim.Firm.QueueRep
import Vssim.Ftl.Cursor

/-!
# Pending writes and the write buffer

The frames in use are a stretch of the ring from `write_limit_ptr` to `sata_write_ptr`, cut into
one piece per pending write in queue order (`WbRep`). A piece starts at the `buf` of its event. The
frames of a valid event that are `'V'` hold its sectors in order, each filled by the newest write
of that sector that the event has merged, and the others are `'I'` (`PendingWrite`). All frames of
an invalid event are `'I'`; once it has left the queue they are an **orphan** stretch in front,
which the next `FTL_WRITE` gives back.
-/

namespace Vssim

open LinkedHeap

variable {b : BufferConfig}

/-! ### Stamps -/

theorem Covers.iff {sectorNb : ℤ} {length : ℕ} {x : ℤ} :
    Covers sectorNb length x ↔ sectorNb ≤ x ∧ x < sectorNb + length := Iff.rfl

@[simp] theorem HostWrite.stamps_isSome {w : HostWrite} {x : ℤ} :
    (w.stamps x).isSome ↔ Covers w.sectorNb w.length x := by
  rw [stamps]
  split <;> simp_all

private theorem HostWrite.stamps_of_covers {w : HostWrite} {x : ℤ}
    (h : Covers w.sectorNb w.length x) : w.stamps x = some w.nb := if_pos h

private theorem HostWrite.stamps_of_not {w : HostWrite} {x : ℤ}
    (h : ¬ Covers w.sectorNb w.length x) : w.stamps x = none := if_neg h

@[simp] theorem lastStamp_nil (x : ℤ) : lastStamp [] x = none := rfl

theorem lastStamp_concat (ws : List HostWrite) (w : HostWrite) :
    lastStamp (ws ++ [w]) = Overlay.layer w.stamps (lastStamp ws) := by
  rw [lastStamp, List.map_append, List.map_singleton, Overlay.stack_concat]
  rfl

private theorem lastStamp_concat_of_covers {ws : List HostWrite} {w : HostWrite} {x : ℤ}
    (h : Covers w.sectorNb w.length x) : lastStamp (ws ++ [w]) x = some w.nb := by
  rw [lastStamp_concat, Overlay.layer_apply, HostWrite.stamps_of_covers h, Option.some_or]

private theorem lastStamp_concat_of_not {ws : List HostWrite} {w : HostWrite} {x : ℤ}
    (h : ¬ Covers w.sectorNb w.length x) : lastStamp (ws ++ [w]) x = lastStamp ws x := by
  rw [lastStamp_concat, Overlay.layer_apply, HostWrite.stamps_of_not h, Option.none_or]

/-! ### Frames -/

namespace Frame

/-- The cell is `'V'`. -/
def isValid (c : Frame) : Bool := c.valid == .valid

@[simp] theorem set_valid (v : WbValid) (c : Frame) : (c.set v).valid = v := rfl

@[simp] theorem set_label (v : WbValid) (c : Frame) : (c.set v).label = c.label := rfl

theorem isValid_iff {c : Frame} : c.isValid = true ↔ c.valid = .valid := by simp [isValid]

end Frame

/-- On frames that are `'V'` or `'I'`, not `'I'` means `'V'`. -/
private theorem Frame.isValid_eq {c : Frame} (h : c.valid = .valid ∨ c.valid = .invalid) :
    (c.valid != .invalid) = c.isValid := by
  rcases h with h | h <;> simp [Frame.isValid, h]

/-- A scan over a stretch of frames that ends with the last one it looks for; on these frames its
test is `P`. -/
theorem scanFrames_span {test : WbValid → Bool} {P : Frame → Bool} {put : Frame → Frame}
    {p : WbPtr b} {f : WbPtr b → Frame} {k : ℕ} {n : ℤ}
    (hP : ∀ q ∈ Ring.span p k, test (f q).valid = P (f q)) (hk : k ≤ b.writeBufferFrameNb)
    (hn : (((Ring.span p k).map f).countP P : ℤ) = n)
    (hends : Ring.Ends P ((Ring.span p k).map f)) :
    scanFrames test put n p f = .ok (Ring.advance p k, Ring.rewrite P put (Ring.span p k) f) := by
  have hP' : ∀ c ∈ (Ring.span p k).map f, test c.valid = P c := by
    intro c hc
    obtain ⟨q, hq, rfl⟩ := List.mem_map.mp hc
    exact hP q hq
  have hcount : ((Ring.span p k).map f).countP (fun c => test c.valid) =
      ((Ring.span p k).map f).countP P :=
    List.countP_congr fun c hc => by rw [hP' c hc]
  have hends' : Ring.Ends (fun c => test c.valid) ((Ring.span p k).map f) := fun c hc =>
    (hP' c (List.mem_of_getLast? hc)).trans (hends c hc)
  have hrewrite : Ring.rewrite (fun c => test c.valid) put (Ring.span p k) f =
      Ring.rewrite P put (Ring.span p k) f := by
    funext q
    by_cases hq : q ∈ Ring.span p k
    · simp only [Ring.rewrite, hP q hq]
    · rw [Ring.rewrite_of_notMem hq, Ring.rewrite_of_notMem hq]
  have hfuel : k ≤ b.writeBufferFrameNb *
      ((Ring.span p k).map f).countP (fun c => test c.valid) := by
    rcases Nat.eq_zero_or_pos k with rfl | hpos
    · exact Nat.zero_le _
    · have hne : (Ring.span p k).map f ≠ [] := by
        intro hnil
        have := congrArg List.length hnil
        simp only [List.length_map, Ring.length_span, List.length_nil] at this
        omega
      calc k ≤ b.writeBufferFrameNb * 1 := by omega
        _ ≤ _ := Nat.mul_le_mul_left _ (hends'.countP_pos hne)
  subst hn
  rw [scanFrames, if_neg (by omega), Int.toNat_natCast, ← hcount,
    Ring.scan_span hk hends' hfuel, hrewrite]

/-! ### Pending writes -/

namespace EventQueueEntry

/-- What executing the event stores. -/
def stamps (e : EventQueueEntry b) : ℤ → Option ℕ :=
  fun x => if e.valid ∧ Covers e.sectorNb e.length x then lastStamp e.merged x else none

/-- The labels of the newest frames of the event, sector by sector. -/
def labels (e : EventQueueEntry b) : List (Option (ℤ × ℕ)) :=
  (List.range e.length).map fun j : ℕ =>
    (lastStamp e.merged (e.sectorNb + j)).map fun i => (e.sectorNb + j, i)

@[simp] theorem length_labels (e : EventQueueEntry b) : e.labels.length = e.length := by
  simp [labels]

end EventQueueEntry

/-- A pending write over the frames `f`; its frames were filled by writes numbered below `n`. -/
structure PendingWrite (g : Geometry) (n : ℕ) (f : WbPtr b → Frame) (e : EventQueueEntry b) :
    Prop where
  inRange : InRange g e.sectorNb e.length
  covered : ∀ x, Covers e.sectorNb e.length x ↔ (lastStamp e.merged x).isSome
  frames_ne : e.frames ≠ []
  buf : e.buf = e.frames.head?.map BufPtr.wb
  stamped : ∀ p ∈ e.frames, ∃ x i, (f p).label = some (x, i) ∧ i < n
  distinct : (e.frames.map fun p => (f p).label).Nodup
  cells : e.valid = true → ∀ p ∈ e.frames, (f p).valid = .valid ∨ (f p).valid = .invalid
  ends : e.valid = true → Ring.Ends Frame.isValid (e.frames.map f)
  newest : e.valid = true → ((e.frames.map f).filter Frame.isValid).map Frame.label = e.labels
  dead : e.valid = false → ∀ p ∈ e.frames, (f p).valid = .invalid

namespace PendingWrite

variable {g : Geometry} {n : ℕ} {f f' : WbPtr b → Frame} {e : EventQueueEntry b}

/-- A pending write depends on its own frames only. -/
private theorem congr (h : PendingWrite g n f e) (hf : ∀ p ∈ e.frames, f' p = f p) :
    PendingWrite g n f' e := by
  have hmap : e.frames.map f' = e.frames.map f := List.map_congr_left hf
  have hlabel : (e.frames.map fun p => (f' p).label) = e.frames.map fun p => (f p).label :=
    List.map_congr_left fun p hp => by rw [hf p hp]
  exact
    { inRange := h.inRange
      covered := h.covered
      frames_ne := h.frames_ne
      buf := h.buf
      stamped := fun p hp => by rw [hf p hp]; exact h.stamped p hp
      distinct := hlabel ▸ h.distinct
      cells := fun hv p hp => by rw [hf p hp]; exact h.cells hv p hp
      ends := fun hv => hmap ▸ h.ends hv
      newest := fun hv => hmap ▸ h.newest hv
      dead := fun hv p hp => by rw [hf p hp]; exact h.dead hv p hp }

private theorem mono (h : PendingWrite g n f e) {m : ℕ} (hnm : n ≤ m) : PendingWrite g m f e :=
  { h with
    stamped := fun p hp => by
      obtain ⟨x, i, hl, hi⟩ := h.stamped p hp
      exact ⟨x, i, hl, by omega⟩ }

/-- A valid pending write has one frame `'V'` per sector. -/
theorem countP_valid (h : PendingWrite g n f e) (hv : e.valid = true) :
    (e.frames.map f).countP Frame.isValid = e.length := by
  rw [List.countP_eq_length_filter, ← e.length_labels, ← h.newest hv, List.length_map]

theorem length_le (h : PendingWrite g n f e) (hv : e.valid = true) :
    e.length ≤ e.frames.length := by
  rw [← h.countP_valid hv]
  exact List.countP_le_length.trans (by simp)

/-- The event after all its frames have been marked. -/
private theorem invalidate (h : PendingWrite g n f e) (hv : e.valid = true) :
    PendingWrite g n (Ring.rewrite Frame.isValid (Frame.set .invalid) e.frames f)
      { e with valid := false } := by
  have hlabel : ∀ p, (Ring.rewrite Frame.isValid (Frame.set .invalid) e.frames f p).label =
      (f p).label := by
    intro p
    rw [Ring.rewrite]
    split <;> simp
  refine
    { inRange := h.inRange
      covered := h.covered
      frames_ne := h.frames_ne
      buf := h.buf
      stamped := fun p hp => by rw [hlabel]; exact h.stamped p hp
      distinct := by simpa only [hlabel] using h.distinct
      cells := fun hv => by simp at hv
      ends := fun hv => by simp at hv
      newest := fun hv => by simp at hv
      dead := fun _ p hp => ?_ }
  rw [Ring.rewrite]
  rcases h.cells hv p hp with hc | hc
  · rw [if_pos ⟨hp, Frame.isValid_iff.mpr hc⟩, Frame.set_valid]
  · rw [if_neg (by simp [Frame.isValid, hc]), hc]

end PendingWrite

/-- The frames that a write fills, in order. -/
def HostWrite.filled (w : HostWrite) : List Frame :=
  (List.range w.length).map fun j : ℕ => ⟨.valid, some (w.sectorNb + j, w.nb)⟩

namespace PendingWrite

variable {g : Geometry} {n : ℕ} {f f' : WbPtr b → Frame} {e : EventQueueEntry b} {w : HostWrite}
  {extra : List (WbPtr b)}

private theorem filled_valid (hextra : extra.map f = w.filled) {p : WbPtr b} (hp : p ∈ extra) :
    (f p).valid = .valid ∧ ∃ j, j < w.length ∧ (f p).label = some (w.sectorNb + (j : ℤ), w.nb) := by
  have hmem : f p ∈ w.filled := hextra ▸ List.mem_map_of_mem hp
  obtain ⟨j, hj, heq⟩ := List.mem_map.mp hmem
  rw [← heq]
  exact ⟨rfl, j, List.mem_range.mp hj, rfl⟩

private theorem filled_ends (hextra : extra.map f = w.filled) :
    Ring.Ends Frame.isValid (extra.map f) := by
  intro c hc
  obtain ⟨p, hp, rfl⟩ := List.mem_map.mp (List.mem_of_getLast? hc)
  exact Frame.isValid_iff.mpr (filled_valid hextra hp).1

private theorem filled_filter (hextra : extra.map f = w.filled) :
    ((extra.map f).filter Frame.isValid).map Frame.label =
      (List.range w.length).map fun j : ℕ => some (w.sectorNb + (j : ℤ), w.nb) := by
  have hall : ∀ c ∈ extra.map f, Frame.isValid c = true := by
    intro c hc
    obtain ⟨p, hp, rfl⟩ := List.mem_map.mp hc
    exact Frame.isValid_iff.mpr (filled_valid hextra hp).1
  rw [List.filter_eq_self.mpr hall, hextra, HostWrite.filled, List.map_map]
  rfl

private theorem filled_distinct (hextra : extra.map f = w.filled) :
    (extra.map fun p => (f p).label).Nodup := by
  have hmap : (extra.map fun p => (f p).label) =
      (List.range w.length).map fun j : ℕ => some (w.sectorNb + (j : ℤ), w.nb) := by
    have := congrArg (List.map Frame.label) hextra
    rw [List.map_map, HostWrite.filled, List.map_map] at this
    exact this
  rw [hmap]
  refine List.nodup_range.map_on fun i _ j _ hij => ?_
  simp only [Option.some.injEq, Prod.mk.injEq, and_true] at hij
  omega

/-- **Merging a write** into a pending one: of its frames only those of the first `offset` sectors
are still `'V'`, and the new write covers the sectors behind these. -/
theorem merge (h : PendingWrite g n f e) (hv : e.valid = true) {offset : ℕ}
    (hlabel : ∀ p ∈ e.frames, (f' p).label = (f p).label)
    (hcells : ∀ p ∈ e.frames, (f' p).valid = .valid ∨ (f' p).valid = .invalid)
    (hnewest : ((e.frames.map f').filter Frame.isValid).map Frame.label = e.labels.take offset)
    (hoff : offset ≤ e.length) (hend : e.length ≤ offset + w.length)
    (hsector : w.sectorNb = e.sectorNb + offset) (hreq : InRange g w.sectorNb w.length)
    (hnb : w.nb = n) (hextra : extra.map f' = w.filled) :
    PendingWrite g (n + 1) f'
      { e with
        length := offset + w.length
        merged := e.merged ++ [w]
        frames := e.frames ++ extra } := by
  have hpos := hreq.pos
  have hextra_ne : extra.map f' ≠ [] := by
    rw [hextra, HostWrite.filled]
    simp
    omega
  have hstamp : ∀ x, Covers e.sectorNb (offset + w.length) x ↔
      (lastStamp (e.merged ++ [w]) x).isSome := by
    intro x
    by_cases hx : Covers w.sectorNb w.length x
    · rw [lastStamp_concat_of_covers hx]
      simp only [Covers.iff, Option.isSome_some, iff_true] at hx ⊢
      push_cast
      omega
    · rw [lastStamp_concat_of_not hx, ← h.covered x]
      simp only [Covers.iff] at hx ⊢
      push_cast
      omega
  refine
    { inRange := ?_
      covered := hstamp
      frames_ne := by simp [h.frames_ne]
      buf := ?_
      stamped := fun p hp => ?_
      distinct := ?_
      cells := fun _ p hp => ?_
      ends := fun _ => ?_
      newest := fun _ => ?_
      dead := fun hd => absurd (hv.symm.trans hd) (by simp) }
  · have hd := hreq.le_device
    have hi := hreq.le_int32
    have h0 := h.inRange.nonneg
    exact ⟨h0, by dsimp only; omega, by push_cast; omega, by push_cast; omega⟩
  · rw [h.buf]
    obtain ⟨q, qs, hqs⟩ := List.exists_cons_of_ne_nil h.frames_ne
    simp [hqs]
  · rcases List.mem_append.mp hp with hp | hp
    · obtain ⟨x, i, hl, hi⟩ := h.stamped p hp
      exact ⟨x, i, (hlabel p hp).trans hl, by omega⟩
    · obtain ⟨-, j, -, hl⟩ := filled_valid hextra hp
      exact ⟨_, _, hl, by omega⟩
  · -- the new stamp is larger than all stamps of the event
    rw [List.map_append, List.nodup_append]
    refine ⟨?_, filled_distinct hextra, ?_⟩
    · rw [List.map_congr_left hlabel]
      exact h.distinct
    · intro l hl l' hl' heq
      obtain ⟨p, hp, rfl⟩ := List.mem_map.mp hl
      obtain ⟨p', hp', rfl⟩ := List.mem_map.mp hl'
      obtain ⟨x, i, hx, hi⟩ := h.stamped p hp
      obtain ⟨-, j, -, hj⟩ := filled_valid hextra hp'
      rw [hlabel p hp, hx, hj] at heq
      simp only [Option.some.injEq, Prod.mk.injEq] at heq
      omega
  · rcases List.mem_append.mp hp with hp | hp
    · exact hcells p hp
    · exact .inl (filled_valid hextra hp).1
  · rw [List.map_append]
    exact (filled_ends hextra).append _ fun hnil => absurd hnil hextra_ne
  · rw [List.map_append, List.filter_append, List.map_append, hnewest, filled_filter hextra,
      EventQueueEntry.labels, EventQueueEntry.labels, ← List.map_take, List.take_range,
      Nat.min_eq_left hoff, List.range_add, List.map_append, List.map_map]
    refine congr_arg₂ _ (List.map_congr_left fun j hj => ?_) (List.map_congr_left fun j hj => ?_)
    · have hx : ¬ Covers w.sectorNb w.length (e.sectorNb + j) := by
        simp only [List.mem_range] at hj
        simp only [Covers.iff]
        omega
      rw [lastStamp_concat_of_not hx]
    · have hx : Covers w.sectorNb w.length (e.sectorNb + (offset + j : ℕ)) := by
        simp only [List.mem_range] at hj
        simp only [Covers.iff]
        push_cast
        omega
      have hadd : w.sectorNb + (j : ℤ) = e.sectorNb + (offset + j : ℕ) := by
        push_cast
        omega
      simp only [Function.comp_apply, lastStamp_concat_of_covers hx, Option.map_some, hadd]

/-- A new pending write. -/
theorem new (hreq : InRange g w.sectorNb w.length) (hnb : w.nb = n)
    (hextra : extra.map f = w.filled) (requestNb : ℕ) :
    PendingWrite g (n + 1) f
      { ioType := .write
        valid := true
        sectorNb := w.sectorNb
        length := w.length
        buf := extra.head?.map .wb
        requestNb
        merged := [w]
        frames := extra } := by
  have hpos := hreq.pos
  have hne : extra ≠ [] := by
    rintro rfl
    have := congrArg List.length hextra
    simp only [List.map_nil, List.length_nil, HostWrite.filled, List.length_map,
      List.length_range] at this
    omega
  have hstamp : ∀ x, Covers w.sectorNb w.length x → lastStamp ([] ++ [w]) x = some w.nb :=
    fun x hx => lastStamp_concat_of_covers hx
  refine
    { inRange := hreq
      covered := fun x => ?_
      frames_ne := hne
      buf := rfl
      stamped := fun p hp => ?_
      distinct := filled_distinct hextra
      cells := fun _ p hp => .inl (filled_valid hextra hp).1
      ends := fun _ => filled_ends hextra
      newest := fun _ => ?_
      dead := fun hd => by simp at hd }
  · by_cases hx : Covers w.sectorNb w.length x
    · exact iff_of_true hx (Option.isSome_iff_exists.mpr ⟨_, hstamp x hx⟩)
    · have : lastStamp ([] ++ [w]) x = none := lastStamp_concat_of_not hx
      simpa [hx] using this
  · obtain ⟨-, j, -, hl⟩ := filled_valid hextra hp
    exact ⟨_, _, hl, by omega⟩
  · rw [filled_filter hextra, EventQueueEntry.labels]
    refine List.map_congr_left fun j hj => ?_
    have hx : Covers w.sectorNb w.length (w.sectorNb + j) := by
      simp only [List.mem_range] at hj
      simp only [Covers.iff]
      omega
    exact (congrArg (Option.map _) (hstamp _ hx)).symm

end PendingWrite

/-- The frames of the pending writes, in queue order. -/
def ownedFrames (ws : List (EventAt b)) : List (WbPtr b) := ws.flatMap fun w => w.2.frames

@[simp] theorem ownedFrames_nil : ownedFrames ([] : List (EventAt b)) = [] := rfl

@[simp] theorem ownedFrames_cons (w : EventAt b) (ws : List (EventAt b)) :
    ownedFrames (w :: ws) = w.2.frames ++ ownedFrames ws := List.flatMap_cons

@[simp] theorem ownedFrames_append (us ws : List (EventAt b)) :
    ownedFrames (us ++ ws) = ownedFrames us ++ ownedFrames ws := List.flatMap_append

theorem mem_ownedFrames {p : WbPtr b} {ws : List (EventAt b)} :
    p ∈ ownedFrames ws ↔ ∃ w ∈ ws, p ∈ w.2.frames := List.mem_flatMap

/-- The write buffer between two steps: the frames in use, from `write_limit_ptr` on, are those of
the orphans, of the pending writes `ws`, and the ones of `extra`, which the write being enqueued
has just filled. -/
structure WbRep (g : Geometry) (n : ℕ) (s : WriteBuffer b) (orphans : List (WbPtr b))
    (ws : List (EventAt b)) (extra : List (WbPtr b)) : Prop where
  ftl : s.ftlWritePtr = s.writeLimitPtr
  span : orphans ++ (ownedFrames ws ++ extra) =
    Ring.span s.writeLimitPtr (orphans ++ (ownedFrames ws ++ extra)).length
  le : (orphans ++ (ownedFrames ws ++ extra)).length ≤ b.writeBufferFrameNb
  sata : s.sataWritePtr =
    Ring.advance s.writeLimitPtr (orphans ++ (ownedFrames ws ++ extra)).length
  empty : s.emptyWriteBufferFrame =
    b.writeBufferFrameNb - (orphans ++ (ownedFrames ws ++ extra)).length
  zero : ∀ p, p ∉ orphans ++ (ownedFrames ws ++ extra) → (s.frames p).valid = .zero
  orphan : ∀ p ∈ orphans, (s.frames p).valid = .invalid
  events : ∀ w ∈ ws, PendingWrite g n s.frames w.2

namespace WriteBuffer

/-- The write buffer when the FTL has taken the frames `ps`, the first ones in use. -/
def drained (s : WriteBuffer b) (ps : List (WbPtr b)) : WriteBuffer b :=
  { s with
    frames := Ring.rewrite Frame.isValid (Frame.set .ftl) ps s.frames
    ftlWritePtr := Ring.advance s.writeLimitPtr ps.length }

/-- The write buffer when the frames `ps`, the first ones in use, have been given back. -/
def released (s : WriteBuffer b) (ps : List (WbPtr b)) : WriteBuffer b :=
  { s with
    frames := fun q => if q ∈ ps then (s.frames q).set .zero else s.frames q
    ftlWritePtr := Ring.advance s.writeLimitPtr ps.length
    writeLimitPtr := Ring.advance s.writeLimitPtr ps.length
    emptyWriteBufferFrame := s.emptyWriteBufferFrame + ps.length }

variable {s : WriteBuffer b} {ps qs rest : List (WbPtr b)}

@[simp] theorem released_label (q : WbPtr b) :
    ((s.released ps).frames q).label = (s.frames q).label := by
  simp only [released]
  split <;> simp

theorem drained_nil (h : s.ftlWritePtr = s.writeLimitPtr) : s.drained [] = s := by
  have hframes : Ring.rewrite Frame.isValid (Frame.set .ftl) [] s.frames = s.frames :=
    funext fun q => Ring.rewrite_of_notMem List.not_mem_nil
  have hptr : Ring.advance s.writeLimitPtr 0 = s.ftlWritePtr := by rw [Ring.advance_zero, h]
  rw [drained, hframes, List.length_nil, hptr]

/-- `INCREASE_WB_FTL_POINTER` takes the next frames. -/
theorem increaseWbFtlPointer_drained {n : ℕ} (hn : n < 2 ^ 31)
    (hspan : ps ++ (qs ++ rest) = Ring.span s.writeLimitPtr (ps ++ (qs ++ rest)).length)
    (hle : (ps ++ (qs ++ rest)).length ≤ b.writeBufferFrameNb)
    (hcount : (qs.map s.frames).countP Frame.isValid = n)
    (hends : Ring.Ends Frame.isValid (qs.map s.frames)) :
    (s.drained ps).increaseWbFtlPointer n = .ok (s.drained (ps ++ qs)) := by
  have hqs : qs = Ring.span (s.drained ps).ftlWritePtr qs.length :=
    (Ring.span_split (Ring.span_split hspan.symm).2.symm).1
  have hnd : (ps ++ (qs ++ rest)).Nodup := by
    rw [hspan]
    exact Ring.nodup_span _ hle
  simp only [List.length_append] at hle
  have hsame : ∀ q ∈ qs, (s.drained ps).frames q = s.frames q := fun q hq =>
    Ring.rewrite_of_notMem fun hp =>
      (List.nodup_append.mp hnd).2.2 q hp q (List.mem_append_left _ hq) rfl
  have hmap : qs.map (s.drained ps).frames = qs.map s.frames := List.map_congr_left hsame
  have hn' : toI32 (n : ℤ) = n := toI32_of_bounds (by omega) (by exact_mod_cast hn)
  have hscan : scanFrames (fun v => v == .valid) (Frame.set .ftl) n (s.drained ps).ftlWritePtr
      (s.drained ps).frames =
      .ok (Ring.advance (s.drained ps).ftlWritePtr qs.length,
        Ring.rewrite Frame.isValid (Frame.set .ftl) qs (s.drained ps).frames) := by
    rw [scanFrames_span (P := Frame.isValid) (k := qs.length) (fun _ _ => rfl) (by omega)
      (by rw [← hqs, hmap, hcount]) (by rwa [← hqs, hmap]), ← hqs]
  rw [increaseWbFtlPointer, hn', hscan]
  refine congrArg Except.ok ?_
  have hframes : Ring.rewrite Frame.isValid (Frame.set .ftl) qs (s.drained ps).frames =
      Ring.rewrite Frame.isValid (Frame.set .ftl) (ps ++ qs) s.frames := by
    funext q
    by_cases hq : q ∈ qs
    · simp only [Ring.rewrite, hsame q hq, hq, List.mem_append, or_true]
    · rw [Ring.rewrite_of_notMem hq]
      simp [drained, Ring.rewrite, hq]
  simp only [hframes]
  simp only [drained, Ring.advance_advance, List.length_append]

/-- `INCREASE_WB_LIMIT_POINTER` gives back what the FTL has taken. -/
theorem increaseWbLimitPointer_drained (hne : ps ≠ [])
    (hspan : ps ++ rest = Ring.span s.writeLimitPtr (ps ++ rest).length)
    (hle : (ps ++ rest).length ≤ b.writeBufferFrameNb) :
    (s.drained ps).increaseWbLimitPointer = .ok (s.released ps) := by
  have hps := (Ring.span_split hspan.symm).1
  rw [List.length_append] at hle
  have hsweep : Ring.sweep (Frame.set .zero) (Ring.advance s.writeLimitPtr ps.length)
      b.writeBufferFrameNb s.writeLimitPtr (s.drained ps).frames = _ :=
    Ring.sweep_span (List.length_pos_of_ne_nil hne) (by omega) (by omega)
  rw [← hps] at hsweep
  rw [increaseWbLimitPointer]
  simp only [drained] at hsweep ⊢
  rw [hsweep]
  refine congrArg Except.ok ?_
  simp only [released, WriteBuffer.mk.injEq, and_true]
  funext q
  by_cases hq : q ∈ ps
  · simp only [hq, if_true, Ring.rewrite, true_and]
    split <;> rfl
  · simp [hq, Ring.rewrite]

end WriteBuffer

namespace WbRep

variable {g : Geometry} {n : ℕ} {s : WriteBuffer b} {orphans extra : List (WbPtr b)}
  {ws us vs : List (EventAt b)} {w : EventAt b} {a : ℕ} {e : EventQueueEntry b}

theorem nodup (h : WbRep g n s orphans ws extra) :
    (orphans ++ (ownedFrames ws ++ extra)).Nodup := by
  rw [h.span]
  exact Ring.nodup_span _ h.le

/-- The frames of a pending write are a stretch of the ring that starts at its `buf` and belongs to
nothing else. -/
theorem segment (h : WbRep g n s orphans (us ++ w :: vs) extra) :
    ∃ p, w.2.buf = some (.wb p) ∧ w.2.frames = Ring.span p w.2.frames.length ∧
      w.2.frames.length ≤ b.writeBufferFrameNb ∧
      ∀ q ∈ w.2.frames, q ∉ orphans ∧ q ∉ extra ∧ ∀ v ∈ us ++ vs, q ∉ v.2.frames := by
  have hw := h.events w (by simp)
  have hsplit : orphans ++ (ownedFrames (us ++ w :: vs) ++ extra) =
      (orphans ++ ownedFrames us) ++ (w.2.frames ++ (ownedFrames vs ++ extra)) := by simp
  have hspan := h.span
  have hle := h.le
  have hnd := h.nodup
  rw [hsplit] at hspan hle hnd
  have hpart := (Ring.span_split (Ring.span_split hspan.symm).2.symm).1
  refine ⟨_, ?_, hpart, ?_, fun q hq => ?_⟩
  · obtain ⟨q, qs, hqs⟩ := List.exists_cons_of_ne_nil hw.frames_ne
    have hhead := congrArg List.head? hpart
    rw [hqs, List.length_cons, Ring.span_succ] at hhead
    rw [hw.buf, hqs]
    exact congrArg (Option.map BufPtr.wb) hhead
  · simp only [List.length_append] at hle
    omega
  · rw [List.nodup_append, List.nodup_append, List.nodup_append, List.nodup_append] at hnd
    simp only [List.mem_append, mem_ownedFrames] at hnd ⊢
    grind

/-- The frame at `sata_write_ptr` is free as long as there is room. -/
theorem sata_notMem (h : WbRep g n s orphans ws extra)
    (hroom : (orphans ++ (ownedFrames ws ++ extra)).length < b.writeBufferFrameNb) :
    s.sataWritePtr ∉ orphans ++ (ownedFrames ws ++ extra) := by
  rw [h.span, h.sata]
  intro hmem
  obtain ⟨i, hi, heq⟩ := Ring.mem_span.mp hmem
  have := Ring.advance_inj _ hi.le (by omega) heq
  omega

/-- Fill the frame at `sata_write_ptr`. -/
theorem fill (h : WbRep g n s orphans ws extra)
    (hroom : (orphans ++ (ownedFrames ws ++ extra)).length < b.writeBufferFrameNb)
    (label : ℤ × ℕ) :
    WbRep g n (s.fill label) orphans ws (extra ++ [s.sataWritePtr]) := by
  have hfree := h.sata_notMem hroom
  have hother : ∀ p, p ∈ orphans ++ (ownedFrames ws ++ extra) →
      (s.fill label).frames p = s.frames p :=
    fun p hp => Function.update_of_ne (ne_of_mem_of_not_mem hp hfree) _ _
  have hsplit : orphans ++ (ownedFrames ws ++ (extra ++ [s.sataWritePtr])) =
      (orphans ++ (ownedFrames ws ++ extra)) ++ [s.sataWritePtr] := by simp
  have hlen : (orphans ++ (ownedFrames ws ++ (extra ++ [s.sataWritePtr]))).length =
      (orphans ++ (ownedFrames ws ++ extra)).length + 1 := by
    rw [hsplit, List.length_append, List.length_singleton]
  refine
    { ftl := h.ftl
      span := ?_
      le := by omega
      sata := ?_
      empty := ?_
      zero := fun p hp => ?_
      orphan := fun p hp => ?_
      events := fun w hw => (h.events w hw).congr fun p hp => ?_ }
  · rw [hlen, Ring.span_add, hsplit]
    refine congr_arg₂ _ h.span ?_
    rw [h.sata, Ring.span_succ]
    rfl
  · rw [hlen, ← Ring.advance_advance, ← Ring.next_eq_advance]
    exact congrArg Ring.next h.sata
  · rw [hlen, WriteBuffer.fill, h.empty]
    push_cast
    omega
  · rw [hsplit, List.mem_append, not_or, List.mem_singleton] at hp
    rw [WriteBuffer.fill]
    exact (congrArg Frame.valid (Function.update_of_ne hp.2 _ _)).trans (h.zero p hp.1)
  · rw [hother p (List.mem_append_left _ hp)]
    exact h.orphan p hp
  · refine hother p (List.mem_append_right _ (List.mem_append_left _ ?_))
    exact mem_ownedFrames.mpr ⟨w, hw, hp⟩

/-- Replace a pending write, when only its own frames change; it may take over frames of
`extra`. -/
theorem replace (h : WbRep g n s orphans (us ++ (a, e) :: vs) extra) {f : WbPtr b → Frame}
    (hother : ∀ q, q ∉ e.frames → f q = s.frames q) {e' : EventQueueEntry b}
    {extra' : List (WbPtr b)} {m : ℕ} (hnm : n ≤ m) (he' : PendingWrite g m f e')
    (hsame : ownedFrames (us ++ (a, e') :: vs) ++ extra' =
      ownedFrames (us ++ (a, e) :: vs) ++ extra) :
    WbRep g m { s with frames := f } orphans (us ++ (a, e') :: vs) extra' := by
  obtain ⟨-, -, -, -, hsep⟩ := h.segment
  refine
    { ftl := h.ftl
      span := hsame ▸ h.span
      le := hsame ▸ h.le
      sata := hsame ▸ h.sata
      empty := hsame ▸ h.empty
      zero := fun q hq => ?_
      orphan := fun q hq => ?_
      events := fun w hw => ?_ }
  · rw [hsame] at hq
    have hqe : q ∉ e.frames := by
      simp only [ownedFrames_append, ownedFrames_cons, List.mem_append, not_or] at hq
      exact hq.2.1.2.1
    exact (congrArg Frame.valid (hother q hqe)).trans (h.zero q hq)
  · exact (congrArg Frame.valid (hother q fun hqe => (hsep q hqe).1 hq)).trans (h.orphan q hq)
  · rcases List.mem_append.mp hw with hw | hw
    · exact ((h.events w (by simp [hw])).mono hnm).congr fun q hq => hother q fun hqe =>
        (hsep q hqe).2.2 w (by simp [hw]) hq
    rcases List.mem_cons.mp hw with rfl | hw
    · exact he'
    · exact ((h.events w (by simp [hw])).mono hnm).congr fun q hq => hother q fun hqe =>
        (hsep q hqe).2.2 w (by simp [hw]) hq

/-- The length of a valid pending write fits in an `int`. -/
theorem length_lt (h : WbRep g n s orphans (us ++ (a, e) :: vs) extra) (hv : e.valid = true) :
    e.length ≤ e.frames.length ∧ e.frames.length ≤ b.writeBufferFrameNb ∧
      e.length < 2 ^ 31 := by
  obtain ⟨-, -, -, hle, -⟩ := h.segment
  have hlen : e.length ≤ e.frames.length := (h.events (a, e) (by simp)).length_le hv
  have hlt := b.writeBufferFrameNb_lt
  exact ⟨hlen, hle, by dsimp only at hle; omega⟩

/-- Marking all frames of a pending write. -/
theorem invalidate (h : WbRep g n s orphans (us ++ (a, e) :: vs) extra) (hv : e.valid = true)
    {p : WbPtr b} (hp : e.buf = some (.wb p)) :
    s.updateWbValidArray p e.length .invalid =
        .ok { s with frames := Ring.rewrite Frame.isValid (Frame.set .invalid) e.frames s.frames } ∧
      WbRep g n
        { s with frames := Ring.rewrite Frame.isValid (Frame.set .invalid) e.frames s.frames }
        orphans (us ++ (a, { e with valid := false }) :: vs) extra := by
  have hw := h.events (a, e) (by simp)
  obtain ⟨p', hp', hspan, hle, hsep⟩ := h.segment
  obtain rfl : p' = p := by
    rw [hp] at hp'
    cases hp'
    rfl
  have hlen : toI32 (e.length : ℤ) = e.length :=
    toI32_of_bounds (by omega) (by exact_mod_cast (h.length_lt hv).2.2)
  constructor
  · rw [WriteBuffer.updateWbValidArray, hlen,
      scanFrames_span (P := Frame.isValid) (k := e.frames.length) (fun _ _ => rfl) hle (by
        rw [← hspan]
        exact congrArg Nat.cast (hw.countP_valid hv)) (by
        rw [← hspan]
        exact hw.ends hv), ← hspan]
    rfl
  · exact h.replace (fun q hq => Ring.rewrite_of_notMem hq) le_rfl (hw.invalidate hv) (by simp)

/-- Marking the rear frames of a pending write: those of its first `offset` sectors stay `'V'`. -/
theorem markRear (h : WbRep g n s orphans (us ++ (a, e) :: vs) extra) (hv : e.valid = true)
    {p : WbPtr b} (hp : e.buf = some (.wb p)) {offset k : ℕ} (hk : offset + k = e.length) :
    ∃ f, s.updateWbValidArrayPartial p e.length .invalid k = .ok { s with frames := f } ∧
      (∀ q, q ∉ e.frames → f q = s.frames q) ∧
      (∀ q, (f q).label = (s.frames q).label) ∧
      (∀ q ∈ e.frames, (f q).valid = .valid ∨ (f q).valid = .invalid) ∧
      ((e.frames.map f).filter Frame.isValid).map Frame.label = e.labels.take offset := by
  have hw := h.events (a, e) (by simp)
  have hcells : ∀ q ∈ e.frames, (s.frames q).valid = .valid ∨ (s.frames q).valid = .invalid :=
    hw.cells hv
  obtain ⟨p', hp', hspan, hle, -⟩ := h.segment
  obtain rfl : p' = p := by
    rw [hp] at hp'
    cases hp'
    rfl
  dsimp only at hspan hle
  -- cut the frames of the event behind its first `offset` sectors
  have hcount := hw.countP_valid hv
  dsimp only at hcount
  have hcut : ∃ cs₁ cs₂, e.frames.map s.frames = cs₁ ++ cs₂ ∧
      cs₁.countP Frame.isValid = offset ∧ Ring.Ends Frame.isValid cs₁ :=
    Ring.exists_split (by omega)
  obtain ⟨cs₁, cs₂, hcs, hcs₁, hends₁⟩ := hcut
  obtain ⟨ps₁, ps₂, hps, rfl, rfl⟩ := List.map_eq_append_iff.mp hcs
  have hcs₂ : (ps₂.map s.frames).countP Frame.isValid = k := by
    rw [hps, List.map_append, List.countP_append, hcs₁] at hcount
    omega
  have hends₂ : Ring.Ends Frame.isValid (ps₂.map s.frames) := by
    have hends := hw.ends hv
    dsimp only at hends
    rw [hps, List.map_append] at hends
    exact hends.of_append _
  rw [hps] at hcells
  rw [hps, List.length_append] at hle
  have hspan' := hspan
  rw [hps] at hspan'
  obtain ⟨hspan₁, hspan₂⟩ := Ring.span_split hspan'.symm
  have hnd : (ps₁ ++ ps₂).Nodup := by
    rw [hspan']
    exact Ring.nodup_span _ (by simpa using hle)
  have hoff : toI32 ((e.length : ℤ) - k) = offset := by
    have hlt := (h.length_lt hv).2.2
    rw [toI32_of_bounds (by omega) (by omega)]
    omega
  -- skip the first cells, then mark the others
  have hskip : scanFrames (fun v => v != .invalid) id offset p' s.frames =
      .ok (Ring.advance p' ps₁.length, s.frames) := by
    rw [scanFrames_span (P := Frame.isValid) (k := ps₁.length)
      (fun q hq => Frame.isValid_eq (hcells q (List.mem_append_left _ (hspan₁ ▸ hq)))) (by omega)
      (by rw [← hspan₁, hcs₁]) (by rwa [← hspan₁])]
    congr 2
    funext q
    simp [Ring.rewrite]
  have hmark : scanFrames (fun v => v != .invalid) (Frame.set .invalid) k
      (Ring.advance p' ps₁.length) s.frames =
      .ok (Ring.advance (Ring.advance p' ps₁.length) ps₂.length,
        Ring.rewrite Frame.isValid (Frame.set .invalid) ps₂ s.frames) := by
    rw [scanFrames_span (P := Frame.isValid) (k := ps₂.length)
      (fun q hq => Frame.isValid_eq (hcells q (List.mem_append_right _ (hspan₂ ▸ hq)))) (by omega)
      (by rw [← hspan₂, hcs₂]) (by rwa [← hspan₂]), ← hspan₂]
  refine ⟨Ring.rewrite Frame.isValid (Frame.set .invalid) ps₂ s.frames, ?_, fun q hq => ?_,
    fun q => ?_, fun q hq => ?_, ?_⟩
  · simp only [WriteBuffer.updateWbValidArrayPartial, hoff, hskip, ok_bind, hmark]
  · exact Ring.rewrite_of_notMem fun hq₂ => hq (hps ▸ List.mem_append_right _ hq₂)
  · rw [Ring.rewrite]
    split <;> simp
  · rw [Ring.rewrite]
    split
    · simp
    · exact hcells q (hps ▸ hq)
  · have hfirst : ps₁.map (Ring.rewrite Frame.isValid (Frame.set .invalid) ps₂ s.frames) =
        ps₁.map s.frames :=
      List.map_congr_left fun q hq => Ring.rewrite_of_notMem fun hq₂ =>
        (List.nodup_append.mp hnd).2.2 q hq q hq₂ rfl
    have hsecond : (ps₂.map (Ring.rewrite Frame.isValid (Frame.set .invalid) ps₂ s.frames)).filter
        Frame.isValid = [] := by
      refine List.filter_eq_nil_iff.mpr fun c hc => ?_
      obtain ⟨q, hq, rfl⟩ := List.mem_map.mp hc
      rw [Ring.rewrite]
      by_cases hval : Frame.isValid (s.frames q)
      · rw [if_pos ⟨hq, hval⟩]
        simp [Frame.isValid]
      · simp [hval]
    have hnew := hw.newest hv
    dsimp only at hnew
    rw [hps, List.map_append, List.filter_append, List.map_append] at hnew
    rw [hps, List.map_append, List.filter_append, hfirst, hsecond, List.append_nil, ← hnew,
      List.take_left' (by simp [← List.countP_eq_length_filter, hcs₁])]

/-- The first pending write and the orphans before it have been given back. -/
theorem release (h : WbRep g n s orphans (w :: ws) extra) :
    WbRep g n (s.released (orphans ++ w.2.frames)) [] ws extra := by
  have hsplit : orphans ++ (ownedFrames (w :: ws) ++ extra) =
      (orphans ++ w.2.frames) ++ (ownedFrames ws ++ extra) := by simp
  have hspan := h.span
  have hnd := h.nodup
  rw [hsplit] at hspan hnd
  have hlen : (orphans ++ (ownedFrames (w :: ws) ++ extra)).length =
      (orphans ++ w.2.frames).length + (ownedFrames ws ++ extra).length := by
    rw [hsplit, List.length_append]
  have hkeep : ∀ q, q ∉ orphans ++ w.2.frames →
      (s.released (orphans ++ w.2.frames)).frames q = s.frames q := fun q hq => if_neg hq
  refine
    { ftl := rfl
      span := (Ring.span_split hspan.symm).2
      le := by have := h.le; rw [List.nil_append]; omega
      sata := ?_
      empty := ?_
      zero := fun q hq => ?_
      orphan := by simp
      events := fun v hv => ?_ }
  · rw [List.nil_append]
    refine (h.sata.trans ?_).trans (Ring.advance_advance _ _ _).symm
    rw [hlen]
  · have hempty := h.empty
    simp only [WriteBuffer.released, List.nil_append] at hempty ⊢
    omega
  · by_cases hq' : q ∈ orphans ++ w.2.frames
    · simp only [WriteBuffer.released, if_pos hq', Frame.set_valid]
    · rw [hkeep q hq']
      refine h.zero q ?_
      rw [hsplit, List.mem_append, not_or]
      exact ⟨hq', by simpa using hq⟩
  · refine (h.events v (List.mem_cons_of_mem _ hv)).congr fun q hq => hkeep q fun hq' => ?_
    exact (List.nodup_append.mp hnd).2.2 q hq' q
      (List.mem_append_left _ (mem_ownedFrames.mpr ⟨v, hv, hq⟩)) rfl

/-- An invalid write leaves the queue: its frames become orphans. -/
theorem orphanHead (h : WbRep g n s orphans (w :: ws) extra) (hv : w.2.valid = false) :
    WbRep g n s (orphans ++ w.2.frames) ws extra := by
  have hsplit : (orphans ++ w.2.frames) ++ (ownedFrames ws ++ extra) =
      orphans ++ (ownedFrames (w :: ws) ++ extra) := by simp
  exact
    { ftl := h.ftl
      span := hsplit ▸ h.span
      le := hsplit ▸ h.le
      sata := hsplit ▸ h.sata
      empty := hsplit ▸ h.empty
      zero := hsplit ▸ h.zero
      orphan := fun q hq => by
        rcases List.mem_append.mp hq with hq | hq
        · exact h.orphan q hq
        · exact (h.events w (by simp)).dead hv q hq
      events := fun v hv => h.events v (List.mem_cons_of_mem _ hv) }

/-- A new pending write takes over the frames it filled. -/
theorem append (h : WbRep g n s orphans ws extra) {m : ℕ} (hnm : n ≤ m)
    (he : PendingWrite g m s.frames e) (hframes : e.frames = extra) :
    WbRep g m s orphans (ws ++ [(a, e)]) [] := by
  have hsame : ownedFrames (ws ++ [(a, e)]) ++ [] = ownedFrames ws ++ extra := by
    simp [hframes]
  exact
    { ftl := h.ftl
      span := hsame ▸ h.span
      le := hsame ▸ h.le
      sata := hsame ▸ h.sata
      empty := hsame ▸ h.empty
      zero := hsame ▸ h.zero
      orphan := h.orphan
      events := fun w hw => by
        rcases List.mem_append.mp hw with hw | hw
        · exact (h.events w hw).mono hnm
        · rw [List.mem_singleton.mp hw]
          exact he }

end WbRep

end Vssim
