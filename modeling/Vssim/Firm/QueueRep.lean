import Vssim.Firm.Queue
import Vssim.Library.LinkedQueue
import Mathlib.Data.List.Perm.Subperm

/-!
# The event queues as lists

What the pointer operations of the event queue do to the lists of events. `e_queue` is a run of
reads followed by a run of writes, with `last_read_entry` at the last read (`EventQueues.Shape`);
the completed queue and any events that are in no queue at the moment live in the same heap
(`EventQueues.Rep`). Each operation has one rule that names the lists after it.
-/

namespace Vssim

open LinkedHeap

variable {b : BufferConfig}

/-- A step that succeeds hands its result to the next one. -/
theorem ok_bind {ε α β : Type} (a : α) (f : α → Except ε β) : (Except.ok a >>= f) = f a := rfl

/-- An event with its address. -/
abbrev EventAt (b : BufferConfig) : Type := ℕ × EventQueueEntry b

namespace EventQueues

/-- `e_queue` consists of the reads `rs` followed by the writes `ws`; its head and tail pointers,
its count and `last_read_entry` say so. -/
structure Shape (q : EventQueues b) (rs ws : List (EventAt b)) : Prop where
  pending : QRep q.heap q.eQueue (rs ++ ws)
  last : q.lastReadEntry = lastAddr none rs
  reads : ∀ r ∈ rs, r.2.ioType = .read
  writes : ∀ w ∈ ws, w.2.ioType = .write

/-- The queues hold the reads `rs`, the writes `ws` and the completed reads `cs`; the cells `fs` are
live and in neither. -/
structure Rep (q : EventQueues b) (rs ws cs : List (EventAt b))
    (fs : List (ℕ × SNode (EventQueueEntry b))) : Prop extends Shape q rs ws where
  completed : QRep q.heap q.cEQueue cs
  floating : ∀ x ∈ fs, q.heap.cell x.1 = some x.2
  nodup : (addrs (rs ++ ws) ++ (addrs cs ++ addrs fs)).Nodup

variable {q : EventQueues b} {rs ws us vs cs : List (EventAt b)}
  {fs : List (ℕ × SNode (EventQueueEntry b))} {r w : EventAt b} {e : EventQueueEntry b} {a : ℕ}

/-! ### Walking the queues -/

theorem deref_eq {c : SNode (EventQueueEntry b)} (h : q.heap.cell a = some c) :
    q.deref (some a) = .ok c := by
  simp [deref, h]

/-- A list that ends in `NULL` is no longer than the heap. -/
theorem length_le_brk {p : Option ℕ} (h : SSeg q.heap p ws none) : ws.length ≤ q.heap.brk := by
  have hsub : addrs ws ⊆ List.range q.heap.brk := fun a ha => List.mem_range.mpr (h.lt_brk ha)
  simpa using (h.nodup.subperm hsub).length_le

/-- The walks over the writes start at the first of them. -/
theorem Shape.firstWrite (h : q.Shape rs ws) :
    ∃ p, q.firstWrite = .ok p ∧ SSeg q.heap p ws none := by
  rcases List.eq_nil_or_concat' rs with rfl | ⟨us, r, rfl⟩
  · refine ⟨q.eQueue.head, ?_, h.pending.seg⟩
    rw [EventQueues.firstWrite, h.last]
    rfl
  · obtain ⟨m, hpre, hpost⟩ := SSeg.append_iff.mp h.pending.seg
    obtain ⟨k, -, -, n, hcell, hn⟩ := SSeg.append_iff.mp hpre
    refine ⟨n, ?_, hn.symm ▸ hpost⟩
    rw [EventQueues.firstWrite, h.last, lastAddr_concat]
    simp [deref_eq hcell, Except.map]

/-- The tail pointer leads to the last event. -/
theorem Shape.tailEvent_concat (h : q.Shape rs ws) (hlast : rs ++ ws = us ++ [(a, e)]) :
    q.tailEvent = .ok (some (a, e)) := by
  have htail : q.eQueue.tail = some a := by rw [h.pending.tail, hlast, lastAddr_concat]
  obtain ⟨n, hcell⟩ := h.pending.cell (x := (a, e)) (by rw [hlast]; simp)
  simp [EventQueues.tailEvent, htail, deref_eq hcell, Except.map]

theorem Shape.tailEvent_nil (h : q.Shape [] ([] : List (EventAt b))) : q.tailEvent = .ok none := by
  have htail : q.eQueue.tail = none := h.pending.tail
  simp [EventQueues.tailEvent, htail]

/-- Counting the events up to one of them. -/
theorem countUntil_eq {p : Option ℕ} (hseg : SSeg q.heap p (us ++ (a, e) :: vs) none) {fuel : ℕ}
    (hfuel : us.length < fuel) (n : ℕ) : q.countUntil a fuel p n = .ok (n + us.length) := by
  induction us generalizing p fuel n with
  | nil =>
    obtain ⟨fuel, rfl⟩ : ∃ k, fuel = k + 1 := ⟨fuel - 1, by simp at hfuel; omega⟩
    obtain ⟨rfl, -⟩ := hseg
    simp [countUntil]
  | cons u us ih =>
    obtain ⟨fuel, rfl⟩ : ∃ k, fuel = k + 1 := ⟨fuel - 1, by omega⟩
    have hne : u.1 ≠ a := by
      have hnd := hseg.nodup
      simp only [addrs, List.cons_append, List.map_cons, List.map_append, List.nodup_cons,
        List.mem_append, List.mem_cons, not_or] at hnd
      exact hnd.1.2.1
    obtain ⟨rfl, m, hcell, hrest⟩ := hseg
    rw [countUntil, if_neg (by simpa using hne), deref_eq hcell]
    refine (ih hrest (by simpa using hfuel) (n + 1)).trans ?_
    rw [List.length_cons, Nat.add_assoc, Nat.add_comm 1]

/-- The last event of `ws` that shares a sector with a request. -/
def lastOverlap (sectorNb : ℤ) (length : ℕ) (ws : List (EventAt b)) : Option (EventAt b) :=
  (ws.filter fun w => overlaps w.2 sectorNb length).getLast?

private theorem checkIoDependencyLoop_eq {sectorNb : ℤ} {length fuel : ℕ} {p : Option ℕ}
    (hseg : SSeg q.heap p ws none) (hfuel : ws.length ≤ fuel) (ret : Option ℕ) :
    checkIoDependencyLoop q sectorNb length fuel p ret =
      .ok (((lastOverlap sectorNb length ws).map Prod.fst).or ret) := by
  induction ws generalizing p fuel ret with
  | nil =>
    cases hseg
    simp [checkIoDependencyLoop, lastOverlap]
  | cons w ws ih =>
    obtain ⟨fuel, rfl⟩ : ∃ k, fuel = k + 1 := ⟨fuel - 1, by simp at hfuel; omega⟩
    obtain ⟨rfl, n, hcell, hrest⟩ := hseg
    rw [checkIoDependencyLoop, deref_eq hcell]
    refine (ih hrest (by simpa using hfuel) _).trans ?_
    by_cases hw : overlaps w.2 sectorNb length
    · simp only [hw, if_true, lastOverlap, List.filter_cons_of_pos]
      rcases List.eq_nil_or_concat' (ws.filter fun w => overlaps w.2 sectorNb length) with
        hnil | ⟨us, u, hu⟩
      · simp [hnil]
      · rw [hu, ← List.cons_append, List.getLast?_concat, List.getLast?_concat]
        rfl
    · simp [hw, lastOverlap]

/-- `CHECK_IO_DEPENDENCY_FOR_READ` finds the last pending write that shares a sector. -/
theorem Shape.checkIoDependencyForRead (h : q.Shape rs ws) (sectorNb : ℤ) (length : ℕ) :
    Vssim.checkIoDependencyForRead sectorNb length q =
      .ok ((lastOverlap sectorNb length ws).map Prod.fst) := by
  obtain ⟨p, hp, hseg⟩ := h.firstWrite
  rw [Vssim.checkIoDependencyForRead, hp]
  refine (checkIoDependencyLoop_eq hseg (length_le_brk hseg) none).trans ?_
  rw [Option.or_none]

/-! ### Moving events -/

namespace Rep

/-- An event of one list has another address than those of the others. -/
private theorem head_notMem (h : q.Rep (r :: rs) ws cs fs) :
    r.1 ∉ addrs (rs ++ ws) ∧ r.1 ∉ addrs cs ∧ r.1 ∉ addrs fs := by
  have hnd := h.nodup
  simp only [addrs, List.cons_append, List.map_cons, List.nodup_cons, List.mem_append, not_or]
    at hnd
  exact ⟨hnd.1.1, hnd.1.2.1, hnd.1.2.2⟩

/-- A cell in no queue has another address than those in the queues. -/
private theorem float_notMem {x : ℕ × SNode (EventQueueEntry b)} (h : q.Rep rs ws cs (x :: fs)) :
    x.1 ∉ addrs (rs ++ ws) ∧ x.1 ∉ addrs cs ∧ x.1 ∉ addrs fs := by
  have hnd := h.nodup
  rw [List.nodup_append, List.nodup_append] at hnd
  obtain ⟨-, ⟨-, hfs, hcs⟩, hpend⟩ := hnd
  refine ⟨fun hx => hpend _ hx _ (by simp) rfl, fun hx => hcs _ hx _ (by simp) rfl, ?_⟩
  exact (List.nodup_cons.mp hfs).1

/-- A change to the heap away from the queues and the floating cells. -/
theorem frame (h : q.Rep rs ws cs fs) (heap : Heap (SNode (EventQueueEntry b)))
    (hc : ∀ a, a ∈ addrs (rs ++ ws) ∨ a ∈ addrs cs ∨ a ∈ addrs fs →
      heap.cell a = q.heap.cell a) :
    Rep { q with heap } rs ws cs fs where
  pending := h.pending.frame fun a ha => hc a (.inl ha)
  last := h.last
  reads := h.reads
  writes := h.writes
  completed := h.completed.frame fun a ha => hc a (.inr (.inl ha))
  floating x hx := by
    rw [← h.floating x hx]
    exact hc x.1 (.inr (.inr (List.mem_map_of_mem hx)))
  nodup := h.nodup

/-- Every address in use is below the break. -/
private theorem lt_brk (h : q.Rep rs ws cs fs) {x : ℕ}
    (hx : x ∈ addrs (rs ++ ws) ∨ x ∈ addrs cs ∨ x ∈ addrs fs) : x < q.heap.brk := by
  rcases hx with hx | hx | hx
  · exact h.pending.seg.lt_brk hx
  · exact h.completed.seg.lt_brk hx
  · obtain ⟨y, hy, rfl⟩ := List.mem_map.mp hx
    exact Heap.lt_brk (h.floating y hy)

/-- A new event is in no queue. -/
theorem alloc (h : q.Rep rs ws cs fs) (e : EventQueueEntry b) :
    (q.allocNewEvent e).Rep rs ws cs ((q.heap.brk, ⟨e, none⟩) :: fs) := by
  have hfresh : ∀ a, a ∈ addrs (rs ++ ws) ∨ a ∈ addrs cs ∨ a ∈ addrs fs → a ≠ q.heap.brk :=
    fun a ha => (h.lt_brk ha).ne
  have hframe := h.frame (q.heap.alloc ⟨e, none⟩) fun a ha =>
    Heap.alloc_cell_of_ne _ _ (hfresh a ha)
  refine { hframe with floating := ?_, nodup := ?_ }
  · intro x hx
    rcases List.mem_cons.mp hx with rfl | hx
    · exact Heap.alloc_cell_self _ _
    · exact hframe.floating x hx
  · have hnd := h.nodup
    simp only [addrs, List.map_cons, List.nodup_append, List.nodup_cons, List.mem_append,
      List.mem_cons] at hnd hfresh ⊢
    grind

/-- The head of the queue, for `DEQUEUE_IO`. -/
theorem head (h : q.Rep rs ws cs fs) (hhead : rs ++ ws = r :: us) :
    q.eQueue.count ≠ 0 ∧ q.eQueue.head = some r.1 ∧
      ∃ n, q.heap.cell r.1 = some ⟨r.2, n⟩ ∧ q.deref (some r.1) = .ok ⟨r.2, n⟩ := by
  have hpend := hhead ▸ h.pending
  obtain ⟨hp, n, hcell, -⟩ := hpend.seg
  exact ⟨by simp [hpend.count], hp, n, hcell, deref_eq hcell⟩

/-- Take the first read off the queue. -/
theorem unlink_read {n : Option ℕ} (h : q.Rep (r :: rs) ws cs fs)
    (hcell : q.heap.cell r.1 = some ⟨r.2, n⟩) :
    (q.unlinkHead r.1 ⟨r.2, n⟩).Rep rs ws cs ((r.1, ⟨r.2, n⟩) :: fs) := by
  have htype : r.2.ioType = .read := h.reads r (by simp)
  have hnotin := h.head_notMem
  have hlast : (q.unlinkHead r.1 ⟨r.2, n⟩).lastReadEntry = lastAddr none rs := by
    rcases List.eq_nil_or_concat' rs with rfl | ⟨us, u, rfl⟩
    · simp [unlinkHead, htype, h.last, lastAddr]
    · have hne : u.1 ≠ r.1 := fun heq => hnotin.1 (by simp [← heq])
      have hlast := h.last
      rw [← List.cons_append, lastAddr_concat] at hlast
      simp [unlinkHead, hlast, hne]
  refine
    { pending := ?_
      last := hlast
      reads := fun x hx => h.reads x (List.mem_cons_of_mem _ hx)
      writes := h.writes
      completed := ?_
      floating := ?_
      nodup := ?_ }
  · simpa [unlinkHead, htype] using h.pending.pop hcell
  · simpa [unlinkHead, htype] using h.completed
  · intro x hx
    rcases List.mem_cons.mp hx with rfl | hx
    · simpa [unlinkHead, htype] using hcell
    · simpa [unlinkHead, htype] using h.floating x hx
  · have hnd := h.nodup
    simp only [addrs, List.cons_append, List.map_cons, List.nodup_append, List.nodup_cons,
      List.mem_append, List.mem_cons] at hnd ⊢
    grind

/-- Take the first write off the queue, when no read is pending. -/
theorem unlink_write {n : Option ℕ} (h : q.Rep [] (w :: ws) cs fs)
    (hcell : q.heap.cell w.1 = some ⟨w.2, n⟩) :
    (q.unlinkHead w.1 ⟨w.2, n⟩).Rep [] ws cs fs := by
  have htype : w.2.ioType = .write := h.writes w (by simp)
  have hnd := h.nodup
  simp only [addrs, List.nil_append, List.map_cons, List.cons_append, List.nodup_cons,
    List.mem_append, not_or] at hnd
  have hfree : ∀ a, a ∈ addrs ([] ++ ws) ∨ a ∈ addrs cs ∨ a ∈ addrs fs →
      (q.heap.free w.1).cell a = q.heap.cell a := by
    intro a ha
    refine Heap.free_cell_of_ne _ ?_
    rintro rfl
    rcases ha with ha | ha | ha
    · exact hnd.1.1 ha
    · exact hnd.1.2.1 ha
    · exact hnd.1.2.2 ha
  refine
    { pending := ?_
      last := by simp [unlinkHead, htype, h.last]
      reads := h.reads
      writes := fun x hx => h.writes x (List.mem_cons_of_mem _ hx)
      completed := ?_
      floating := ?_
      nodup := hnd.2 }
  · have hpop := (h.pending.pop hcell).frame fun a ha => hfree a (.inl ha)
    simpa [unlinkHead, htype] using hpop
  · have hframe := h.completed.frame fun a ha => hfree a (.inr (.inl ha))
    simpa [unlinkHead, htype] using hframe
  · intro x hx
    have hx' := hfree x.1 (.inr (.inr (List.mem_map_of_mem hx)))
    rw [← h.floating x hx, ← hx']
    simp [unlinkHead, htype]

/-- Assign to the fields of an event in no queue. -/
theorem modify_float {n : Option ℕ} (h : q.Rep rs ws cs ((a, ⟨e, n⟩) :: fs))
    (f : EventQueueEntry b → EventQueueEntry b) :
    (q.modify a f).Rep rs ws cs ((a, ⟨f e, n⟩) :: fs) := by
  obtain ⟨hpend, hcs, hfs⟩ := h.float_notMem
  have hother : ∀ x, x ≠ a →
      (q.heap.modify a fun c => { c with val := f c.val }).cell x = q.heap.cell x :=
    fun x hx => Heap.modify_cell_of_ne _ _ hx
  refine
    { pending := h.pending.frame fun x hx => hother x (ne_of_mem_of_not_mem hx hpend)
      last := h.last
      reads := h.reads
      writes := h.writes
      completed := h.completed.frame fun x hx => hother x (ne_of_mem_of_not_mem hx hcs)
      floating := ?_
      nodup := h.nodup }
  intro x hx
  rcases List.mem_cons.mp hx with rfl | hx
  · exact Heap.modify_cell_self _ _ (h.floating (a, ⟨e, n⟩) (by simp))
  · rw [← h.floating x (List.mem_cons_of_mem _ hx)]
    exact hother x.1 (ne_of_mem_of_not_mem (List.mem_map_of_mem hx) hfs)

/-- Redirect the `next` pointer of an event in no queue. -/
private theorem link_float {n : Option ℕ} (h : q.Rep rs ws cs ((a, ⟨e, n⟩) :: fs)) (m : Option ℕ) :
    (q.link a m).Rep rs ws cs ((a, ⟨e, m⟩) :: fs) := by
  obtain ⟨hpend, hcs, hfs⟩ := h.float_notMem
  have hother : ∀ x, x ≠ a → (q.heap.modify a (SNode.link m)).cell x = q.heap.cell x :=
    fun x hx => Heap.modify_cell_of_ne _ _ hx
  refine
    { pending := h.pending.frame fun x hx => hother x (ne_of_mem_of_not_mem hx hpend)
      last := h.last
      reads := h.reads
      writes := h.writes
      completed := h.completed.frame fun x hx => hother x (ne_of_mem_of_not_mem hx hcs)
      floating := ?_
      nodup := h.nodup }
  intro x hx
  rcases List.mem_cons.mp hx with rfl | hx
  · exact Heap.modify_cell_self _ _ (h.floating (a, ⟨e, n⟩) (by simp))
  · rw [← h.floating x (List.mem_cons_of_mem _ hx)]
    exact hother x.1 (ne_of_mem_of_not_mem (List.mem_map_of_mem hx) hfs)

/-- Move an event to the end of the completed queue. -/
theorem completeRead {n : Option ℕ} (h : q.Rep rs ws cs ((a, ⟨e, n⟩) :: fs)) :
    ∃ q', q.completeRead a = .ok q' ∧ q'.Rep rs ws (cs ++ [(a, e)]) fs := by
  have h' := h.link_float none
  obtain ⟨hpend, hcs, hfs⟩ := h'.float_notMem
  have hcell := h'.floating (a, ⟨e, none⟩) (by simp)
  have hnd : (addrs (rs ++ ws) ++ (addrs (cs ++ [(a, e)]) ++ addrs fs)).Nodup := by
    have hnd := h.nodup
    simp only [addrs, List.map_append, List.map_cons, List.map_nil, List.nodup_append,
      List.nodup_cons, List.mem_append, List.mem_cons] at hnd ⊢
    grind
  rcases eq_or_ne cs [] with rfl | hne
  · refine ⟨_, if_pos h'.completed.count, ?_⟩
    exact
      { pending := h'.pending
        last := h'.last
        reads := h'.reads
        writes := h'.writes
        completed := h'.completed.start hcell
        floating := fun x hx => h'.floating x (List.mem_cons_of_mem _ hx)
        nodup := hnd }
  · have hcount : (q.link a none).cEQueue.count ≠ 0 := fun h0 =>
      hne (h'.completed.count_eq_zero.mp h0)
    obtain ⟨t, htail, ht, hpush⟩ := h'.completed.push hne hcell hcs
    have hlive : (((q.link a none).heap.cell t).isSome) = true := by
      obtain ⟨x, hx, rfl⟩ := List.mem_map.mp ht
      obtain ⟨m, hm⟩ := h'.completed.cell hx
      simp [hm]
    have hother : ∀ x, x ∉ addrs cs →
        ((q.link a none).heap.modify t (SNode.link (some a))).cell x =
          (q.link a none).heap.cell x :=
      fun x hx => Heap.modify_cell_of_ne _ _ (ne_of_mem_of_not_mem ht hx).symm
    have hsep := h'.nodup
    rw [List.nodup_append, List.nodup_append] at hsep
    obtain ⟨-, ⟨-, -, hcf⟩, hpc⟩ := hsep
    refine ⟨{ (q.link a none).link t (some a) with
        cEQueue := ⟨(q.link a none).cEQueue.head, some a, (q.link a none).cEQueue.count + 1⟩ },
      ?_, ?_⟩
    · simp only [EventQueues.completeRead, if_neg hcount, htail, Option.filter_some, hlive, if_true]
    · exact
        { pending := h'.pending.frame fun x hx => hother x fun hxc =>
            hpc x hx x (List.mem_append_left _ hxc) rfl
          last := h'.last
          reads := h'.reads
          writes := h'.writes
          completed := hpush
          floating := fun x hx => by
            rw [← h'.floating x (List.mem_cons_of_mem _ hx)]
            exact hother x.1 fun hxc =>
              hcf x.1 hxc x.1 (List.mem_cons_of_mem _ (List.mem_map_of_mem hx)) rfl
          nodup := hnd }

/-- The addresses after an event has joined the pending reads. -/
private theorem nodup_insert (h : q.Rep rs ws cs ((a, ⟨e, none⟩) :: fs)) :
    (addrs (rs ++ [(a, e)] ++ ws) ++ (addrs cs ++ addrs fs)).Nodup := by
  have hnd := h.nodup
  simp only [addrs, List.map_append, List.map_cons, List.map_nil, List.nodup_append,
    List.nodup_cons, List.mem_append, List.mem_cons] at hnd ⊢
  grind

/-- The first event of an empty queue, a read. -/
theorem start_read (h : q.Rep [] [] cs ((a, ⟨e, none⟩) :: fs)) (he : e.ioType = .read) :
    Rep { q with eQueue := ⟨some a, some a, q.eQueue.count + 1⟩, lastReadEntry := some a }
      [(a, e)] [] cs fs where
  pending := h.pending.start (h.floating (a, ⟨e, none⟩) (by simp))
  last := rfl
  reads := by simpa using he
  writes := by simp
  completed := h.completed
  floating x hx := h.floating x (List.mem_cons_of_mem _ hx)
  nodup := nodup_insert h

/-- A new event joins the pending reads, when only its own cell and those of the pending events
change. -/
private theorem join_reads (h : q.Rep rs ws cs ((a, ⟨e, none⟩) :: fs)) (he : e.ioType = .read)
    {heap : Heap (SNode (EventQueueEntry b))} {root : ListRoot}
    (hother : ∀ x, x ∉ addrs (rs ++ ws) → x ≠ a → heap.cell x = q.heap.cell x)
    (hrep : QRep heap root (rs ++ [(a, e)] ++ ws)) :
    Rep ⟨heap, root, q.cEQueue, some a⟩ (rs ++ [(a, e)]) ws cs fs := by
  obtain ⟨-, hcs, hfs⟩ := h.float_notMem
  have hsep := h.nodup
  rw [List.nodup_append] at hsep
  have hmem : ∀ x, x ∈ addrs cs ∨ x ∈ addrs fs → heap.cell x = q.heap.cell x := by
    intro x hx
    refine hother x (fun hxp => ?_) ?_
    · exact hsep.2.2 x hxp x (by grind) rfl
    · rintro rfl
      exact hx.elim hcs hfs
  refine
    { pending := hrep
      last := by rw [lastAddr_concat]
      reads := fun x hx => ?_
      writes := h.writes
      completed := h.completed.frame fun x hx => hmem x (.inl hx)
      floating := fun x hx => ?_
      nodup := nodup_insert h }
  · rcases List.mem_append.mp hx with hx | hx
    · exact h.reads x hx
    · rwa [List.mem_singleton.mp hx]
  · rw [← h.floating x (List.mem_cons_of_mem _ hx)]
    exact hmem x.1 (.inr (List.mem_map_of_mem hx))

/-- A new read goes behind the pending reads and before the pending writes. -/
theorem insertRead (h : q.Rep rs ws cs ((a, ⟨e, none⟩) :: fs)) (he : e.ioType = .read) :
    ∃ q', q.insertRead a = .ok q' ∧ q'.Rep (rs ++ [(a, e)]) ws cs fs := by
  obtain ⟨hpend, -, -⟩ := h.float_notMem
  have hcell := h.floating (a, ⟨e, none⟩) (by simp)
  rcases List.eq_nil_or_concat' rs with rfl | ⟨us, u, rfl⟩
  · have hlast : q.lastReadEntry = none := h.last
    rcases eq_or_ne ws [] with rfl | hne
    · have hcount : q.eQueue.count = 0 := h.pending.count
      have hrun : q.insertRead a = .ok
          { q with eQueue := ⟨some a, some a, q.eQueue.count + 1⟩, lastReadEntry := some a } := by
        simp only [EventQueues.insertRead, hlast, hcount, if_true]
      exact ⟨_, hrun, h.start_read he⟩
    · have hcount : q.eQueue.count ≠ 0 := fun h0 => hne (h.pending.count_eq_zero.mp h0)
      have hrun : q.insertRead a = .ok { q.link a q.eQueue.head with
          eQueue := ⟨some a, q.eQueue.tail, q.eQueue.count + 1⟩
          lastReadEntry := some a } := by
        simp only [EventQueues.insertRead, hlast, if_neg hcount]
      exact ⟨_, hrun, join_reads h he (fun x _ hx => Heap.modify_cell_of_ne _ _ hx)
        (h.pending.cons hne hcell hpend)⟩
  · have hlast : q.lastReadEntry = some u.1 := h.last.trans (lastAddr_concat _ _ _)
    obtain ⟨n, hu⟩ := h.pending.cell (x := u) (by simp)
    have hlink : ∀ (heap : Heap (SNode (EventQueueEntry b))) (x : ℕ),
        x ∉ addrs (us ++ [u] ++ ws) →
        (heap.modify u.1 (SNode.link (some a))).cell x = heap.cell x := by
      intro heap x hx
      refine Heap.modify_cell_of_ne _ _ ?_
      rintro rfl
      exact hx (by simp)
    rcases eq_or_ne ws [] with rfl | hne
    · have htail : q.eQueue.tail = some u.1 := by
        rw [h.pending.tail, List.append_nil, lastAddr_concat]
      have hrun : q.insertRead a = .ok { q.link u.1 (some a) with
          eQueue := ⟨q.eQueue.head, some a, q.eQueue.count + 1⟩
          lastReadEntry := some a } := by
        simp only [EventQueues.insertRead, hlast, deref_eq hu, Except.map, htail, if_true]
      have hpend' := h.pending
      rw [List.append_nil] at hpend' hpend
      obtain ⟨t, ht, -, hpush⟩ := hpend'.push (by simp) hcell hpend
      obtain rfl : u.1 = t := Option.some.inj (htail.symm.trans ht)
      exact ⟨_, hrun, join_reads h he (fun x hx _ => hlink _ x hx)
        (by simpa [EventQueues.link] using hpush)⟩
    · have htail : some u.1 ≠ q.eQueue.tail := by
        obtain ⟨vs, v, rfl⟩ := (List.eq_nil_or_concat' ws).resolve_left hne
        have hnd := h.pending.seg.nodup
        rw [h.pending.tail, ← List.append_assoc, lastAddr_concat]
        simp only [addrs, List.map_append, List.map_cons, List.map_nil] at hnd
        grind
      have hrun : q.insertRead a = .ok { (q.link a n).link u.1 (some a) with
          eQueue := ⟨q.eQueue.head, q.eQueue.tail, q.eQueue.count + 1⟩
          lastReadEntry := some a } := by
        simp only [EventQueues.insertRead, hlast, deref_eq hu, Except.map, if_neg htail]
      have hpend' := h.pending
      rw [List.append_assoc, List.singleton_append] at hpend' hpend
      refine ⟨_, hrun, join_reads h he (fun x hx hxa => ?_)
        (by simpa [EventQueues.link] using hpend'.insert hne hu hcell hpend)⟩
      exact (hlink _ x hx).trans (Heap.modify_cell_of_ne _ _ hxa)

/-- A new write goes to the tail. -/
theorem appendWrite (h : q.Rep rs ws cs fs) (he : e.ioType = .write) :
    ∃ q', q.appendWrite e = .ok q' ∧ q'.Rep rs (ws ++ [(q.heap.brk, e)]) cs fs := by
  have h' := h.alloc e
  obtain ⟨hpend, hcs, hfs⟩ := h'.float_notMem
  have hcell := h'.floating (q.heap.brk, ⟨e, none⟩) (by simp)
  have hnd : (addrs (rs ++ (ws ++ [(q.heap.brk, e)])) ++ (addrs cs ++ addrs fs)).Nodup := by
    have hnd := h'.nodup
    simp only [addrs, List.map_append, List.map_cons, List.map_nil, List.nodup_append,
      List.nodup_cons, List.mem_append, List.mem_cons] at hnd ⊢
    grind
  have hwrites : ∀ x ∈ ws ++ [(q.heap.brk, e)], x.2.ioType = .write := by
    intro x hx
    rcases List.mem_append.mp hx with hx | hx
    · exact h.writes x hx
    · rwa [List.mem_singleton.mp hx]
  rcases eq_or_ne (rs ++ ws) [] with hnil | hne
  · obtain ⟨rfl, rfl⟩ := List.append_eq_nil_iff.mp hnil
    have hcount : (q.allocNewEvent e).eQueue.count = 0 := h'.pending.count
    refine ⟨_, if_pos hcount, ?_⟩
    exact
      { pending := h'.pending.start hcell
        last := h'.last
        reads := h'.reads
        writes := hwrites
        completed := h'.completed
        floating := fun x hx => h'.floating x (List.mem_cons_of_mem _ hx)
        nodup := hnd }
  · have hcount : (q.allocNewEvent e).eQueue.count ≠ 0 := fun h0 =>
      hne (h'.pending.count_eq_zero.mp h0)
    obtain ⟨t, htail, ht, hpush⟩ := h'.pending.push hne hcell hpend
    have hlive : (((q.allocNewEvent e).heap.cell t).isSome) = true := by
      obtain ⟨x, hx, rfl⟩ := List.mem_map.mp ht
      obtain ⟨m, hm⟩ := h'.pending.cell hx
      simp [hm]
    have hother : ∀ x, x ∉ addrs (rs ++ ws) →
        ((q.allocNewEvent e).heap.modify t (SNode.link (some q.heap.brk))).cell x =
          (q.allocNewEvent e).heap.cell x :=
      fun x hx => Heap.modify_cell_of_ne _ _ (ne_of_mem_of_not_mem ht hx).symm
    have hsep := h'.nodup
    rw [List.nodup_append] at hsep
    refine ⟨{ (q.allocNewEvent e).link t (some q.heap.brk) with
        eQueue := ⟨(q.allocNewEvent e).eQueue.head, some q.heap.brk,
          (q.allocNewEvent e).eQueue.count + 1⟩ }, ?_, ?_⟩
    · simp only [EventQueues.appendWrite, if_neg hcount, htail, Option.filter_some, hlive, if_true]
    · refine
        { pending := by simpa [EventQueues.link] using hpush
          last := h'.last
          reads := h'.reads
          writes := hwrites
          completed := h'.completed.frame fun x hx => hother x fun hxp =>
            hsep.2.2 x hxp x (List.mem_append_left _ hx) rfl
          floating := fun x hx => ?_
          nodup := hnd }
      rw [← h'.floating x (List.mem_cons_of_mem _ hx)]
      exact hother x.1 fun hxp =>
        hsep.2.2 x.1 hxp x.1 (List.mem_append_right _ (List.mem_cons_of_mem _
          (List.mem_map_of_mem hx))) rfl

/-- Release the first completed read. The root keeps a stale head until the whole queue is gone, so
the rule names the root that the rest of the queue would have. -/
theorem free_completed {n : Option ℕ} (h : q.Rep rs ws ((a, e) :: cs) fs)
    (hcell : q.heap.cell a = some ⟨e, n⟩) :
    Rep { q with heap := q.heap.free a, cEQueue := ⟨n, lastAddr none cs, cs.length⟩ } rs ws cs
      fs := by
  have hnd := h.nodup
  simp only [addrs, List.map_cons, List.cons_append, List.nodup_append, List.nodup_cons,
    List.mem_cons, List.mem_append, not_or] at hnd
  have hfree : ∀ x, x ≠ a → (q.heap.free a).cell x = q.heap.cell x :=
    fun x hx => Heap.free_cell_of_ne _ hx
  have hpend : a ∉ addrs (rs ++ ws) := fun ha => by grind
  obtain ⟨-, m, hm, hrest⟩ := h.completed.seg
  obtain rfl : m = n := by
    rw [hcell] at hm
    cases hm
    rfl
  refine ⟨⟨h.pending.frame fun x hx => hfree x (ne_of_mem_of_not_mem hx hpend), h.last,
    h.reads, h.writes⟩, ⟨hrest.frame fun x hx => hfree x ?_, rfl, rfl⟩, fun x hx => ?_, ?_⟩
  · rintro rfl
    exact hnd.2.1.1.1 hx
  · rw [← h.floating x hx]
    refine hfree x.1 ?_
    rintro rfl
    exact hnd.2.1.1.2 (List.mem_map_of_mem hx)
  · simp only [addrs, List.nodup_append, List.mem_append]
    grind

/-- Assign to the fields of a pending write. -/
theorem modify_write (h : q.Rep rs (us ++ (a, e) :: vs) cs fs)
    {f : EventQueueEntry b → EventQueueEntry b} (hf : (f e).ioType = .write) :
    (q.modify a f).Rep rs (us ++ (a, f e) :: vs) cs fs := by
  have hother : ∀ x, x ≠ a →
      (q.heap.modify a fun c => { c with val := f c.val }).cell x = q.heap.cell x :=
    fun x hx => Heap.modify_cell_of_ne _ _ hx
  have hsep := h.nodup
  rw [List.nodup_append] at hsep
  have hne : ∀ x, x ∈ addrs cs ∨ x ∈ addrs fs → x ≠ a := by
    rintro x hx rfl
    exact hsep.2.2 x (by simp) x (List.mem_append.mpr hx) rfl
  have hpend := h.pending
  rw [← List.append_assoc] at hpend
  refine
    { pending := by simpa [EventQueues.modify] using hpend.set_val f
      last := h.last
      reads := h.reads
      writes := fun x hx => ?_
      completed := h.completed.frame fun x hx => hother x (hne x (.inl hx))
      floating := fun x hx => ?_
      nodup := by simpa using h.nodup }
  · rcases List.mem_append.mp hx with hx | hx
    · exact h.writes x (by simp [hx])
    rcases List.mem_cons.mp hx with rfl | hx
    · exact hf
    · exact h.writes x (by simp [hx])
  · rw [← h.floating x hx]
    exact hother x.1 (hne x.1 (.inr (List.mem_map_of_mem hx)))

end Rep

end EventQueues

end Vssim
