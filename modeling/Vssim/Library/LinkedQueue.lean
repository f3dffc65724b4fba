import Vssim.Library.LinkedHeap

/-!
# Linked queues

A queue is a singly linked list whose root has both end pointers `NULL` when it is empty
(`QRep`). Its entries are cells that live before they enter the queue and after they leave it, so
the operations are those on the links alone: take off the head, put a cell behind the tail, in
front of the head or behind some entry. Each is stated on the list of entries.
-/

namespace LinkedHeap

variable {α : Type} {h h' : Heap (SNode α)} {r : ListRoot} {xs ys : List (ℕ × α)} {a : ℕ} {v : α}

/-- The address of the last entry does not depend on what stands before the first. -/
private theorem lastAddr_eq_of_ne_nil (p q : Option ℕ) (hne : xs ≠ []) :
    lastAddr p xs = lastAddr q xs := by
  obtain ⟨x, xs, rfl⟩ := List.exists_cons_of_ne_nil hne
  rfl

/-- Assigning the payload of an entry does not move it. -/
private theorem lastAddr_set (p : Option ℕ) (xs ys : List (ℕ × α)) (v w : α) :
    lastAddr p (xs ++ (a, v) :: ys) = lastAddr p (xs ++ (a, w) :: ys) := by
  rw [lastAddr_append_cons, lastAddr_append_cons]

/-- `QRep h r xs`: the root `r` is a singly linked queue of exactly the entries `xs`, counted by
`r.count`; both end pointers are `NULL` when there are none. -/
structure QRep (h : Heap (SNode α)) (r : ListRoot) (xs : List (ℕ × α)) : Prop where
  seg : SSeg h r.head xs none
  count : r.count = xs.length
  tail : r.tail = lastAddr none xs

namespace QRep

theorem nil : QRep h ⟨none, none, 0⟩ ([] : List (ℕ × α)) := ⟨rfl, rfl, rfl⟩

theorem frame (hr : QRep h r xs) (hc : ∀ a ∈ addrs xs, h'.cell a = h.cell a) : QRep h' r xs :=
  ⟨hr.seg.frame hc, hr.count, hr.tail⟩

theorem count_eq_zero (hr : QRep h r xs) : r.count = 0 ↔ xs = [] := by
  rw [hr.count, List.length_eq_zero_iff]

theorem cell (hr : QRep h r xs) {x : ℕ × α} (hx : x ∈ xs) : ∃ n, h.cell x.1 = some ⟨x.2, n⟩ :=
  hr.seg.cell_of_mem hx

/-- Take the head off. -/
theorem pop {c : SNode α} (hr : QRep h r ((a, v) :: xs)) (hc : h.cell a = some c) :
    QRep h (if r.count - 1 = 0 then ⟨none, none, r.count - 1⟩ else ⟨c.next, r.tail, r.count - 1⟩)
      xs := by
  have hcount : r.count = xs.length + 1 := hr.count
  obtain ⟨-, n, hcell, hrest⟩ := hr.seg
  have hnext : c.next = n := by
    rw [hcell] at hc
    cases hc
    rfl
  rcases eq_or_ne xs [] with rfl | hne
  · have hzero : r.count - 1 = 0 := by simp [hcount]
    rw [if_pos hzero]
    exact ⟨rfl, hzero, rfl⟩
  · have hzero : r.count - 1 ≠ 0 := by
      have := List.length_pos_of_ne_nil hne
      omega
    rw [if_neg hzero]
    exact ⟨hnext ▸ hrest, by simp [hcount], hr.tail.trans (lastAddr_eq_of_ne_nil _ _ hne)⟩

/-- The first entry of an empty queue. -/
theorem start (hr : QRep h r ([] : List (ℕ × α))) (ha : h.cell a = some ⟨v, none⟩) :
    QRep h ⟨some a, some a, r.count + 1⟩ [(a, v)] :=
  ⟨⟨rfl, none, ha, rfl⟩, by simp [hr.count], rfl⟩

/-- Put a cell behind the tail. -/
theorem push (hr : QRep h r xs) (hne : xs ≠ []) (ha : h.cell a = some ⟨v, none⟩)
    (hmem : a ∉ addrs xs) :
    ∃ t, r.tail = some t ∧ t ∈ addrs xs ∧
      QRep (h.modify t (SNode.link (some a))) ⟨r.head, some a, r.count + 1⟩ (xs ++ [(a, v)]) := by
  obtain ⟨zs, z, rfl⟩ := (List.eq_nil_or_concat' xs).resolve_left hne
  have hz : z.1 ∈ addrs (zs ++ [z]) := by simp
  refine ⟨z.1, by rw [hr.tail, lastAddr_concat], hz, ?_, by simp [hr.count], ?_⟩
  · refine SSeg.append_iff.mpr ⟨_, hr.seg.set_last hr.seg.last_notMem (some a), rfl, none, ?_, rfl⟩
    rw [Heap.modify_cell_of_ne _ _ (ne_of_mem_of_not_mem hz hmem).symm, ha]
  · rw [lastAddr_concat]

/-- Put a cell in front of the head of a queue that is not empty. -/
theorem cons {n : Option ℕ} (hr : QRep h r xs) (hne : xs ≠ []) (ha : h.cell a = some ⟨v, n⟩)
    (hmem : a ∉ addrs xs) :
    QRep (h.modify a (SNode.link r.head)) ⟨some a, r.tail, r.count + 1⟩ ((a, v) :: xs) := by
  refine ⟨⟨rfl, r.head, Heap.modify_cell_self _ _ ha, hr.seg.frame fun b hb => ?_⟩,
    by simp [hr.count], hr.tail.trans (lastAddr_eq_of_ne_nil _ _ hne)⟩
  exact Heap.modify_cell_of_ne _ _ fun hba => hmem (hba ▸ hb)

/-- Put a cell behind an entry that is not the last. -/
theorem insert {p : ℕ} {u : α} {n m : Option ℕ} (hr : QRep h r (xs ++ (p, u) :: ys))
    (hne : ys ≠ []) (hp : h.cell p = some ⟨u, n⟩) (ha : h.cell a = some ⟨v, m⟩)
    (hmem : a ∉ addrs (xs ++ (p, u) :: ys)) :
    QRep ((h.modify a (SNode.link n)).modify p (SNode.link (some a)))
      ⟨r.head, r.tail, r.count + 1⟩ (xs ++ (p, u) :: (a, v) :: ys) := by
  obtain ⟨hpx, hpy⟩ := hr.seg.notMem_of_append
  simp only [addrs, List.map_append, List.map_cons, List.mem_append, List.mem_cons, not_or] at hmem
  obtain ⟨hax, hap, hay⟩ := hmem
  obtain ⟨k, hpre, hk, n', hcell, hpost⟩ := SSeg.append_iff.mp hr.seg
  obtain rfl : n' = n := by
    rw [hcell] at hp
    cases hp
    rfl
  have hother : ∀ c, c ≠ a → c ≠ p →
      ((h.modify a (SNode.link n')).modify p (SNode.link (some a))).cell c = h.cell c :=
    fun c hca hcp => by rw [Heap.modify_cell_of_ne _ _ hcp, Heap.modify_cell_of_ne _ _ hca]
  refine ⟨SSeg.append_iff.mpr ⟨k, hpre.frame fun c hc => ?_, hk, some a, ?_, rfl, n', ?_,
    hpost.frame fun c hc => ?_⟩, by simp [hr.count]; omega, ?_⟩
  · exact hother c (fun h => hax (h ▸ hc)) fun h => hpx (h ▸ hc)
  · have hcell' : (h.modify a (SNode.link n')).cell p = some ⟨u, n'⟩ := by
      rw [Heap.modify_cell_of_ne _ _ (Ne.symm hap), hcell]
    rw [Heap.modify_cell_self _ _ hcell']
    rfl
  · rw [Heap.modify_cell_of_ne _ _ hap, Heap.modify_cell_self _ _ ha]
    rfl
  · exact hother c (fun h => hay (h ▸ hc)) fun h => hpy (h ▸ hc)
  · rw [hr.tail, lastAddr_append_cons, lastAddr_append_cons]
    exact lastAddr_eq_of_ne_nil _ _ hne

/-- Overwrite the payload of an entry. -/
theorem set_val (hr : QRep h r (xs ++ (a, v) :: ys)) (f : α → α) :
    QRep (h.modify a fun c => { c with val := f c.val }) r (xs ++ (a, f v) :: ys) :=
  ⟨hr.seg.set_val f, by simp [hr.count], hr.tail.trans (lastAddr_set _ _ _ _ _)⟩

end QRep

end LinkedHeap
