import Mathlib.Data.List.Basic
import Mathlib.Data.List.Nodup
import Mathlib.Data.Nat.Notation
import Mathlib.Logic.Function.Basic

/-!
# Linked lists in a heap

A heap of cells with `calloc`/`free`, and the two linked-list shapes that C code builds in
it: singly linked nodes (`SNode`) and doubly linked nodes (`DNode`), reached from a root
that stores a head pointer, a tail pointer and a count (`ListRoot`).

A list segment is a relation between a heap, two pointers and the list of
`(address, payload)` pairs met on the way (`SSeg`, `DSeg`). The rules are the ones a proof
about pointer code needs: a segment **survives** a heap that agrees on its addresses
(`frame`), splits along `++`, is determined by its first pointer, visits no address
twice, and can be relinked at either end. Nothing here knows what the payloads are.
-/

namespace LinkedHeap

/-- A heap of cells of type `ν`. Addresses from `brk` on have never been handed out. -/
structure Heap (ν : Type) where
  cell : ℕ → Option ν
  brk : ℕ
  fresh : ∀ a, brk ≤ a → cell a = none

namespace Heap

variable {ν : Type}

/-- The heap with no cell allocated. -/
def empty : Heap ν := ⟨fun _ => none, 0, fun _ _ => rfl⟩

/-- Allocate a cell holding `v`; its address is `h.brk`. -/
def alloc (h : Heap ν) (v : ν) : Heap ν where
  cell := Function.update h.cell h.brk (some v)
  brk := h.brk + 1
  fresh a ha := by
    rw [Function.update_of_ne (by omega)]
    exact h.fresh a (by omega)

/-- Overwrite the cell at `a`, if it is live. -/
def modify (h : Heap ν) (a : ℕ) (f : ν → ν) : Heap ν where
  cell := Function.update h.cell a ((h.cell a).map f)
  brk := h.brk
  fresh b hb := by
    by_cases hab : b = a
    · subst hab
      simp [h.fresh b hb]
    · rw [Function.update_of_ne hab]
      exact h.fresh b hb

/-- Release the cell at `a`. -/
def free (h : Heap ν) (a : ℕ) : Heap ν where
  cell := Function.update h.cell a none
  brk := h.brk
  fresh b hb := by
    by_cases hab : b = a
    · subst hab
      simp
    · rw [Function.update_of_ne hab]
      exact h.fresh b hb

@[simp] theorem alloc_cell_self (h : Heap ν) (v : ν) : (h.alloc v).cell h.brk = some v := by
  simp [alloc]

theorem alloc_cell_of_ne (h : Heap ν) (v : ν) {a : ℕ} (ha : a ≠ h.brk) :
    (h.alloc v).cell a = h.cell a := by
  simp [alloc, ha]

theorem modify_cell_self (h : Heap ν) {a : ℕ} (f : ν → ν) {v : ν} (hv : h.cell a = some v) :
    (h.modify a f).cell a = some (f v) := by
  simp [modify, hv]

theorem modify_cell_of_ne (h : Heap ν) {a b : ℕ} (f : ν → ν) (hab : b ≠ a) :
    (h.modify a f).cell b = h.cell b := by
  simp [modify, hab]

theorem free_cell_of_ne (h : Heap ν) {a b : ℕ} (hab : b ≠ a) :
    (h.free a).cell b = h.cell b := by
  simp [free, hab]

/-- A live address has been handed out. -/
theorem lt_brk {h : Heap ν} {a : ℕ} {v : ν} (hv : h.cell a = some v) : a < h.brk := by
  by_contra hlt
  rw [h.fresh a (by omega)] at hv
  exact absurd hv (by simp)

/-- Every live cell satisfies `P`. -/
def All (P : ν → Prop) (h : Heap ν) : Prop := ∀ a v, h.cell a = some v → P v

section All

variable {P : ν → Prop} {h : Heap ν}

theorem All.alloc (hall : h.All P) {v : ν} (hv : P v) : (h.alloc v).All P := fun a w hw => by
  by_cases ha : a = h.brk
  · rw [ha, alloc_cell_self] at hw
    exact Option.some.inj hw ▸ hv
  · rw [alloc_cell_of_ne _ _ ha] at hw
    exact hall a w hw

theorem All.modify (hall : h.All P) (a : ℕ) {f : ν → ν} (hf : ∀ v, h.cell a = some v → P (f v)) :
    (h.modify a f).All P := fun b w hw => by
  by_cases hb : b = a
  · subst hb
    cases hv : h.cell b with
    | none => simp [Heap.modify, hv] at hw
    | some v =>
      rw [modify_cell_self _ _ hv] at hw
      exact Option.some.inj hw ▸ hf v hv
  · rw [modify_cell_of_ne _ _ hb] at hw
    exact hall b w hw

theorem All.free (hall : h.All P) (a : ℕ) : (h.free a).All P := fun b w hw => by
  by_cases hb : b = a
  · simp [Heap.free, hb] at hw
  · rw [free_cell_of_ne _ hb] at hw
    exact hall b w hw

end All

section payloads

variable {α : Type} {val : ν → α} {h : Heap ν}

/-- The payloads of the live cells, by address. -/
def payloads (val : ν → α) (h : Heap ν) (a : ℕ) : Option α := (h.cell a).map val

theorem payloads_alloc (c : ν) :
    (h.alloc c).payloads val = Function.update (h.payloads val) h.brk (some (val c)) := by
  funext a
  by_cases ha : a = h.brk
  · rw [ha, payloads, alloc_cell_self, Function.update_self, Option.map_some]
  · rw [payloads, alloc_cell_of_ne _ _ ha, Function.update_of_ne ha, payloads]

theorem payloads_free (a : ℕ) :
    (h.free a).payloads val = Function.update (h.payloads val) a none := by
  funext b
  by_cases hb : b = a
  · simp [hb, payloads, free]
  · rw [payloads, free_cell_of_ne _ hb, Function.update_of_ne hb, payloads]

theorem payloads_modify (a : ℕ) (f : ν → ν) :
    (h.modify a f).payloads val =
      Function.update (h.payloads val) a ((h.cell a).map fun c => val (f c)) := by
  funext b
  by_cases hb : b = a
  · simp [hb, payloads, modify, Function.comp_def]
  · rw [payloads, modify_cell_of_ne _ _ hb, Function.update_of_ne hb, payloads]

/-- Relinking a cell leaves the payloads alone. -/
theorem payloads_relink (a : ℕ) {f : ν → ν} (hf : ∀ c, val (f c) = val c) :
    (h.modify a f).payloads val = h.payloads val := by
  rw [payloads_modify]
  simp only [hf]
  exact Function.update_eq_self a (h.payloads val)

end payloads

end Heap

/-- The root of a linked list: head and tail pointers and the number of entries. -/
structure ListRoot where
  head : Option ℕ
  tail : Option ℕ
  count : ℕ
  deriving DecidableEq

/-- A cell of a singly linked list. -/
structure SNode (α : Type) where
  val : α
  next : Option ℕ
  deriving DecidableEq

/-- A cell of a doubly linked list. -/
structure DNode (α : Type) where
  val : α
  prev : Option ℕ
  next : Option ℕ
  deriving DecidableEq

/-- The payloads met along the `next` pointers from `p`, at most `n` of them. -/
def walk {ν α : Type} (val : ν → α) (next : ν → Option ℕ) (h : Heap ν) : ℕ → Option ℕ → List α
  | 0, _ => []
  | n + 1, p =>
    match p.bind h.cell with
    | none => []
    | some c => val c :: walk val next h n (next c)

/-- Assign a node's `next` pointer. -/
def SNode.link {α : Type} (n : Option ℕ) (c : SNode α) : SNode α := { c with next := n }

/-- Assign a node's `next` pointer. -/
def DNode.linkNext {α : Type} (n : Option ℕ) (c : DNode α) : DNode α := { c with next := n }

/-- Assign a node's `prev` pointer. -/
def DNode.linkPrev {α : Type} (n : Option ℕ) (c : DNode α) : DNode α := { c with prev := n }

variable {α : Type}

/-- The addresses a segment visits. -/
abbrev addrs (xs : List (ℕ × α)) : List ℕ := xs.map Prod.fst

/-- The address of the last entry, or `p` when there is none. -/
def lastAddr (p : Option ℕ) : List (ℕ × α) → Option ℕ
  | [] => p
  | x :: xs => lastAddr (some x.1) xs

@[simp] theorem lastAddr_concat (p : Option ℕ) (xs : List (ℕ × α)) (x : ℕ × α) :
    lastAddr p (xs ++ [x]) = some x.1 := by
  induction xs generalizing p with
  | nil => rfl
  | cons y ys ih => exact ih _

theorem lastAddr_append_cons (p : Option ℕ) (xs ys : List (ℕ × α)) (x : ℕ × α) :
    lastAddr p (xs ++ x :: ys) = lastAddr (some x.1) ys := by
  induction xs generalizing p with
  | nil => rfl
  | cons y zs ih => exact ih _

/-! ### Singly linked segments -/

/-- `SSeg h p xs q`: following `next` from `p` visits exactly `xs` and then reaches `q`. -/
def SSeg (h : Heap (SNode α)) : Option ℕ → List (ℕ × α) → Option ℕ → Prop
  | p, [], q => p = q
  | p, (a, v) :: xs, q => p = some a ∧ ∃ n, h.cell a = some ⟨v, n⟩ ∧ SSeg h n xs q

namespace SSeg

variable {h h' : Heap (SNode α)} {p q : Option ℕ} {xs ys : List (ℕ × α)}

/-- A segment survives any heap that agrees on its addresses. -/
theorem frame (hs : SSeg h p xs q) (hc : ∀ a ∈ addrs xs, h'.cell a = h.cell a) :
    SSeg h' p xs q := by
  induction xs generalizing p with
  | nil => exact hs
  | cons x xs ih =>
    obtain ⟨hp, n, hcell, hrest⟩ := hs
    refine ⟨hp, n, ?_, ih hrest fun a ha => hc a (by simp [ha])⟩
    rw [hc x.1 (by simp)]
    exact hcell

/-- Segments split along `++`. -/
theorem append_iff : SSeg h p (xs ++ ys) q ↔ ∃ m, SSeg h p xs m ∧ SSeg h m ys q := by
  induction xs generalizing p with
  | nil => simp [SSeg]
  | cons x xs ih =>
    simp only [List.cons_append, SSeg, ih]
    constructor
    · rintro ⟨hp, n, hcell, m, hxs, hys⟩
      exact ⟨m, ⟨hp, n, hcell, hxs⟩, hys⟩
    · rintro ⟨m, ⟨hp, n, hcell, hxs⟩, hys⟩
      exact ⟨hp, n, hcell, m, hxs, hys⟩

/-- Every visited entry is a live cell with its payload. -/
theorem cell_of_mem (hs : SSeg h p xs q) {x : ℕ × α} (hx : x ∈ xs) :
    ∃ n, h.cell x.1 = some ⟨x.2, n⟩ := by
  induction xs generalizing p with
  | nil => simp at hx
  | cons y ys ih =>
    obtain ⟨-, n, hcell, hrest⟩ := hs
    rcases List.mem_cons.mp hx with rfl | hx
    · exact ⟨n, hcell⟩
    · exact ih hrest hx

/-- Where two segments of one heap visit the same address, they find the same payload. -/
theorem val_eq {r u : Option ℕ} (hs : SSeg h p xs q) (ht : SSeg h r ys u) {x y : ℕ × α}
    (hx : x ∈ xs) (hy : y ∈ ys) (hxy : x.1 = y.1) : x.2 = y.2 := by
  obtain ⟨_, hm⟩ := hs.cell_of_mem hx
  obtain ⟨_, hn⟩ := ht.cell_of_mem hy
  rw [hxy, hn] at hm
  exact (congrArg SNode.val (Option.some.inj hm)).symm

/-- Every visited address has been handed out. -/
theorem lt_brk (hs : SSeg h p xs q) {a : ℕ} (ha : a ∈ addrs xs) : a < h.brk := by
  obtain ⟨x, hx, rfl⟩ := List.mem_map.mp ha
  obtain ⟨n, hn⟩ := hs.cell_of_mem hx
  exact Heap.lt_brk hn

/-- A list that ends in `NULL` is determined by its first pointer. -/
private theorem unique (hs : SSeg h p xs none) (ht : SSeg h p ys none) : xs = ys := by
  induction xs generalizing p ys with
  | nil =>
    cases ys with
    | nil => rfl
    | cons y ys => exact absurd (hs.symm.trans ht.1) (by simp)
  | cons x xs ih =>
    obtain ⟨hp, n, hcell, hrest⟩ := hs
    cases ys with
    | nil => exact absurd (ht.symm.trans hp) (by simp)
    | cons y ys =>
      obtain ⟨hp', n', hcell', hrest'⟩ := ht
      have hxy : x.1 = y.1 := Option.some.inj (hp.symm.trans hp')
      rw [hxy, hcell'] at hcell
      injection hcell with hcell
      injection hcell with hval hnext
      subst hnext
      rw [ih hrest hrest', show x = y from Prod.ext hxy hval.symm]

/-- A list that ends in `NULL` visits no address twice. -/
theorem nodup (hs : SSeg h p xs none) : (addrs xs).Nodup := by
  induction xs generalizing p with
  | nil => exact List.nodup_nil
  | cons x xs ih =>
    obtain ⟨hp, n, hcell, hrest⟩ := hs
    refine List.nodup_cons.mpr ⟨fun hmem => ?_, ih hrest⟩
    -- a second visit would make the list from that address a proper suffix of itself
    obtain ⟨y, hy, hyx⟩ := List.mem_map.mp hmem
    obtain ⟨us, vs, rfl⟩ := List.append_of_mem hy
    obtain ⟨m, -, hm⟩ := append_iff.mp hrest
    have hpm : p = m := by rw [hp, hm.1, hyx]
    have hwhole : SSeg h p (x :: (us ++ y :: vs)) none := ⟨hp, n, hcell, hrest⟩
    have hlen := congrArg List.length (hwhole.unique (hpm ▸ hm))
    simp only [List.length_cons, List.length_append] at hlen
    omega

/-- The last entry's address does not occur before it. -/
theorem last_notMem {x : ℕ × α} (hs : SSeg h p (xs ++ [x]) none) : x.1 ∉ addrs xs := by
  have hnd := hs.nodup
  simp only [addrs, List.map_append, List.map_cons, List.map_nil] at hnd
  intro hmem
  exact (List.nodup_append.mp hnd).2.2 _ hmem _ (by simp) rfl

/-- Redirect the `next` pointer of the last entry. -/
theorem set_last {x : ℕ × α} (hs : SSeg h p (xs ++ [x]) q) (hnd : x.1 ∉ addrs xs)
    (n : Option ℕ) : SSeg (h.modify x.1 (SNode.link n)) p (xs ++ [x]) n := by
  obtain ⟨m, hxs, hm, n', hcell, -⟩ := append_iff.mp hs
  refine append_iff.mpr ⟨m, hxs.frame fun a ha => ?_, hm, n, ?_, rfl⟩
  · exact Heap.modify_cell_of_ne _ _ fun hax => hnd (hax ▸ ha)
  · exact Heap.modify_cell_self _ _ hcell

/-- An entry in the middle of a list that ends in `NULL` occurs nowhere else in it. -/
theorem notMem_of_append {x : ℕ × α} (hs : SSeg h p (xs ++ x :: ys) none) :
    x.1 ∉ addrs xs ∧ x.1 ∉ addrs ys := by
  have hnd := hs.nodup
  rw [addrs, List.map_append, List.map_cons, List.nodup_append] at hnd
  exact ⟨fun hmem => hnd.2.2 _ hmem _ (by simp) rfl, (List.nodup_cons.mp hnd.2.1).1⟩

/-- Overwrite the payload of an entry. -/
theorem set_val {a : ℕ} {v : α} (hs : SSeg h p (xs ++ (a, v) :: ys) none) (f : α → α) :
    SSeg (h.modify a fun c => { c with val := f c.val }) p (xs ++ (a, f v) :: ys) none := by
  obtain ⟨hxs, hys⟩ := hs.notMem_of_append
  obtain ⟨m, hpre, hm, n, hcell, hpost⟩ := append_iff.mp hs
  refine append_iff.mpr ⟨m, hpre.frame fun b hb => ?_, hm, n, Heap.modify_cell_self _ _ hcell,
    hpost.frame fun b hb => ?_⟩
  · exact Heap.modify_cell_of_ne _ _ fun hba => hxs (hba ▸ hb)
  · exact Heap.modify_cell_of_ne _ _ fun hba => hys (hba ▸ hb)

/-- Link the entry before `a` to the one after it. -/
private theorem bypass {a b : ℕ} {v w : α} {n : Option ℕ}
    (hs : SSeg h p (xs ++ (b, w) :: (a, v) :: ys) none) (ha : h.cell a = some ⟨v, n⟩) :
    SSeg ((h.modify b (SNode.link n)).free a) p (xs ++ (b, w) :: ys) none := by
  obtain ⟨hbx, hby⟩ := hs.notMem_of_append
  obtain ⟨hax, hay⟩ := (List.append_cons xs (b, w) _ ▸ hs).notMem_of_append
  simp only [addrs, List.map_append, List.map_cons, List.map_nil, List.mem_append, List.mem_cons,
    List.not_mem_nil, or_false, not_or] at hax hby
  obtain ⟨m, hpre, hm, k, hcell, -, n', hcell', hpost⟩ := append_iff.mp hs
  obtain rfl : n' = n := by
    rw [hcell'] at ha
    exact congrArg SNode.next (Option.some.inj ha)
  have hcells : ∀ c, c ≠ a → c ≠ b → ((h.modify b (SNode.link n')).free a).cell c = h.cell c :=
    fun c hca hcb => by rw [Heap.free_cell_of_ne _ hca, Heap.modify_cell_of_ne _ _ hcb]
  refine append_iff.mpr ⟨m, hpre.frame fun c hc => ?_, hm, n', ?_, hpost.frame fun c hc => ?_⟩
  · exact hcells c (fun h => hax.1 (h ▸ hc)) fun h => hbx (h ▸ hc)
  · rw [Heap.free_cell_of_ne _ (Ne.symm hax.2), Heap.modify_cell_self _ _ hcell]
    rfl
  · exact hcells c (fun h => hay (h ▸ hc)) fun h => hby.2 (h ▸ hc)

theorem walk_eq (hs : SSeg h p xs none) :
    walk SNode.val SNode.next h xs.length p = xs.map Prod.snd := by
  induction xs generalizing p with
  | nil => rfl
  | cons x xs ih =>
    obtain ⟨rfl, n, hcell, hrest⟩ := hs
    simp only [List.length_cons, walk, Option.bind_some, hcell, List.map_cons, ih hrest]

end SSeg

/-- `SRep h r xs`: the root `r` is a singly linked list of exactly the entries `xs`, counted
by `r.count`. The tail pointer of an empty list is not constrained: no code reads it. -/
structure SRep (h : Heap (SNode α)) (r : ListRoot) (xs : List (ℕ × α)) : Prop where
  seg : SSeg h r.head xs none
  count : r.count = xs.length
  tail : xs ≠ [] → r.tail = lastAddr none xs

namespace SRep

variable {h h' : Heap (SNode α)} {r : ListRoot} {xs : List (ℕ × α)}

theorem frame (hr : SRep h r xs) (hc : ∀ a ∈ addrs xs, h'.cell a = h.cell a) :
    SRep h' r xs :=
  ⟨hr.seg.frame hc, hr.count, hr.tail⟩

/-- The tail pointer leads to the last entry. -/
theorem last {a : ℕ} {v : α} (hr : SRep h r (xs ++ [(a, v)])) :
    r.tail = some a ∧ h.cell a = some ⟨v, none⟩ := by
  obtain ⟨m, -, -, n, hcell, rfl⟩ := SSeg.append_iff.mp hr.seg
  exact ⟨by rw [hr.tail (by simp), lastAddr_concat], hcell⟩

/-- A list is empty exactly when its count is zero. -/
theorem count_eq_zero (hr : SRep h r xs) : r.count = 0 ↔ xs = [] := by
  rw [hr.count, List.length_eq_zero_iff]

/-- Following the pointers of a root meets the entries of its list. -/
theorem walk_eq (hr : SRep h r xs) :
    walk SNode.val SNode.next h r.count r.head = xs.map Prod.snd := by
  rw [hr.count]
  exact hr.seg.walk_eq

/-- Dropping and releasing the first entry: a list of one becomes empty, its tail pointer
left stale, otherwise the head moves on. -/
theorem pop {a : ℕ} {v : α} {c : SNode α} (hr : SRep h r ((a, v) :: xs))
    (hc : h.cell a = some c) :
    SRep (h.free a) (if r.count = 1 then { r with head := none, count := 0 }
      else { r with head := c.next, count := r.count - 1 }) xs := by
  have hcount : r.count = xs.length + 1 := hr.count
  have hnd := List.nodup_cons.mp hr.seg.nodup
  obtain ⟨-, n, hcell, hrest⟩ := hr.seg
  have hnext : c.next = n := by rw [hcell] at hc; cases hc; rfl
  have hseg : SSeg (h.free a) c.next xs none :=
    hnext ▸ hrest.frame fun b hb => Heap.free_cell_of_ne _ fun hba => hnd.1 (hba ▸ hb)
  cases xs with
  | nil =>
    have hone : r.count = 1 := hcount
    rw [if_pos hone]
    exact ⟨rfl, rfl, fun hne => absurd rfl hne⟩
  | cons x xs =>
    have hne : r.count ≠ 1 := by rw [hcount, List.length_cons]; omega
    rw [if_neg hne]
    exact ⟨hseg, by simp [hcount], fun _ => hr.tail (by simp)⟩

/-- Overwriting the payload of an entry. -/
theorem set_val {a : ℕ} {v : α} {ys : List (ℕ × α)} (hr : SRep h r (xs ++ (a, v) :: ys))
    (f : α → α) :
    SRep (h.modify a fun c => { c with val := f c.val }) r (xs ++ (a, f v) :: ys) := by
  refine ⟨hr.seg.set_val f, by simp [hr.count], fun _ => ?_⟩
  rw [hr.tail (by simp), lastAddr_append_cons, lastAddr_append_cons]

/-- Overwriting the payload of the first entry. -/
theorem set_head {a : ℕ} {v : α} (hr : SRep h r ((a, v) :: xs)) (f : α → α) :
    SRep (h.modify a fun c => { c with val := f c.val }) r ((a, f v) :: xs) :=
  (show SRep h r ([] ++ (a, v) :: xs) from hr).set_val f

/-- Linking around an entry and releasing it. -/
theorem bypass {a b : ℕ} {v w : α} {n : Option ℕ} {ys : List (ℕ × α)}
    (hr : SRep h r (xs ++ (b, w) :: (a, v) :: ys)) (ha : h.cell a = some ⟨v, n⟩) :
    SRep ((h.modify b (SNode.link n)).free a)
      ⟨r.head, lastAddr (some b) ys, r.count - 1⟩ (xs ++ (b, w) :: ys) := by
  refine ⟨hr.seg.bypass ha, ?_, fun _ => ?_⟩
  · have hcount := hr.count
    simp only [List.length_append, List.length_cons] at hcount ⊢
    omega
  · rw [lastAddr_append_cons]

/-- Allocating elsewhere leaves a list alone. -/
theorem alloc (hr : SRep h r xs) (v : SNode α) : SRep (h.alloc v) r xs :=
  hr.frame fun a ha => Heap.alloc_cell_of_ne _ _ (by have := hr.seg.lt_brk ha; omega)

end SRep

/-- Append a new entry holding `v`: an empty list starts afresh, otherwise the old tail is
linked to it. `none` when the tail pointer of a nonempty list is `NULL`. -/
def sPush (h : Heap (SNode α)) (r : ListRoot) (v : α) : Option (Heap (SNode α) × ListRoot) :=
  let h₁ := h.alloc ⟨v, none⟩
  if r.count = 0 then some (h₁, ⟨some h.brk, some h.brk, 1⟩)
  else r.tail.map fun t =>
    (h₁.modify t (SNode.link (some h.brk)), ⟨r.head, some h.brk, r.count + 1⟩)

/-- Appending succeeds on a represented list, and touches no other live cell. -/
theorem sPush_spec {h : Heap (SNode α)} {r : ListRoot} {xs : List (ℕ × α)}
    (hr : SRep h r xs) (v : α) :
    ∃ h' r', sPush h r v = some (h', r') ∧ SRep h' r' (xs ++ [(h.brk, v)]) ∧
      ∀ a, a ≠ h.brk → a ∉ addrs xs → h'.cell a = h.cell a := by
  rcases List.eq_nil_or_concat' xs with rfl | ⟨ys, y, rfl⟩
  · refine ⟨h.alloc ⟨v, none⟩, ⟨some h.brk, some h.brk, 1⟩, ?_, ⟨⟨rfl, none, ?_, rfl⟩, rfl, ?_⟩, ?_⟩
    · simp [sPush, hr.count]
    · simp
    · intro _
      rfl
    · intro a ha _
      exact Heap.alloc_cell_of_ne _ _ ha
  · have htail : r.tail = some y.1 := by rw [hr.tail (by simp), lastAddr_concat]
    have hcount : r.count ≠ 0 := by simp [hr.count]
    have hy : y.1 ∉ addrs ys := hr.seg.last_notMem
    have hlt : ∀ a ∈ addrs (ys ++ [y]), a ≠ h.brk := fun a ha => by
      have := hr.seg.lt_brk ha
      omega
    refine ⟨(h.alloc ⟨v, none⟩).modify y.1 (SNode.link (some h.brk)),
      ⟨r.head, some h.brk, r.count + 1⟩, by simp [sPush, hcount, htail],
      ⟨?_, by simp [hr.count], fun _ => ?_⟩, ?_⟩
    · have hseg := (hr.alloc ⟨v, none⟩).seg.set_last hy (some h.brk)
      refine SSeg.append_iff.mpr ⟨_, hseg, rfl, none, ?_, rfl⟩
      rw [Heap.modify_cell_of_ne _ _ (hlt y.1 (by simp)).symm]
      simp
    · rw [lastAddr_concat]
    · intro a ha hmem
      rw [Heap.modify_cell_of_ne _ _ (by rintro rfl; exact hmem (by simp)),
        Heap.alloc_cell_of_ne _ _ ha]

/-- Appending adds one payload. -/
theorem sPush_payloads {h h' : Heap (SNode α)} {r r' : ListRoot} {v : α}
    (hrun : sPush h r v = some (h', r')) :
    h'.payloads SNode.val = Function.update (h.payloads SNode.val) h.brk (some v) := by
  rw [sPush] at hrun
  split at hrun
  · cases hrun
    exact Heap.payloads_alloc _
  · obtain ⟨t, -, heq⟩ := Option.map_eq_some_iff.mp hrun
    cases heq
    rw [Heap.payloads_relink t (f := SNode.link (some h.brk)) fun c => rfl, Heap.payloads_alloc]

/-- Appending keeps what holds of every payload. -/
theorem sPush_all {P : α → Prop} {h h' : Heap (SNode α)} {r r' : ListRoot} {v : α}
    (hall : h.All fun c => P c.val) (hv : P v) (hrun : sPush h r v = some (h', r')) :
    h'.All fun c => P c.val := by
  rw [sPush] at hrun
  split at hrun
  · cases hrun
    exact hall.alloc hv
  · obtain ⟨t, -, heq⟩ := Option.map_eq_some_iff.mp hrun
    cases heq
    exact (hall.alloc hv).modify t fun c hc => hall.alloc hv t c hc

/-! ### Doubly linked segments -/

/-- `DSeg h b p xs q`: following `next` from `p` visits exactly `xs` and then reaches `q`;
every `prev` pointer names the entry before, the first one being `b`. -/
def DSeg (h : Heap (DNode α)) : Option ℕ → Option ℕ → List (ℕ × α) → Option ℕ → Prop
  | _, p, [], q => p = q
  | b, p, (a, v) :: xs, q =>
    p = some a ∧ ∃ n, h.cell a = some ⟨v, b, n⟩ ∧ DSeg h (some a) n xs q

namespace DSeg

variable {h h' : Heap (DNode α)} {b p q : Option ℕ} {xs ys : List (ℕ × α)}

/-- A segment survives any heap that agrees on its addresses. -/
theorem frame (hs : DSeg h b p xs q) (hc : ∀ a ∈ addrs xs, h'.cell a = h.cell a) :
    DSeg h' b p xs q := by
  induction xs generalizing b p with
  | nil => exact hs
  | cons x xs ih =>
    obtain ⟨hp, n, hcell, hrest⟩ := hs
    refine ⟨hp, n, ?_, ih hrest fun a ha => hc a (by simp [ha])⟩
    rw [hc x.1 (by simp)]
    exact hcell

/-- Segments split along `++`; the second part starts behind the last entry of the first. -/
private theorem append_iff : DSeg h b p (xs ++ ys) q ↔
    ∃ m, DSeg h b p xs m ∧ DSeg h (lastAddr b xs) m ys q := by
  induction xs generalizing b p with
  | nil => simp [DSeg, lastAddr]
  | cons x xs ih =>
    simp only [List.cons_append, DSeg, ih, lastAddr]
    constructor
    · rintro ⟨hp, n, hcell, m, hxs, hys⟩
      exact ⟨m, ⟨hp, n, hcell, hxs⟩, hys⟩
    · rintro ⟨m, ⟨hp, n, hcell, hxs⟩, hys⟩
      exact ⟨hp, n, hcell, m, hxs, hys⟩

/-- Every visited entry is a live cell with its payload. -/
theorem cell_of_mem (hs : DSeg h b p xs q) {x : ℕ × α} (hx : x ∈ xs) :
    ∃ b' n, h.cell x.1 = some ⟨x.2, b', n⟩ := by
  induction xs generalizing b p with
  | nil => simp at hx
  | cons y ys ih =>
    obtain ⟨-, n, hcell, hrest⟩ := hs
    rcases List.mem_cons.mp hx with rfl | hx
    · exact ⟨b, n, hcell⟩
    · exact ih hrest hx

/-- Where two segments of one heap visit the same address, they find the same payload. -/
theorem val_eq {c r u : Option ℕ} (hs : DSeg h b p xs q) (ht : DSeg h c r ys u) {x y : ℕ × α}
    (hx : x ∈ xs) (hy : y ∈ ys) (hxy : x.1 = y.1) : x.2 = y.2 := by
  obtain ⟨_, _, hm⟩ := hs.cell_of_mem hx
  obtain ⟨_, _, hn⟩ := ht.cell_of_mem hy
  rw [hxy, hn] at hm
  exact (congrArg DNode.val (Option.some.inj hm)).symm

/-- Every visited address has been handed out. -/
theorem lt_brk (hs : DSeg h b p xs q) {a : ℕ} (ha : a ∈ addrs xs) : a < h.brk := by
  obtain ⟨x, hx, rfl⟩ := List.mem_map.mp ha
  obtain ⟨_, _, hn⟩ := hs.cell_of_mem hx
  exact Heap.lt_brk hn

/-- Two lists from one first pointer to `NULL` have the same length. -/
private theorem length_eq (hs : DSeg h b p xs none) :
    ∀ {ys : List (ℕ × α)} {b' : Option ℕ}, DSeg h b' p ys none → xs.length = ys.length := by
  induction xs generalizing b p with
  | nil =>
    intro ys b' ht
    cases ys with
    | nil => rfl
    | cons y ys => exact absurd (hs.symm.trans ht.1) (by simp)
  | cons x xs ih =>
    intro ys b' ht
    obtain ⟨hp, n, hcell, hrest⟩ := hs
    cases ys with
    | nil => exact absurd (ht.symm.trans hp) (by simp)
    | cons y ys =>
      obtain ⟨hp', n', hcell', hrest'⟩ := ht
      have hxy : x.1 = y.1 := Option.some.inj (hp.symm.trans hp')
      rw [hxy, hcell'] at hcell
      injection hcell with hcell
      injection hcell with _ _ hnext
      subst hnext
      rw [List.length_cons, List.length_cons, ih hrest hrest']

/-- A list that ends in `NULL` visits no address twice. -/
private theorem nodup (hs : DSeg h b p xs none) : (addrs xs).Nodup := by
  induction xs generalizing b p with
  | nil => exact List.nodup_nil
  | cons x xs ih =>
    obtain ⟨hp, n, hcell, hrest⟩ := hs
    refine List.nodup_cons.mpr ⟨fun hmem => ?_, ih hrest⟩
    obtain ⟨y, hy, hyx⟩ := List.mem_map.mp hmem
    obtain ⟨us, vs, rfl⟩ := List.append_of_mem hy
    obtain ⟨m, -, hm⟩ := append_iff.mp hrest
    have hpm : p = m := by rw [hp, hm.1, hyx]
    have hwhole : DSeg h b p (x :: (us ++ y :: vs)) none := ⟨hp, n, hcell, hrest⟩
    have hlen := hwhole.length_eq (hpm ▸ hm)
    simp only [List.length_cons, List.length_append] at hlen
    omega

/-- The last entry's address does not occur before it. -/
private theorem last_notMem {x : ℕ × α} (hs : DSeg h b p (xs ++ [x]) none) : x.1 ∉ addrs xs := by
  have hnd := hs.nodup
  simp only [addrs, List.map_append, List.map_cons, List.map_nil] at hnd
  intro hmem
  exact (List.nodup_append.mp hnd).2.2 _ hmem _ (by simp) rfl

/-- Redirect the `next` pointer of the last entry. -/
private theorem set_last {x : ℕ × α} (hs : DSeg h b p (xs ++ [x]) q) (hnd : x.1 ∉ addrs xs)
    (n : Option ℕ) : DSeg (h.modify x.1 (DNode.linkNext n)) b p (xs ++ [x]) n := by
  obtain ⟨m, hxs, hm, n', hcell, -⟩ := append_iff.mp hs
  refine append_iff.mpr ⟨m, hxs.frame fun a ha => ?_, hm, n, ?_, rfl⟩
  · exact Heap.modify_cell_of_ne _ _ fun hax => hnd (hax ▸ ha)
  · exact Heap.modify_cell_self _ _ hcell

/-- Redirect the `prev` pointer of the first entry. -/
private theorem set_first {x : ℕ × α} (hs : DSeg h b p (x :: xs) q) (hnd : x.1 ∉ addrs xs)
    (b' : Option ℕ) : DSeg (h.modify x.1 (DNode.linkPrev b')) b' p (x :: xs) q := by
  obtain ⟨hp, n, hcell, hrest⟩ := hs
  refine ⟨hp, n, Heap.modify_cell_self _ _ hcell, hrest.frame fun a ha => ?_⟩
  exact Heap.modify_cell_of_ne _ _ fun hax => hnd (hax ▸ ha)

private theorem walk_eq (hs : DSeg h b p xs none) :
    walk DNode.val DNode.next h xs.length p = xs.map Prod.snd := by
  induction xs generalizing b p with
  | nil => rfl
  | cons x xs ih =>
    obtain ⟨rfl, n, hcell, hrest⟩ := hs
    simp only [List.length_cons, walk, Option.bind_some, hcell, List.map_cons, ih hrest]

end DSeg

/-- `DRep h r xs`: the root `r` is a doubly linked list of exactly the entries `xs`, counted
by `r.count`, with both end pointers `NULL` when the list is empty. -/
structure DRep (h : Heap (DNode α)) (r : ListRoot) (xs : List (ℕ × α)) : Prop where
  seg : DSeg h none r.head xs none
  count : r.count = xs.length
  tail : r.tail = lastAddr none xs

namespace DRep

variable {h h' : Heap (DNode α)} {r : ListRoot} {xs : List (ℕ × α)}

theorem frame (hr : DRep h r xs) (hc : ∀ a ∈ addrs xs, h'.cell a = h.cell a) :
    DRep h' r xs :=
  ⟨hr.seg.frame hc, hr.count, hr.tail⟩

/-- Following the pointers of a root meets the entries of its list. -/
theorem walk_eq (hr : DRep h r xs) :
    walk DNode.val DNode.next h r.count r.head = xs.map Prod.snd := by
  rw [hr.count]
  exact hr.seg.walk_eq

end DRep

/-- Append a new entry holding `v` to a doubly linked list. `none` when the tail pointer of
a nonempty list is `NULL`. -/
def dPush (h : Heap (DNode α)) (r : ListRoot) (v : α) : Option (Heap (DNode α) × ListRoot) :=
  if r.count = 0 then some (h.alloc ⟨v, none, none⟩, ⟨some h.brk, some h.brk, 1⟩)
  else r.tail.map fun t =>
    ((h.alloc ⟨v, some t, none⟩).modify t (DNode.linkNext (some h.brk)),
      ⟨r.head, some h.brk, r.count + 1⟩)

/-- Appending succeeds on a represented list, and touches no other live cell. -/
theorem dPush_spec {h : Heap (DNode α)} {r : ListRoot} {xs : List (ℕ × α)}
    (hr : DRep h r xs) (v : α) :
    ∃ h' r', dPush h r v = some (h', r') ∧ DRep h' r' (xs ++ [(h.brk, v)]) ∧
      ∀ a, a ≠ h.brk → a ∉ addrs xs → h'.cell a = h.cell a := by
  rcases List.eq_nil_or_concat' xs with rfl | ⟨ys, y, rfl⟩
  · refine ⟨h.alloc ⟨v, none, none⟩, ⟨some h.brk, some h.brk, 1⟩, ?_,
      ⟨⟨rfl, none, ?_, rfl⟩, rfl, rfl⟩, ?_⟩
    · simp [dPush, hr.count]
    · simp
    · intro a ha _
      exact Heap.alloc_cell_of_ne _ _ ha
  · have htail : r.tail = some y.1 := by rw [hr.tail, lastAddr_concat]
    have hcount : r.count ≠ 0 := by simp [hr.count]
    have hy : y.1 ∉ addrs ys := hr.seg.last_notMem
    have hlt : ∀ a ∈ addrs (ys ++ [y]), a ≠ h.brk := fun a ha => by
      have := hr.seg.lt_brk ha
      omega
    have hold : DRep (h.alloc ⟨v, some y.1, none⟩) r (ys ++ [y]) :=
      hr.frame fun a ha => Heap.alloc_cell_of_ne _ _ (hlt a ha)
    refine ⟨(h.alloc ⟨v, some y.1, none⟩).modify y.1 (DNode.linkNext (some h.brk)),
      ⟨r.head, some h.brk, r.count + 1⟩, by simp [dPush, hcount, htail],
      ⟨?_, by simp [hr.count], ?_⟩, ?_⟩
    · refine DSeg.append_iff.mpr ⟨_, hold.seg.set_last hy (some h.brk), rfl, none, ?_, rfl⟩
      rw [Heap.modify_cell_of_ne _ _ (hlt y.1 (by simp)).symm, lastAddr_concat]
      simp
    · rw [lastAddr_concat]
    · intro a ha hmem
      rw [Heap.modify_cell_of_ne _ _ (by rintro rfl; exact hmem (by simp)),
        Heap.alloc_cell_of_ne _ _ ha]

/-- Unlink and release the entry at `a`. The three cases are the head, the tail and an entry
between two others; `none` when a pointer the case follows is `NULL`. -/
def dUnlink (h : Heap (DNode α)) (r : ListRoot) (a : ℕ) : Option (Heap (DNode α) × ListRoot) :=
  (h.cell a).bind fun c =>
    if r.head = some a then
      if r.count = 1 then some (h.free a, ⟨none, none, r.count - 1⟩)
      else c.next.map fun n =>
        ((h.modify n (DNode.linkPrev none)).free a, ⟨some n, r.tail, r.count - 1⟩)
    else if r.tail = some a then
      c.prev.map fun b =>
        ((h.modify b (DNode.linkNext none)).free a, ⟨r.head, some b, r.count - 1⟩)
    else
      c.prev.bind fun b => c.next.map fun n =>
        (((h.modify b (DNode.linkNext (some n))).modify n (DNode.linkPrev (some b))).free a,
          ⟨r.head, r.tail, r.count - 1⟩)

/-- Appending adds one payload. -/
theorem dPush_payloads {h h' : Heap (DNode α)} {r r' : ListRoot} {v : α}
    (hrun : dPush h r v = some (h', r')) :
    h'.payloads DNode.val = Function.update (h.payloads DNode.val) h.brk (some v) := by
  rw [dPush] at hrun
  split at hrun
  · cases hrun
    exact Heap.payloads_alloc _
  · obtain ⟨t, -, heq⟩ := Option.map_eq_some_iff.mp hrun
    cases heq
    rw [Heap.payloads_relink t (f := DNode.linkNext (some h.brk)) fun c => rfl,
      Heap.payloads_alloc]

/-- Unlinking removes one payload. -/
theorem dUnlink_payloads {h h' : Heap (DNode α)} {r r' : ListRoot} {a : ℕ}
    (hrun : dUnlink h r a = some (h', r')) :
    h'.payloads DNode.val = Function.update (h.payloads DNode.val) a none := by
  have hnext : ∀ {h : Heap (DNode α)} (b : ℕ) (n : Option ℕ),
      (h.modify b (DNode.linkNext n)).payloads DNode.val = h.payloads DNode.val :=
    fun b n => Heap.payloads_relink b fun c => rfl
  have hprev : ∀ {h : Heap (DNode α)} (b : ℕ) (n : Option ℕ),
      (h.modify b (DNode.linkPrev n)).payloads DNode.val = h.payloads DNode.val :=
    fun b n => Heap.payloads_relink b fun c => rfl
  obtain ⟨c, -, hrun⟩ := Option.bind_eq_some_iff.mp hrun
  split at hrun
  · split at hrun
    · cases hrun
      exact Heap.payloads_free a
    · obtain ⟨n, -, heq⟩ := Option.map_eq_some_iff.mp hrun
      cases heq
      rw [Heap.payloads_free, hprev]
  · split at hrun
    · obtain ⟨b, -, heq⟩ := Option.map_eq_some_iff.mp hrun
      cases heq
      rw [Heap.payloads_free, hnext]
    · obtain ⟨b, -, hrun⟩ := Option.bind_eq_some_iff.mp hrun
      obtain ⟨n, -, heq⟩ := Option.map_eq_some_iff.mp hrun
      cases heq
      rw [Heap.payloads_free, hprev, hnext]

/-- Appending keeps what holds of every payload. -/
theorem dPush_all {P : α → Prop} {h h' : Heap (DNode α)} {r r' : ListRoot} {v : α}
    (hall : h.All fun c => P c.val) (hv : P v) (hrun : dPush h r v = some (h', r')) :
    h'.All fun c => P c.val := by
  rw [dPush] at hrun
  split at hrun
  · cases hrun
    exact hall.alloc hv
  · obtain ⟨t, -, heq⟩ := Option.map_eq_some_iff.mp hrun
    cases heq
    exact Heap.All.modify (hall.alloc hv) t fun c hc => hall.alloc hv t c hc

/-- Unlinking keeps what holds of every payload. -/
theorem dUnlink_all {P : α → Prop} {h h' : Heap (DNode α)} {r r' : ListRoot} {a : ℕ}
    (hall : h.All fun c => P c.val) (hrun : dUnlink h r a = some (h', r')) :
    h'.All fun c => P c.val := by
  have hnext : ∀ {h : Heap (DNode α)} (b : ℕ) (n : Option ℕ), (h.All fun c => P c.val) →
      (h.modify b (DNode.linkNext n)).All fun c => P c.val :=
    fun b n hall => hall.modify b fun c hc => hall b c hc
  have hprev : ∀ {h : Heap (DNode α)} (b : ℕ) (n : Option ℕ), (h.All fun c => P c.val) →
      (h.modify b (DNode.linkPrev n)).All fun c => P c.val :=
    fun b n hall => hall.modify b fun c hc => hall b c hc
  obtain ⟨c, -, hrun⟩ := Option.bind_eq_some_iff.mp hrun
  split at hrun
  · split at hrun
    · cases hrun
      exact hall.free a
    · obtain ⟨n, -, heq⟩ := Option.map_eq_some_iff.mp hrun
      cases heq
      exact (hprev n none hall).free a
  · split at hrun
    · obtain ⟨b, -, heq⟩ := Option.map_eq_some_iff.mp hrun
      cases heq
      exact (hnext b none hall).free a
    · obtain ⟨b, -, hrun⟩ := Option.bind_eq_some_iff.mp hrun
      obtain ⟨n, -, heq⟩ := Option.map_eq_some_iff.mp hrun
      cases heq
      exact (hprev n (some b) (hnext b (some n) hall)).free a

/-- The address of the last entry of a nonempty list is one of its addresses. -/
theorem lastAddr_mem {p : Option ℕ} {xs : List (ℕ × α)} {a : ℕ} (hne : xs ≠ [])
    (h : lastAddr p xs = some a) : a ∈ addrs xs := by
  rcases List.eq_nil_or_concat' xs with rfl | ⟨ys, y, rfl⟩
  · exact absurd rfl hne
  · rw [lastAddr_concat] at h
    simp [← Option.some.inj h]

/-- Unlinking the head of a represented list. -/
private theorem dUnlink_head {h : Heap (DNode α)} {r : ListRoot} {ys : List (ℕ × α)} {a : ℕ}
    {v : α} (hr : DRep h r ((a, v) :: ys)) :
    ∃ h' r', dUnlink h r a = some (h', r') ∧ DRep h' r' ys ∧
      ∀ b, b ∉ addrs ((a, v) :: ys) → h'.cell b = h.cell b := by
  have hnd := hr.seg.nodup
  obtain ⟨hhead, n, hcell, hrest⟩ := hr.seg
  cases ys with
  | nil =>
    have hcount : r.count = 1 := hr.count
    refine ⟨h.free a, ⟨none, none, r.count - 1⟩, ?_, ⟨rfl, by simp [hcount], rfl⟩, ?_⟩
    · simp [dUnlink, hcell, hhead, hcount]
    · intro b hb
      exact Heap.free_cell_of_ne _ (by rintro rfl; simp at hb)
  | cons y zs =>
    have hcount : r.count ≠ 1 := by simp [hr.count]
    obtain ⟨ha, hy⟩ := List.nodup_cons.mp hnd
    have hya : ∀ b ∈ addrs (y :: zs), b ≠ a := fun b hb hba => ha (hba ▸ hb)
    have hn : n = some y.1 := hrest.1
    subst hn
    refine ⟨(h.modify y.1 (DNode.linkPrev none)).free a, ⟨some y.1, r.tail, r.count - 1⟩, ?_,
      ⟨?_, by simp [hr.count], hr.tail⟩, ?_⟩
    · simp [dUnlink, hcell, hhead, hcount]
    · exact (hrest.set_first (List.nodup_cons.mp hy).1 none).frame
        fun b hb => Heap.free_cell_of_ne _ (hya b hb)
    · intro b hb
      rw [Heap.free_cell_of_ne _ (by rintro rfl; simp at hb),
        Heap.modify_cell_of_ne _ _ (by rintro rfl; simp at hb)]

/-- Unlinking the tail of a represented list of at least two entries. -/
private theorem dUnlink_tail {h : Heap (DNode α)} {r : ListRoot} {us : List (ℕ × α)}
    {u : ℕ × α} {a : ℕ} {v : α} (hr : DRep h r (us ++ [u] ++ [(a, v)]))
    (hhead : r.head ≠ some a) :
    ∃ h' r', dUnlink h r a = some (h', r') ∧ DRep h' r' (us ++ [u]) ∧
      ∀ b, b ∉ addrs (us ++ [u] ++ [(a, v)]) → h'.cell b = h.cell b := by
  have ha : a ∉ addrs (us ++ [u]) := hr.seg.last_notMem
  obtain ⟨m, hxs, hm, n, hcell, hn⟩ := DSeg.append_iff.mp hr.seg
  rw [lastAddr_concat] at hcell
  have htail : r.tail = some a := by rw [hr.tail, lastAddr_concat]
  have hu : u.1 ∉ addrs us := by
    have hnd := hr.seg.nodup
    simp only [addrs, List.map_append, List.append_assoc] at hnd
    have := (List.nodup_append.mp hnd).2.2
    intro hmem
    exact this _ hmem u.1 (by simp) rfl
  refine ⟨(h.modify u.1 (DNode.linkNext none)).free a, ⟨r.head, some u.1, r.count - 1⟩, ?_,
    ⟨?_, by simp [hr.count], by rw [lastAddr_concat]⟩, ?_⟩
  · simp [dUnlink, hcell, hhead, htail]
  · refine (hxs.set_last hu none).frame fun b hb => Heap.free_cell_of_ne _ ?_
    rintro rfl
    exact ha hb
  · intro b hb
    rw [Heap.free_cell_of_ne _ (by rintro rfl; simp at hb),
      Heap.modify_cell_of_ne _ _ (by rintro rfl; simp at hb)]

/-- Unlinking an entry between two others. -/
private theorem dUnlink_mid {h : Heap (DNode α)} {r : ListRoot} {us ys : List (ℕ × α)}
    {u y : ℕ × α} {a : ℕ} {v : α} (hr : DRep h r (us ++ [u] ++ (a, v) :: y :: ys))
    (hhead : r.head ≠ some a) :
    ∃ h' r', dUnlink h r a = some (h', r') ∧ DRep h' r' (us ++ [u] ++ y :: ys) ∧
      ∀ b, b ∉ addrs (us ++ [u] ++ (a, v) :: y :: ys) → h'.cell b = h.cell b := by
  have hnd := hr.seg.nodup
  obtain ⟨m, hxs, hm, n, hcell, hrest⟩ := DSeg.append_iff.mp hr.seg
  rw [lastAddr_concat] at hcell
  have hn : n = some y.1 := hrest.1
  subst hn
  simp only [addrs, List.map_append, List.map_cons, List.append_assoc,
    List.singleton_append, List.nodup_append, List.nodup_cons, List.mem_cons,
    not_or] at hnd
  obtain ⟨-, ⟨⟨hua, huy, huys⟩, ⟨hay, hays⟩, hyys, -⟩, hdisj⟩ := hnd
  have hus : ∀ b ∈ addrs us, b ≠ u.1 ∧ b ≠ a ∧ b ≠ y.1 := fun b hb =>
    ⟨hdisj b hb _ (by simp), hdisj b hb _ (by simp), hdisj b hb _ (by simp)⟩
  have htail : r.tail ≠ some a := by
    rw [hr.tail, lastAddr_append_cons]
    intro hlast
    have := lastAddr_mem (by simp) hlast
    simp only [addrs, List.map_cons, List.mem_cons] at this
    exact this.elim hay hays
  refine ⟨((h.modify u.1 (DNode.linkNext (some y.1))).modify y.1
      (DNode.linkPrev (some u.1))).free a, ⟨r.head, r.tail, r.count - 1⟩, ?_,
    ⟨?_, by simp [hr.count], ?_⟩, ?_⟩
  · simp [dUnlink, hcell, hhead, htail]
  · refine DSeg.append_iff.mpr ⟨some y.1, ?_, ?_⟩
    · refine (hxs.set_last (fun hmem => (hus _ hmem).1 rfl) (some y.1)).frame fun b hb => ?_
      simp only [addrs, List.map_append, List.map_cons, List.map_nil, List.mem_append,
        List.mem_singleton] at hb
      have hb' : b ≠ a ∧ b ≠ y.1 := by
        rcases hb with hb | rfl
        · exact (hus b hb).2
        · exact ⟨hua, huy⟩
      rw [Heap.free_cell_of_ne _ hb'.1, Heap.modify_cell_of_ne _ _ hb'.2]
    · rw [lastAddr_concat]
      have hframe : DSeg (h.modify u.1 (DNode.linkNext (some y.1))) (some a) (some y.1)
          (y :: ys) none := hrest.frame fun b hb => by
        refine Heap.modify_cell_of_ne _ _ ?_
        rintro rfl
        simp only [addrs, List.map_cons, List.mem_cons] at hb
        exact hb.elim huy huys
      refine (hframe.set_first hyys (some u.1)).frame fun b hb => Heap.free_cell_of_ne _ ?_
      rintro rfl
      simp only [addrs, List.map_cons, List.mem_cons] at hb
      exact hb.elim hay hays
  · rw [hr.tail, lastAddr_append_cons, lastAddr_append_cons]
    rfl
  · intro b hb
    rw [Heap.free_cell_of_ne _ (by rintro rfl; simp at hb),
      Heap.modify_cell_of_ne _ _ (by rintro rfl; simp at hb),
      Heap.modify_cell_of_ne _ _ (by rintro rfl; simp at hb)]

/-- **Unlinking** any entry of a represented list leaves the other entries in order, and
touches no cell outside the list. -/
theorem dUnlink_spec {h : Heap (DNode α)} {r : ListRoot} {xs ys : List (ℕ × α)} {a : ℕ} {v : α}
    (hr : DRep h r (xs ++ (a, v) :: ys)) :
    ∃ h' r', dUnlink h r a = some (h', r') ∧ DRep h' r' (xs ++ ys) ∧
      ∀ b, b ∉ addrs (xs ++ (a, v) :: ys) → h'.cell b = h.cell b := by
  rcases List.eq_nil_or_concat' xs with rfl | ⟨us, u, rfl⟩
  · exact dUnlink_head hr
  · have hhead : r.head ≠ some a := by
      obtain ⟨m, hxs, hm, -⟩ := DSeg.append_iff.mp hr.seg
      have hnd := hr.seg.nodup
      intro hra
      obtain ⟨w, ws, hw⟩ := List.exists_cons_of_ne_nil (l := us ++ [u]) (by simp)
      rw [hw] at hxs hnd
      have hwa : w.1 = a := Option.some.inj (hxs.1.symm.trans hra)
      simp [hwa] at hnd
    cases ys with
    | nil =>
      rw [List.append_nil]
      exact dUnlink_tail hr hhead
    | cons y ys => exact dUnlink_mid hr hhead

end LinkedHeap
