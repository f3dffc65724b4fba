import Vssim.Library.LinkedHeap
import Mathlib.Data.Int.Notation
import Mathlib.Data.List.Forall2
import Mathlib.Algebra.GroupWithZero.Nat

/-!
# Records and linked lists in files

C programs save an array of structures with `fwrite` and read it back with `fread`: the file is the
fields of one record after the other, and where a record ends is known from its size only. A file
is a list of words here, one per field, and a `Layout` says how a record is spelled.

A table of linked lists is saved as the array of its roots followed by the nodes of all lists, one
list after the other. The pointers in the file mean nothing to the process that reads it; the
loader relinks the lists by the counts in the roots (`Shape.load`). On lists that are what their
roots say, saving succeeds, and loading gives lists with the same payloads (`Shape.load_save`).
-/

namespace RecordFile

open LinkedHeap

/-- How a record is spelled in a file. -/
structure Layout (α : Type) where
  size : ℕ
  encode : α → List ℤ
  decode : List ℤ → α
  length_encode : ∀ a, (encode a).length = size
  decode_encode : ∀ a, decode (encode a) = a

variable {α ν : Type}

/-- Write records. -/
def fwrite (L : Layout α) (as : List α) : List ℤ := as.flatMap L.encode

/-- Read `n` records; what is left of the file. -/
def fread (L : Layout α) : ℕ → List ℤ → List α × List ℤ
  | 0, ws => ([], ws)
  | n + 1, ws =>
    let (as, rest) := fread L n (ws.drop L.size)
    (L.decode (ws.take L.size) :: as, rest)

private theorem fwrite_cons (L : Layout α) (a : α) (as : List α) :
    fwrite L (a :: as) = L.encode a ++ fwrite L as := List.flatMap_cons

private theorem fwrite_append (L : Layout α) (as bs : List α) :
    fwrite L (as ++ bs) = fwrite L as ++ fwrite L bs := List.flatMap_append

/-- The first record of a file. -/
private theorem fread_one (L : Layout α) (a : α) (ws : List ℤ) :
    L.decode ((L.encode a ++ ws).take L.size) = a ∧ (L.encode a ++ ws).drop L.size = ws := by
  rw [← L.length_encode a, List.take_left, List.drop_left]
  exact ⟨L.decode_encode a, rfl⟩

/-- **Records can be read back.** -/
theorem fread_fwrite (L : Layout α) (as : List α) (ws : List ℤ) :
    fread L as.length (fwrite L as ++ ws) = (as, ws) := by
  induction as with
  | nil => rfl
  | cons a as ih =>
    obtain ⟨hdecode, hdrop⟩ := fread_one L a (fwrite L as ++ ws)
    rw [fwrite_cons, List.append_assoc, List.length_cons, fread, hdecode, hdrop, ih]

/-- A table of `n` records can be read back. -/
theorem fread_table (L : Layout α) (n : ℕ) (f : ℕ → α) :
    (fread L n (fwrite L ((List.range n).map f))).1 = (List.range n).map f := by
  have hread := fread_fwrite L ((List.range n).map f) []
  rw [List.append_nil, List.length_map, List.length_range] at hread
  rw [hread]

/-- Read `k` arrays of `n` records each. -/
def freadArrays (L : Layout α) (n : ℕ) : ℕ → List ℤ → List (List α)
  | 0, _ => []
  | k + 1, ws =>
    let (as, rest) := fread L n ws
    as :: freadArrays L n k rest

/-- Arrays written one after the other can be read back. -/
private theorem freadArrays_flatMap (L : Layout α) {n : ℕ} {ass : List (List α)}
    (hlen : ∀ as ∈ ass, as.length = n) :
    freadArrays L n ass.length (ass.flatMap (fwrite L)) = ass := by
  induction ass with
  | nil => rfl
  | cons as ass ih =>
    have hhead : as.length = n := hlen as (List.mem_cons_self ..)
    rw [List.flatMap_cons, List.length_cons, freadArrays, ← hhead, fread_fwrite, hhead]
    exact congrArg (as :: ·) (ih fun bs hbs => hlen bs (List.mem_cons_of_mem _ hbs))

/-- A table of `k` arrays of `n` records can be read back. -/
theorem freadArrays_table (L : Layout α) (n k : ℕ) (f : ℕ → ℕ → α) :
    freadArrays L n k
      (((List.range k).map fun i => (List.range n).map (f i)).flatMap (fwrite L)) =
        (List.range k).map fun i => (List.range n).map (f i) := by
  have hread := freadArrays_flatMap L (n := n)
    (show ∀ as ∈ (List.range k).map fun i => (List.range n).map (f i), as.length = n by simp)
  rwa [List.length_map, List.length_range] at hread

/-! ### Saving linked lists -/

/-- The `n` nodes along the `next` pointers from `p`; `none` when a pointer is `NULL` or dangling. -/
def nodes (next : ν → Option ℕ) (h : Heap ν) : ℕ → Option ℕ → Option (List ν)
  | 0, _ => some []
  | n + 1, p => do
    let a ← p
    let c ← h.cell a
    let cs ← nodes next h n (next c)
    some (c :: cs)

/-- The nodes of all lists of a table, as many as their roots say. -/
def allNodes (next : ν → Option ℕ) (h : Heap ν) : List ListRoot → Option (List ν)
  | [] => some []
  | r :: rs => do
    let cs ← nodes next h r.count r.head
    let ds ← allNodes next h rs
    some (cs ++ ds)

/-- Save a table of lists: the roots, then the nodes. -/
def saveLists (R : Layout ListRoot) (N : Layout ν) (next : ν → Option ℕ) (h : Heap ν)
    (rs : List ListRoot) : Option (List ℤ) :=
  (allNodes next h rs).map fun cs => fwrite R rs ++ fwrite N cs

/-! ### Loading linked lists -/

/-- A way to represent lists in a heap, with the layout of their nodes and an operation that appends
an entry. -/
structure Shape (ν α : Type) where
  val : ν → α
  next : ν → Option ℕ
  layout : Layout ν
  push : Heap ν → ListRoot → α → Option (Heap ν × ListRoot)
  Rep : Heap ν → ListRoot → List (ℕ × α) → Prop
  count_eq : ∀ {h r xs}, Rep h r xs → r.count = xs.length
  /-- A list survives any heap that agrees on the addresses handed out so far. -/
  frame : ∀ {h h' r xs}, Rep h r xs → (∀ a < h.brk, h'.cell a = h.cell a) → Rep h' r xs
  nodes_eq : ∀ {h r xs}, Rep h r xs →
    ∃ cs, nodes next h xs.length r.head = some cs ∧ cs.map val = xs.map Prod.snd
  nil : ∀ h, Rep h ⟨none, none, 0⟩ []
  nil_frame : ∀ {h r}, Rep h r [] → ∀ h', Rep h' r []
  /-- An empty list is started afresh, whatever the pointers of its root. -/
  push_zero : ∀ h r v, r.count = 0 → push h r v = push h ⟨none, none, 0⟩ v
  push_eq : ∀ {h r xs} (v : α), Rep h r xs → ∃ h' r', push h r v = some (h', r') ∧
    Rep h' r' (xs ++ [(h.brk, v)]) ∧ h.brk ≤ h'.brk ∧
    ∀ a, a ≠ h.brk → a ∉ addrs xs → h'.cell a = h.cell a

namespace Shape

variable (S : Shape ν α) {h : Heap ν} {r : ListRoot} {xs : List (ℕ × α)}

/-- The loop that reads the last `k` of the `r.count` nodes of a list: each is appended to those
before it, of which there are none in the first round. -/
def load : ℕ → Heap ν → ListRoot → List ℤ → Option (Heap ν × ListRoot × List ℤ)
  | 0, h, r, ws => some (h, r, ws)
  | k + 1, h, r, ws => do
    let c := S.layout.decode (ws.take S.layout.size)
    let (h₁, r₁) ← S.push h { r with count := r.count - (k + 1) } (S.val c)
    load k h₁ { r₁ with count := r.count } (ws.drop S.layout.size)

/-- Load the lists of a table, given the roots as the file has them. -/
def loadLists : List ListRoot → Heap ν → List ℤ → Option (List ListRoot × Heap ν)
  | [], h, _ => some ([], h)
  | r :: rs, h, ws => do
    let (h₁, r₁, ws₁) ← S.load r.count h r ws
    let (rs₂, h₂) ← loadLists rs h₁ ws₁
    some (r₁ :: rs₂, h₂)

/-- Load a table of `n` lists: the roots, then the lists, and the sum of the counts. -/
def loadTable (R : Layout ListRoot) (n : ℕ) (file : List ℤ) :
    Option (List ListRoot × Heap ν × ℕ) :=
  let (rs, ws) := fread R n file
  (S.loadLists rs Heap.empty ws).map fun (rs', h) => (rs', h, (rs.map ListRoot.count).sum)

variable {S}

/-- Loading the rest of a list, of which `xs` is there; nothing below `b` is touched. -/
private theorem load_append {b : ℕ} (xs : List (ℕ × α)) (cs : List ν) (ws : List ℤ)
    (hcount : r.count = xs.length + cs.length)
    (hr : S.Rep h { r with count := xs.length } xs) (hb : ∀ a ∈ addrs xs, b ≤ a)
    (hbrk : b ≤ h.brk) :
    ∃ h₁ r₁ ys, S.load cs.length h r (fwrite S.layout cs ++ ws) = some (h₁, r₁, ws) ∧
      S.Rep h₁ r₁ (xs ++ ys) ∧ ys.map Prod.snd = cs.map S.val ∧ b ≤ h₁.brk ∧
      ∀ a < b, h₁.cell a = h.cell a := by
  induction cs generalizing h r xs with
  | nil =>
    have hcount : r.count = xs.length := hcount
    refine ⟨h, r, [], rfl, ?_, rfl, hbrk, fun _ _ => rfl⟩
    rw [← hcount] at hr
    rwa [List.append_nil]
  | cons c cs ih =>
    obtain ⟨hdecode, hdrop⟩ := fread_one S.layout c (fwrite S.layout cs ++ ws)
    obtain ⟨h₁, r₁, hpush, hrep₁, hbrk₁, hframe⟩ := S.push_eq (S.val c) hr
    have hsofar : r.count - (cs.length + 1) = xs.length := by
      rw [hcount, List.length_cons]
      omega
    have hrep₁' : S.Rep h₁ { r₁ with count := (xs ++ [(h.brk, S.val c)]).length }
        (xs ++ [(h.brk, S.val c)]) := by
      rw [← S.count_eq hrep₁]
      exact hrep₁
    obtain ⟨h₂, r₂, ys, hrun, hrep₂, hys, hbrk₂, hkept⟩ :=
      ih (r := { r₁ with count := r.count }) (xs ++ [(h.brk, S.val c)])
        (by
          show r.count = _
          rw [hcount, List.length_append, List.length_singleton, List.length_cons]
          omega) hrep₁'
        (by
          intro a ha
          simp only [addrs, List.map_append, List.mem_append, List.map_cons, List.map_nil,
            List.mem_singleton] at ha hb
          rcases ha with ha | rfl
          · exact hb a ha
          · exact hbrk) (Nat.le_trans hbrk hbrk₁)
    refine ⟨h₂, r₂, (h.brk, S.val c) :: ys, ?_, by simpa using hrep₂, by simp [hys], hbrk₂,
      fun a ha => ?_⟩
    · rw [fwrite_cons, List.append_assoc, List.length_cons, load, hdecode, hdrop, hsofar, hpush]
      exact hrun
    · rw [hkept a ha]
      exact hframe a (by omega) fun hmem => absurd (hb a hmem) (by omega)

/-- Loading a list into another heap. -/
private theorem load_spec (cs : List ν) (h' : Heap ν) (ws : List ℤ) (hr : S.Rep h r xs)
    (hlen : cs.length = r.count) :
    ∃ h₁ r₁ ys, S.load r.count h' r (fwrite S.layout cs ++ ws) = some (h₁, r₁, ws) ∧
      S.Rep h₁ r₁ ys ∧ ys.map Prod.snd = cs.map S.val ∧ h'.brk ≤ h₁.brk ∧
      ∀ a < h'.brk, h₁.cell a = h'.cell a := by
  cases cs with
  | nil =>
    have hzero : xs = [] := List.length_eq_zero_iff.mp ((S.count_eq hr).symm.trans hlen.symm)
    rw [hzero] at hr
    exact ⟨h', r, [], by rw [← hlen]; rfl, S.nil_frame hr h', rfl, Nat.le_refl _, fun _ _ => rfl⟩
  | cons c cs =>
    -- the pointers of the root do not matter for the first node
    have hfresh : S.load r.count h' r (fwrite S.layout (c :: cs) ++ ws) =
        S.load r.count h' ⟨none, none, r.count⟩ (fwrite S.layout (c :: cs) ++ ws) := by
      rw [← hlen, List.length_cons, load, load]
      simp only [← hlen, List.length_cons, Nat.sub_self]
      rw [S.push_zero _ _ _ rfl]
    obtain ⟨h₁, r₁, ys, hrun, hrep₁, hys, hbrk, hkept⟩ :=
      load_append (r := ⟨none, none, r.count⟩) [] (c :: cs) ws
        (by rw [← hlen, List.length_nil, Nat.zero_add]) (S.nil h') (by simp) (Nat.le_refl h'.brk)
    rw [hlen] at hrun
    exact ⟨h₁, r₁, ys, hfresh.trans hrun, hrep₁, hys, hbrk, hkept⟩

/-- The nodes of the lists of a table, loaded into another heap. -/
private theorem loadLists_spec {rs : List ListRoot} {xss : List (List (ℕ × α))}
    (hreps : List.Forall₂ (S.Rep h) rs xss) :
    ∃ cs, allNodes S.next h rs = some cs ∧ ∀ (h' : Heap ν) (ws : List ℤ), ∃ rs₁ h₁ yss,
      S.loadLists rs h' (fwrite S.layout cs ++ ws) = some (rs₁, h₁) ∧
      List.Forall₂ (S.Rep h₁) rs₁ yss ∧
      yss.map (List.map Prod.snd) = xss.map (List.map Prod.snd) ∧
      ∀ a < h'.brk, h₁.cell a = h'.cell a := by
  induction hreps with
  | nil => exact ⟨[], rfl, fun h' ws => ⟨[], h', [], rfl, .nil, rfl, fun _ _ => rfl⟩⟩
  | @cons r xs rs xss hrep hreps ih =>
    obtain ⟨cs, hcs, hvals⟩ := S.nodes_eq hrep
    rw [← S.count_eq hrep] at hcs
    have hlen : cs.length = r.count := by
      have := congrArg List.length hvals
      rw [List.length_map, List.length_map, ← S.count_eq hrep] at this
      exact this
    obtain ⟨ds, hds, hload⟩ := ih
    refine ⟨cs ++ ds, by simp [allNodes, hcs, hds], fun h' ws => ?_⟩
    obtain ⟨h₁, r₁, ys, hone, hrep₁, hys, hbrk, hkept⟩ :=
      load_spec cs h' (fwrite S.layout ds ++ ws) hrep hlen
    obtain ⟨rs₂, h₂, yss, hall, hreps₂, hyss, hkept₂⟩ := hload h₁ ws
    refine ⟨r₁ :: rs₂, h₂, ys :: yss, ?_, .cons (S.frame hrep₁ hkept₂) hreps₂, ?_, fun a ha => ?_⟩
    · rw [fwrite_append, List.append_assoc]
      simp [loadLists, hone, hall]
    · simp only [List.map_cons, hys, hvals, hyss]
    · rw [hkept₂ a (by omega), hkept a ha]

/-- **A saved table can be loaded**: the lists have the same payloads as before. -/
theorem load_save (R : Layout ListRoot) {n : ℕ} {roots : ℕ → ListRoot} {xs : ℕ → List (ℕ × α)}
    (hreps : ∀ i < n, S.Rep h (roots i) (xs i)) :
    ∃ (file : List ℤ) (rs : List ListRoot) (h₁ : Heap ν) (ys : ℕ → List (ℕ × α)),
      saveLists R S.layout S.next h ((List.range n).map roots) = some file ∧
      S.loadTable R n file = some (rs, h₁, ((List.range n).map fun i => (xs i).length).sum) ∧
      ∀ i < n, S.Rep h₁ (rs.getD i ⟨none, none, 0⟩) (ys i) ∧
        (ys i).map Prod.snd = (xs i).map Prod.snd := by
  have hall : List.Forall₂ (S.Rep h) ((List.range n).map roots) ((List.range n).map xs) := by
    rw [List.forall₂_map_left_iff, List.forall₂_map_right_iff, List.forall₂_same]
    exact fun i hi => hreps i (List.mem_range.mp hi)
  obtain ⟨cs, hcs, hload⟩ := loadLists_spec hall
  obtain ⟨rs, h₁, yss, hrun, hreps₁, hyss, -⟩ := hload Heap.empty []
  have hcounts : ((List.range n).map roots).map ListRoot.count =
      (List.range n).map fun i => (xs i).length := by
    rw [List.map_map]
    exact List.map_congr_left fun i hi => S.count_eq (hreps i (List.mem_range.mp hi))
  have hlen : yss.length = n := by
    have := congrArg List.length hyss
    simpa using this
  rw [List.append_nil] at hrun
  refine ⟨fwrite R ((List.range n).map roots) ++ fwrite S.layout cs, rs, h₁,
    fun i => yss.getD i [], ?_, ?_, fun i hi => ?_⟩
  · rw [saveLists, hcs, Option.map_some]
  · have hread := fread_fwrite R ((List.range n).map roots) (fwrite S.layout cs)
    rw [List.length_map, List.length_range] at hread
    simp only [loadTable, hread, hrun, Option.map_some, hcounts]
  · obtain ⟨hsame, hget⟩ := List.forall₂_iff_get.mp hreps₁
    have hy : i < yss.length := by omega
    have hr : i < rs.length := by omega
    refine ⟨by simpa [List.getD_eq_getElem?_getD, hy, hr] using hget i hr hy, ?_⟩
    have := congrArg (fun zs => zs.getD i []) hyss
    simpa [List.getD_eq_getElem?_getD, hy, hi] using this

end Shape

/-! ### The two shapes -/

private theorem nodes_of_sSeg {h : Heap (SNode α)} {p : Option ℕ} {xs : List (ℕ × α)}
    (hs : SSeg h p xs none) :
    ∃ cs, nodes SNode.next h xs.length p = some cs ∧ cs.map SNode.val = xs.map Prod.snd := by
  induction xs generalizing p with
  | nil => exact ⟨[], rfl, rfl⟩
  | cons x xs ih =>
    obtain ⟨rfl, n, hcell, hrest⟩ := hs
    obtain ⟨cs, hcs, hvals⟩ := ih hrest
    exact ⟨⟨x.2, n⟩ :: cs, by simp [nodes, hcell, hcs], by simp [hvals]⟩

private theorem nodes_of_dSeg {h : Heap (DNode α)} {b p : Option ℕ} {xs : List (ℕ × α)}
    (hs : DSeg h b p xs none) :
    ∃ cs, nodes DNode.next h xs.length p = some cs ∧ cs.map DNode.val = xs.map Prod.snd := by
  induction xs generalizing b p with
  | nil => exact ⟨[], rfl, rfl⟩
  | cons x xs ih =>
    obtain ⟨rfl, n, hcell, hrest⟩ := hs
    obtain ⟨cs, hcs, hvals⟩ := ih hrest
    exact ⟨⟨x.2, b, n⟩ :: cs, by simp [nodes, hcell, hcs], by simp [hvals]⟩

/-- Singly linked lists. -/
def singly (N : Layout (SNode α)) : Shape (SNode α) α where
  val := SNode.val
  next := SNode.next
  layout := N
  push := sPush
  Rep := SRep
  count_eq hr := hr.count
  frame hr hc := hr.frame fun a ha => hc a (hr.seg.lt_brk ha)
  nodes_eq hr := nodes_of_sSeg hr.seg
  nil _ := ⟨rfl, rfl, fun hne => absurd rfl hne⟩
  nil_frame hr _ := ⟨hr.seg, hr.count, fun hne => absurd rfl hne⟩
  push_zero h r v hzero := by simp [sPush, hzero]
  push_eq {h r xs} v hr := by
    obtain ⟨h', r', hpush, hrep, hframe⟩ := sPush_spec hr v
    refine ⟨h', r', hpush, hrep, ?_, hframe⟩
    rw [sPush] at hpush
    split at hpush
    · cases hpush
      exact Nat.le_succ _
    · obtain ⟨t, -, heq⟩ := Option.map_eq_some_iff.mp hpush
      cases heq
      exact Nat.le_succ _

/-- Doubly linked lists. -/
def doubly (N : Layout (DNode α)) : Shape (DNode α) α where
  val := DNode.val
  next := DNode.next
  layout := N
  push := dPush
  Rep := DRep
  count_eq hr := hr.count
  frame hr hc := hr.frame fun a ha => hc a (hr.seg.lt_brk ha)
  nodes_eq hr := nodes_of_dSeg hr.seg
  nil _ := ⟨rfl, rfl, rfl⟩
  nil_frame hr _ := ⟨hr.seg, hr.count, hr.tail⟩
  push_zero h r v hzero := by simp [dPush, hzero]
  push_eq {h r xs} v hr := by
    obtain ⟨h', r', hpush, hrep, hframe⟩ := dPush_spec hr v
    refine ⟨h', r', hpush, hrep, ?_, hframe⟩
    rw [dPush] at hpush
    split at hpush
    · cases hpush
      exact Nat.le_succ _
    · obtain ⟨t, -, heq⟩ := Option.map_eq_some_iff.mp hpush
      cases heq
      exact Nat.le_succ _

end RecordFile
