import Vssim.Io.Perf
import Vssim.Library.Tracker

/-!
# The outstanding requests

What the functions on the list of outstanding requests do to the list that its pointers
represent, and then what `ALLOC_IO_REQUEST` and `UPDATE_IO_REQUEST` do in terms of a
`Tracker`, whose jobs are the requests and whose parts are their pages: the list holds
exactly the live requests, and the log says when each of them was freed.
-/

namespace Vssim

open LinkedHeap

theorem toU32_toI32 {r : ℕ} (hr : r < 2 ^ 32) : toU32 (toI32 r) = r := by
  rw [toU32, toI32, Int.bmod_def]
  split <;> omega

/-- A request number below the largest one is not mistaken for `-1`. -/
private theorem toI32_ne_neg_one {r : ℕ} (hr : r < 2 ^ 32 - 1) : toI32 r ≠ -1 := by
  rw [toI32, Int.bmod_def]
  split <;> omega

theorem toI16_of_lt {n : ℕ} (hn : n < 2 ^ 15) : toI16 n = n := by
  rw [toI16, Int.bmod_def]
  split <;> omega

/-! ### The list functions -/

namespace RequestList

variable {l : RequestList} {h : Heap (SNode IoRequest)} {xs ys zs : List (ℕ × IoRequest)}
  {a : ℕ} {e : IoRequest}

/-- `push` appends. -/
private theorem push_spec (hrep : SRep l.heap l.root xs) (r : IoRequest) :
    ∃ l', l.push r = .ok l' ∧ SRep l'.heap l'.root (xs ++ [(l.heap.brk, r)]) := by
  obtain ⟨h', r', hpush, hrep', -⟩ := sPush_spec hrep r
  refine ⟨⟨h', r'⟩, ?_, hrep'⟩
  rcases List.eq_nil_or_concat' xs with rfl | ⟨ys, y, rfl⟩
  · have hcount : l.root.count = 0 := hrep.count
    have hhead : l.root.head = none := hrep.seg
    simp only [sPush, hcount, if_pos, Option.some.injEq, Prod.mk.injEq] at hpush
    simp [push, hcount, hhead, ← hpush.1, ← hpush.2]
  · have hcount : l.root.count ≠ 0 := by simp [hrep.count]
    have htail : l.root.tail = some y.1 := by rw [hrep.tail (by simp), lastAddr_concat]
    obtain ⟨n, hcell⟩ := (hrep.alloc ⟨r, none⟩).seg.cell_of_mem (x := y) (by simp)
    simp only [sPush, hcount, if_false, htail, Option.map_some, Option.some.injEq,
      Prod.mk.injEq] at hpush
    simp [push, hcount, htail, Option.filter, hcell, ← hpush.1, ← hpush.2]

/-- The new request gets an address not used before. -/
private theorem push_brk {l' : RequestList} {r : IoRequest} (hrun : l.push r = .ok l') :
    l'.heap.brk = l.heap.brk + 1 := by
  rw [push] at hrun
  split at hrun
  · cases hrun
    rfl
  · split at hrun
    · cases hrun
    · cases hrun
      rfl

/-- The loop of `LOOKUP_IO_REQUEST` finds the first request with its number. -/
private theorem lookupLoop_spec {requestNb n p : ℕ} (hs : SSeg h (some p) (ys ++ (a, e) :: zs) none)
    (hn : ys.length < n) (hys : ∀ y ∈ ys, y.2.requestNb ≠ requestNb)
    (he : e.requestNb = requestNb) : lookupLoop h requestNb n p = .ok (some a) := by
  induction ys generalizing p n with
  | nil =>
    obtain ⟨n, rfl⟩ : ∃ k, n = k + 1 := ⟨n - 1, by simp at hn; omega⟩
    obtain ⟨hp, k, hcell, -⟩ := hs
    cases hp
    simp [lookupLoop, hcell, he]
  | cons y ys ih =>
    obtain ⟨n, rfl⟩ : ∃ k, n = k + 1 := ⟨n - 1, by simp at hn; omega⟩
    obtain ⟨hp, k, hcell, hrest⟩ := hs
    cases hp
    have hne : y.2.requestNb ≠ requestNb := hys y (by simp)
    obtain ⟨q, rfl⟩ : ∃ q, k = some q := by
      cases ys with
      | nil => exact ⟨a, hrest.1⟩
      | cons z _ => exact ⟨z.1, hrest.1⟩
    simp only [lookupLoop, hcell, hne, if_false]
    exact ih hrest (by simpa using hn) fun z hz => hys z (by simp [hz])

/-- `LOOKUP_IO_REQUEST` finds the first request with its number. -/
private theorem lookup_first {nb : ℤ} (hrep : SRep l.heap l.root (ys ++ (a, e) :: zs))
    (hys : ∀ y ∈ ys, y.2.requestNb ≠ toU32 nb) (he : e.requestNb = toU32 nb) :
    l.lookup nb = .ok (some a) := by
  obtain ⟨p, hp⟩ : ∃ p, l.root.head = some p := by
    cases ys with
    | nil => exact ⟨a, hrep.seg.1⟩
    | cons y _ => exact ⟨y.1, hrep.seg.1⟩
  have hseg := hrep.seg
  rw [hp] at hseg
  rw [lookup, hp]
  exact lookupLoop_spec hseg (by rw [hrep.count, List.length_append, List.length_cons]; omega) hys he

theorem lookup_spec {r : ℕ} (hrep : SRep l.heap l.root (ys ++ (a, e) :: zs)) (hr : r < 2 ^ 32)
    (hys : ∀ y ∈ ys, y.2.requestNb ≠ r) (he : e.requestNb = r) :
    l.lookup (toI32 r) = .ok (some a) := by
  have hu := toU32_toI32 hr
  exact lookup_first hrep (fun y hy => hu.symm ▸ hys y hy) (he.trans hu.symm)

/-- The loop of `LOOKUP_IO_REQUEST` finds nothing when no request has its number. -/
private theorem lookupLoop_none {requestNb n p : ℕ} (hs : SSeg h (some p) xs none)
    (hxs : ∀ x ∈ xs, x.2.requestNb ≠ requestNb) : lookupLoop h requestNb n p = .ok none := by
  induction xs generalizing p n with
  | nil => cases hs
  | cons x xs ih =>
    cases n with
    | zero => rfl
    | succ n =>
      obtain ⟨hp, k, hcell, hrest⟩ := hs
      cases hp
      have hne : x.2.requestNb ≠ requestNb := hxs x (by simp)
      simp only [lookupLoop, hcell, hne, if_false]
      cases k with
      | none => rfl
      | some q => exact ih hrest fun z hz => hxs z (by simp [hz])

/-- `LOOKUP_IO_REQUEST` finds nothing when no request has its number. -/
private theorem lookup_none {nb : ℤ} (hrep : SRep l.heap l.root xs)
    (hxs : ∀ x ∈ xs, x.2.requestNb ≠ toU32 nb) :
    l.lookup nb = .error .lookupNoRequest ∨ l.lookup nb = .ok none := by
  rw [lookup]
  cases hhead : l.root.head with
  | none => exact .inl rfl
  | some p => exact .inr (lookupLoop_none (hhead ▸ hrep.seg) hxs)

/-- Either no request has the number, or `LOOKUP_IO_REQUEST` finds the first one that does. -/
theorem lookup_cases (hrep : SRep l.heap l.root xs) (nb : ℤ) :
    (∀ x ∈ xs, x.2.requestNb ≠ toU32 nb) ∧
        (l.lookup nb = .error .lookupNoRequest ∨ l.lookup nb = .ok none) ∨
      ∃ ys a e zs n, xs = ys ++ (a, e) :: zs ∧ e.requestNb = toU32 nb ∧
        (∀ y ∈ ys, y.2.requestNb ≠ toU32 nb) ∧ l.lookup nb = .ok (some a) ∧
        l.heap.cell a = some ⟨e, n⟩ := by
  cases hfind : xs.find? fun x => x.2.requestNb = toU32 nb with
  | none =>
    have hall : ∀ x ∈ xs, x.2.requestNb ≠ toU32 nb := by simpa using hfind
    exact .inl ⟨hall, lookup_none hrep hall⟩
  | some x =>
    obtain ⟨a, e⟩ := x
    obtain ⟨he, ys, zs, rfl, hys⟩ := List.find?_eq_some_iff_append.mp hfind
    replace he : e.requestNb = toU32 nb := by simpa using he
    replace hys : ∀ y ∈ ys, y.2.requestNb ≠ toU32 nb := by simpa using hys
    obtain ⟨n, hcell⟩ := hrep.seg.cell_of_mem (x := (a, e)) (by simp)
    exact .inr ⟨ys, a, e, zs, n, rfl, he, hys, lookup_first hrep hys he, hcell⟩

/-- The loop of `FREE_IO_REQUEST` links around the request. -/
private theorem unlinkLoop_spec {b n : ℕ} {w : IoRequest} {prev k : Option ℕ}
    (hs : SSeg h prev (ys ++ (b, w) :: (a, e) :: zs) none) (ha : h.cell a = some ⟨e, k⟩)
    (hn : ys.length < n) :
    unlinkLoop h (lastAddr (some a) zs) a n prev =
      .ok (h.modify b (SNode.link k), lastAddr (some b) zs) := by
  induction ys generalizing prev n with
  | nil =>
    obtain ⟨n, rfl⟩ : ∃ k, n = k + 1 := ⟨n - 1, by simp at hn; omega⟩
    have hnotMem := (List.append_cons [] (b, w) _ ▸ hs).notMem_of_append.2
    obtain ⟨rfl, m, hcell, hm, k', ha', hrest⟩ := hs
    obtain rfl : k' = k := by
      rw [ha'] at ha
      exact congrArg SNode.next (Option.some.inj ha)
    cases zs with
    | nil =>
      have hk : k' = none := hrest
      simp [unlinkLoop, hcell, hm, lastAddr, hk]
    | cons z zs =>
      have hne : some a ≠ lastAddr (some z.1) zs := fun heq =>
        hnotMem (lastAddr_mem (p := none) (List.cons_ne_nil z zs) heq.symm)
      simp [unlinkLoop, hcell, hm, lastAddr, hne, ha']
  | cons y ys ih =>
    obtain ⟨n, rfl⟩ : ∃ k, n = k + 1 := ⟨n - 1, by simp at hn; omega⟩
    have hnotMem := (List.append_cons (y :: ys) (b, w) _ ▸ hs).notMem_of_append.1
    obtain ⟨rfl, m, hcell, hrest⟩ := hs
    have hne : m ≠ some a := by
      rintro rfl
      cases ys with
      | nil => exact hnotMem (by simp [Option.some.inj hrest.1])
      | cons z _ => exact hnotMem (by simp [Option.some.inj hrest.1])
    simp only [unlinkLoop, hcell, hne, false_and, if_false]
    exact ih hrest (by simpa using hn)

/-- `FREE_IO_REQUEST` removes its request. -/
private theorem freeIoRequest_spec (hrep : SRep l.heap l.root (ys ++ (a, e) :: zs)) :
    ∃ l', l.freeIoRequest a = .ok l' ∧ SRep l'.heap l'.root (ys ++ zs) := by
  have hcount : l.root.count = ys.length + (zs.length + 1) := by
    rw [hrep.count, List.length_append, List.length_cons]
  obtain ⟨k, ha⟩ := hrep.seg.cell_of_mem (x := (a, e)) (by simp)
  rcases List.eq_nil_or_concat' ys with rfl | ⟨ys, ⟨b, w⟩, rfl⟩
  · have hhead : l.root.head = some a := hrep.seg.1
    have hpop := hrep.pop ha
    by_cases hone : l.root.count = 1
    · rw [if_pos hone] at hpop
      refine ⟨⟨l.heap.free a, ⟨none, none, 0⟩⟩, by simp [freeIoRequest, hone], hpop.seg, hpop.count,
        fun hne => absurd ?_ hne⟩
      simpa [hone] using hcount
    · rw [if_neg hone] at hpop
      refine ⟨⟨l.heap.free a, ⟨k, l.root.tail, l.root.count - 1⟩⟩, ?_, hpop⟩
      simp only [freeIoRequest, hone, hhead, ha, if_false, if_true]
  · have hone : l.root.count ≠ 1 := by
      rw [hcount, List.length_append, List.length_singleton]
      omega
    have hrep' : SRep l.heap l.root (ys ++ (b, w) :: (a, e) :: zs) := by
      simpa using hrep
    have hhead : l.root.head ≠ some a := fun heq => by
      have hnotMem := hrep.seg.notMem_of_append.1
      cases ys with
      | nil => exact hnotMem (by simp [Option.some.inj (heq.symm.trans hrep'.seg.1)])
      | cons y _ => exact hnotMem (by simp [Option.some.inj (heq.symm.trans hrep'.seg.1)])
    have htail : l.root.tail = lastAddr (some a) zs := by
      rw [hrep.tail (by simp), lastAddr_append_cons]
    have hloop := unlinkLoop_spec (n := l.root.count - 1) hrep'.seg ha (by
      rw [hcount, List.length_append, List.length_singleton]
      omega)
    refine ⟨⟨(l.heap.modify b (SNode.link k)).free a,
      ⟨l.root.head, lastAddr (some b) zs, l.root.count - 1⟩⟩, ?_, ?_⟩
    · simp only [freeIoRequest, hone, hhead, htail, hloop, Except.map, if_false]
    · rw [List.append_assoc]
      exact hrep'.bypass ha

/-- No request gets a new address. -/
private theorem unlinkLoop_brk {h h' : Heap (SNode IoRequest)} {last last' prev : Option ℕ}
    {p n : ℕ} (hrun : unlinkLoop h last p n prev = .ok (h', last')) : h'.brk = h.brk := by
  induction n generalizing prev with
  | zero => cases hrun
  | succ n ih =>
    rw [unlinkLoop.eq_def] at hrun
    have hmodify : ∀ a f, (h.modify a f).brk = h.brk := fun _ _ => rfl
    grind

private theorem freeIoRequest_brk {l l' : RequestList} {p : ℕ} (hrun : l.freeIoRequest p = .ok l') :
    l'.heap.brk = l.heap.brk := by
  rw [freeIoRequest] at hrun
  split at hrun
  · cases hrun
    rfl
  split at hrun
  · split at hrun
    · cases hrun
    · cases hrun
      rfl
  · cases hloop : unlinkLoop l.heap l.root.tail p (l.root.count - 1) l.root.head with
    | error e => simp [hloop, Except.map] at hrun
    | ok x =>
      obtain ⟨h', last'⟩ := x
      simp only [hloop, Except.map, Except.ok.injEq] at hrun
      rw [← hrun]
      exact (unlinkLoop_brk hloop).trans rfl

/-- The list after `UPDATE_IO_REQUEST` has updated the request at `a`. -/
def writeBack (l : RequestList) (a : ℕ) (e : IoRequest) : RequestList :=
  ⟨l.heap.modify a fun c => { c with val := e }, l.root⟩

private theorem writeBack_rep (e' : IoRequest) (hrep : SRep l.heap l.root (ys ++ (a, e) :: zs)) :
    SRep (l.writeBack a e').heap (l.writeBack a e').root (ys ++ (a, e') :: zs) :=
  hrep.set_val fun _ => e'

end RequestList

/-- The outstanding requests, as the pointers spell them out. -/
def Io.outstanding (s : Io) : List IoRequest :=
  walk SNode.val SNode.next s.requests.heap s.requests.root.count s.requests.root.head

def Io.outstandingNbs (s : Io) : List ℕ := s.outstanding.map IoRequest.requestNb

theorem Io.outstanding_eq {s : Io} {xs : List (ℕ × IoRequest)}
    (hrep : SRep s.requests.heap s.requests.root xs) : s.outstanding = xs.map Prod.snd := hrep.walk_eq

theorem Io.outstandingNbs_eq {s : Io} {xs : List (ℕ × IoRequest)}
    (hrep : SRep s.requests.heap s.requests.root xs) :
    s.outstandingNbs = xs.map fun x => x.2.requestNb := by
  rw [outstandingNbs, outstanding_eq hrep, List.map_map]
  rfl

/-! ### Requests as jobs -/

private theorem mem_append_cons {α : Type} {x a : α} {ys zs : List α} :
    x ∈ ys ++ a :: zs ↔ x = a ∨ x ∈ ys ++ zs := by
  simp only [List.mem_append, List.mem_cons]
  tauto

/-- The list holds exactly the live requests, with their counts. -/
structure Tracks (l : RequestList) (τ : Tracker) (xs : List (ℕ × IoRequest)) : Prop where
  rep : SRep l.heap l.root xs
  numbers : xs.map (fun x => x.2.requestNb) = τ.liveJobs
  counts : ∀ x ∈ xs, x.2.requestSize = τ.size x.2.requestNb ∧
    x.2.startCount = τ.begun x.2.requestNb ∧ x.2.endCount = τ.finished x.2.requestNb

/-- The entries of a list are, by address and number, among those of another. -/
structure Among (l : RequestList) (xs : List (ℕ × IoRequest)) (l' : RequestList)
    (xs' : List (ℕ × IoRequest)) : Prop where
  brk : l'.heap.brk = l.heap.brk
  entries : ∀ x ∈ xs', ∃ y ∈ xs, x.1 = y.1 ∧ x.2.requestNb = y.2.requestNb

/-- The numbers stay within the range of their C types; `-1` is kept for "no request". -/
structure Fits (τ : Tracker) : Prop where
  count_lt : τ.count < 2 ^ 32 - 1
  size_lt : ∀ r, τ.size r < 2 ^ 15

theorem Fits.toI32_ne {τ : Tracker} (h : Fits τ) {r : ℕ} (hr : r < τ.count) : toI32 r ≠ -1 :=
  toI32_ne_neg_one (hr.trans h.count_lt)

theorem Fits.toI32_inj {τ : Tracker} (h : Fits τ) {r r' : ℕ} (hr : r < τ.count)
    (hr' : r' < τ.count) (heq : toI32 r = toI32 r') : r = r' := by
  have hfit := h.count_lt
  rw [← toU32_toI32 (by omega : r < 2 ^ 32), heq, toU32_toI32 (by omega)]

theorem Fits.arrive {τ : Tracker} (h : Fits τ) (hcount : τ.count + 1 < 2 ^ 32 - 1) {n : ℕ} (hn : n < 2 ^ 15) :
    Fits (τ.arrive n) := by
  refine ⟨hcount, fun k => ?_⟩
  by_cases hk : k = τ.count
  · rw [hk, show (τ.arrive n).size τ.count = n from Function.update_self ..]
    exact hn
  · rw [show (τ.arrive n).size k = τ.size k from Function.update_of_ne hk ..]
    exact h.size_lt k

/-- The last end of a page of request `r`, right before its latency is reported and it is freed. -/
def FreedLast (log : List IoEvent) (r : ℕ) : Prop :=
  ∃ pre offset opType opDelay post, log = pre ++ .update .endTime r offset ::
    .perf opType opDelay .latencyOp :: .free r :: post ∧
    ∀ offset', IoEvent.update .endTime r offset' ∉ post

/-- What the log says about the requests. -/
structure Logged (log : List IoEvent) (τ : Tracker) : Prop where
  started : ∀ r (k : ℕ), log.count (.update .startTime r k) = if k < τ.begun r then 1 else 0
  ended : ∀ r (k : ℕ), log.count (.update .endTime r k) =
    if k < τ.begun r ∧ (r, k) ∉ τ.pending then 1 else 0
  freed : ∀ r, log.count (.free r) = if r < τ.count ∧ ¬τ.Live r then 1 else 0
  freedLast : ∀ r < τ.count, ¬τ.Live r → FreedLast log r
  noError : ∀ e, .error e ∉ log

/-- Entries that say nothing about a request. -/
def IoEvent.Neutral : IoEvent → Prop
  | .perf .. => True
  | _ => False

private theorem FreedLast.append {log es : List IoEvent} {r : ℕ} (h : FreedLast log r)
    (hes : ∀ offset, IoEvent.update .endTime r offset ∉ es) : FreedLast (log ++ es) r := by
  obtain ⟨pre, offset, ty, d, post, rfl, hpost⟩ := h
  refine ⟨pre, offset, ty, d, post ++ es, by simp, fun offset' hmem => ?_⟩
  rcases List.mem_append.mp hmem with hmem | hmem
  · exact hpost _ hmem
  · exact hes _ hmem

namespace Logged

variable {log : List IoEvent} {τ : Tracker}

theorem neutral (h : Logged log τ) {es : List IoEvent} (hes : ∀ e ∈ es, e.Neutral) :
    Logged (log ++ es) τ := by
  have hcount : ∀ e : IoEvent, ¬e.Neutral → (log ++ es).count e = log.count e := fun e he => by
    rw [List.count_append, List.count_eq_zero.mpr fun hmem => he (hes e hmem), add_zero]
  refine ⟨fun r k => ?_, fun r k => ?_, fun r => ?_, fun r hr hlive => ?_, fun e hmem => ?_⟩
  · rw [hcount _ id, h.started]
  · rw [hcount _ id, h.ended]
  · rw [hcount _ id, h.freed]
  · exact (h.freedLast r hr hlive).append fun offset hmem => hes _ hmem
  · rcases List.mem_append.mp hmem with hmem | hmem
    · exact h.noError e hmem
    · exact hes _ hmem

private theorem arrive (h : Logged log τ) {n : ℕ} (hn : 0 < n) : Logged log (τ.arrive n) := by
  have hnew : ∀ r, r < (τ.arrive n).count ∧ ¬(τ.arrive n).Live r ↔ r < τ.count ∧ ¬τ.Live r := by
    intro r
    rw [Tracker.live_arrive, show (τ.arrive n).count = τ.count + 1 from rfl]
    by_cases hr : r = τ.count
    · simp [hr, hn]
    · simp only [hr, false_and, or_false, and_congr_left_iff]
      omega
  refine ⟨h.started, h.ended, fun r => ?_, fun r hr hlive => ?_, h.noError⟩
  · rw [h.freed, if_congr (hnew r) rfl rfl]
  · obtain ⟨hr, hlive⟩ := (hnew r).mp ⟨hr, hlive⟩
    exact h.freedLast r hr hlive

/-- How often an entry occurs after more of the log has been written. -/
private theorem count_append {e : IoEvent} {es : List IoEvent} {P Q R : Prop} [Decidable P]
    [Decidable Q] [Decidable R] (hlog : log.count e = if P then 1 else 0)
    (hes : es.count e = if Q then 1 else 0) (hPQ : P → ¬Q) (hR : R ↔ P ∨ Q) :
    (log ++ es).count e = if R then 1 else 0 := by
  rw [List.count_append, hlog, hes]
  by_cases hP : P
  · rw [if_pos hP, if_neg (hPQ hP), if_pos (hR.mpr (.inl hP))]
  · rw [if_neg hP, zero_add, if_congr (hR.trans (or_iff_right hP)) rfl rfl]

private theorem begin (h : Logged log τ) {r : ℕ} (hr : τ.begun r < τ.size r) :
    Logged (log ++ [.update .startTime r (τ.begun r)]) (τ.begin r hr) := by
  have hlive : ∀ k, (τ.begin r hr).Live k ↔ τ.Live k := fun k => by
    rw [← Tracker.mem_liveJobs, Tracker.liveJobs_begin, Tracker.mem_liveJobs]
  have hbegun : ∀ k i, i < (τ.begin r hr).begun k ↔ i < τ.begun k ∨ r = k ∧ τ.begun r = i := by
    intro k i
    by_cases hk : r = k
    · subst hk
      rw [Tracker.begun_begin_self]
      omega
    · rw [Tracker.begun_begin_of_ne (Ne.symm hk)]
      simp [hk]
  refine ⟨fun k i => ?_, fun k i => ?_, fun k => ?_, fun k hk hk' => ?_, fun e hmem => ?_⟩
  · refine count_append (Q := r = k ∧ τ.begun r = i) (h.started k i) ?_ ?_ (hbegun k i)
    · simp [List.count_singleton]
    · rintro hi ⟨rfl, rfl⟩
      exact lt_irrefl _ hi
  · refine count_append (Q := False) (h.ended k i) (by simp) (fun _ => id) ?_
    -- the part begun is pending
    rw [hbegun, show (τ.begin r hr).pending = insert (r, τ.begun r) τ.pending from rfl,
      Finset.mem_insert, Prod.mk.injEq, eq_comm, eq_comm (a := i), or_false]
    refine ⟨fun ⟨hi, hne⟩ => ⟨hi.resolve_right fun heq => hne (.inl heq), fun hmem =>
      hne (.inr hmem)⟩, fun ⟨hi, hne⟩ => ⟨.inl hi, ?_⟩⟩
    rintro (⟨rfl, rfl⟩ | hmem)
    · exact lt_irrefl _ hi
    · exact hne hmem
  · refine count_append (Q := False) (h.freed k) (by simp) (fun _ => id) ?_
    rw [hlive, or_false]
    rfl
  · exact (h.freedLast k hk fun hk'' => hk' ((hlive k).mpr hk'')).append (by simp)
  · simp only [List.mem_append, List.mem_singleton, reduceCtorEq, or_false] at hmem
    exact h.noError e hmem

section finish

variable {p : ℕ × ℕ} (hp : p ∈ τ.pending)

include hp

private theorem ended_finish (h : Logged log τ) {es : List IoEvent} (r k : ℕ)
    (hes : es.count (.update .endTime r k) = if p = (r, k) then 1 else 0) :
    (log ++ es).count (.update .endTime r k) =
      if k < (τ.finish p).begun r ∧ (r, k) ∉ (τ.finish p).pending then 1 else 0 := by
  refine count_append (h.ended r k) hes ?_ ?_
  · rintro ⟨-, hmem⟩ rfl
    exact hmem hp
  · rw [show (τ.finish p).pending = τ.pending.erase p from rfl, Finset.mem_erase, not_and]
    constructor
    · rintro ⟨hk, hmem⟩
      by_cases heq : p = (r, k)
      · exact .inr heq
      · exact .inl ⟨hk, hmem (Ne.symm heq)⟩
    · rintro (⟨hk, hmem⟩ | rfl)
      · exact ⟨hk, fun _ => hmem⟩
      · exact ⟨τ.pending_lt _ hp, fun hne => absurd rfl hne⟩

/-- The end of a page that is not the last one of its request. -/
private theorem finish (h : Logged log τ) (hlive : (τ.finish p).Live p.1) :
    Logged (log ++ [.update .endTime p.1 p.2]) (τ.finish p) := by
  have hiff : ∀ r, (τ.finish p).Live r ↔ τ.Live r := fun r => by
    rw [← Tracker.mem_liveJobs, Tracker.liveJobs_finish hp, if_pos hlive, Tracker.mem_liveJobs]
  refine ⟨fun r k => ?_, fun r k => ended_finish hp h r k ?_, fun r => ?_, fun r hr hr' => ?_,
    fun e hmem => ?_⟩
  · exact count_append (Q := False) (h.started r k) (by simp) (fun _ => id) (or_false _).symm.to_iff
  · simp [List.count_singleton, Prod.ext_iff]
  · refine count_append (Q := False) (h.freed r) (by simp) (fun _ => id) ?_
    rw [hiff, or_false]
    rfl
  · have hne : r ≠ p.1 := fun heq => hr' (heq ▸ hlive)
    refine (h.freedLast r hr fun hr'' => hr' ((hiff r).mpr hr'')).append fun offset hmem => hne ?_
    simp only [List.mem_singleton, IoEvent.update.injEq, true_and] at hmem
    exact hmem.1
  · simp only [List.mem_append, List.mem_singleton, reduceCtorEq, or_false] at hmem
    exact h.noError e hmem

/-- The end of the last page of a request. -/
private theorem finishLast (h : Logged log τ) (hlive : ¬(τ.finish p).Live p.1) (opType : IoType)
    (opDelay : ℤ) :
    Logged (log ++ [.update .endTime p.1 p.2, .perf opType opDelay .latencyOp, .free p.1])
      (τ.finish p) := by
  have hlt : p.1 < τ.count := Tracker.lt_count hp
  have hwas : τ.Live p.1 := Tracker.live_of_mem hp
  refine ⟨fun r k => ?_, fun r k => ended_finish hp h r k ?_, fun r => ?_, fun r hr hr' => ?_,
    fun e hmem => ?_⟩
  · exact count_append (Q := False) (h.started r k) (by simp) (fun _ => id) (or_false _).symm.to_iff
  · simp [List.count_cons, Prod.ext_iff]
  · refine count_append (Q := p.1 = r) (h.freed r) ?_ ?_ ?_
    · simp [List.count_cons]
    · rintro ⟨-, hr⟩ rfl
      exact hr hwas
    · rw [show (τ.finish p).count = τ.count from rfl]
      by_cases hr : p.1 = r
      · subst hr
        simp [hlt, hlive]
      · rw [Tracker.live_finish_of_ne hp (Ne.symm hr), or_iff_left hr]
  · by_cases heq : r = p.1
    · subst heq
      exact ⟨log, p.2, opType, opDelay, [], rfl, by simp⟩
    · have hr'' : ¬τ.Live r := fun h' => hr' ((Tracker.live_finish_of_ne hp heq).mpr h')
      exact (h.freedLast r hr hr'').append (by simp [heq])
  · simp only [List.mem_append, List.mem_cons, List.not_mem_nil, reduceCtorEq, or_false] at hmem
    exact h.noError e hmem

end finish

end Logged

/-! ### Allocation and updates -/

/-- The test of `UPDATE_IO_REQUEST` for the end of a request. -/
def IoRequest.Done (r : IoRequest) : Prop := r.startCount = r.requestSize ∧ r.endCount = r.requestSize

instance (r : IoRequest) : Decidable r.Done := inferInstanceAs (Decidable (_ ∧ _))

namespace Tracks

variable {l l' : RequestList} {τ τ' : Tracker} {xs ys zs : List (ℕ × IoRequest)} {r a : ℕ}
  {e e' : IoRequest}

/-- A live request is on the list, once. -/
theorem find (h : Tracks l τ xs) (hr : τ.Live r) :
    ∃ ys a e zs, xs = ys ++ (a, e) :: zs ∧ e.requestNb = r ∧
      ∀ x ∈ ys ++ zs, x.2.requestNb ≠ r := by
  have hmem : r ∈ xs.map fun x => x.2.requestNb := by rw [h.numbers, Tracker.mem_liveJobs]; exact hr
  obtain ⟨⟨a, e⟩, hx, rfl⟩ := List.mem_map.mp hmem
  obtain ⟨ys, zs, rfl⟩ := List.append_of_mem hx
  have hnd : ((ys ++ (a, e) :: zs).map fun x => x.2.requestNb).Nodup :=
    h.numbers ▸ Tracker.nodup_liveJobs
  rw [List.map_append, List.map_cons, List.nodup_append] at hnd
  refine ⟨ys, a, e, zs, rfl, rfl, fun x hx heq => ?_⟩
  rcases List.mem_append.mp hx with hx | hx
  · exact hnd.2.2 _ (List.mem_map_of_mem hx) _ (by simp) heq
  · exact (List.nodup_cons.mp hnd.2.1).1 (heq ▸ List.mem_map_of_mem hx)

/-- Update the entry of a request that stays live. -/
private theorem set (h : Tracks l τ (ys ++ (a, e) :: zs)) (hnb : e'.requestNb = e.requestNb)
    (hys : ∀ x ∈ ys ++ zs, x.2.requestNb ≠ e.requestNb) (hlive : τ'.liveJobs = τ.liveJobs)
    (hsame : ∀ k, k ≠ e.requestNb → τ'.size k = τ.size k ∧ τ'.begun k = τ.begun k ∧
      τ'.finished k = τ.finished k)
    (hcounts : e'.requestSize = τ'.size e.requestNb ∧ e'.startCount = τ'.begun e.requestNb ∧
      e'.endCount = τ'.finished e.requestNb) :
    Tracks (l.writeBack a e') τ' (ys ++ (a, e') :: zs) := by
  refine ⟨RequestList.writeBack_rep e' h.rep, ?_, fun x hx => ?_⟩
  · rw [hlive, ← h.numbers]
    simp [hnb]
  · rcases mem_append_cons.mp hx with rfl | hx'
    · rw [hnb]
      exact hcounts
    · have hold := h.counts x (mem_append_cons.mpr (.inr hx'))
      obtain ⟨h₁, h₂, h₃⟩ := hsame _ (hys x hx')
      rw [h₁, h₂, h₃]
      exact hold

/-- Remove the entry of a request that is complete. -/
private theorem remove (h : Tracks l τ (ys ++ (a, e) :: zs))
    (hrep : SRep l'.heap l'.root (ys ++ zs)) (hys : ∀ x ∈ ys ++ zs, x.2.requestNb ≠ e.requestNb)
    (hlive : τ'.liveJobs = τ.liveJobs.erase e.requestNb)
    (hsame : ∀ k, k ≠ e.requestNb → τ'.size k = τ.size k ∧ τ'.begun k = τ.begun k ∧
      τ'.finished k = τ.finished k) : Tracks l' τ' (ys ++ zs) := by
  refine ⟨hrep, ?_, fun x hx => ?_⟩
  · rw [hlive, ← h.numbers, List.map_append, List.map_append, List.map_cons,
      List.erase_append_right _ fun hmem => ?_, List.erase_cons_head]
    obtain ⟨y, hy, heq⟩ := List.mem_map.mp hmem
    exact hys y (by simp [hy]) heq
  · obtain ⟨h₁, h₂, h₃⟩ := hsame _ (hys x hx)
    rw [h₁, h₂, h₃]
    exact h.counts x (mem_append_cons.mpr (.inr hx))

end Tracks

/-- The list of requests and the log agree with the tracker. -/
structure Booked (l : RequestList) (log : List IoEvent) (τ : Tracker) : Prop where
  fits : Fits τ
  list : ∃ xs, Tracks l τ xs
  log : Logged log τ

namespace Io

variable {g : Geometry} (t : IoConfig) (clk : Clock) {s : Io} {τ : Tracker}

section update

variable {a : ℕ} {nb offset time : ℤ} {type : UpdateType} {c : SNode IoRequest} {e : IoRequest}
  (hnb : nb ≠ -1) (hlookup : s.requests.lookup nb = .ok (some a))
  (hcell : s.requests.heap.cell a = some c) (he : c.val.update type offset time = e)

include hnb hlookup hcell he

/-- `UPDATE_IO_REQUEST` for a request that is not complete then. -/
private theorem updateIoRequest_open
    (hopen : ¬(e.startCount = e.requestSize ∧ e.endCount = e.requestSize)) :
    (updateIoRequest t clk nb offset time type s).2 =
      { s with
        requests := s.requests.writeBack a e
        log := s.log ++ [.update type e.requestNb offset]
        tick := s.tick + 1 + 1 } := by
  simp only [updateIoRequest, getUsec, hnb, if_false, hlookup, hcell, he, hopen, note,
    RequestList.writeBack]

/-- `UPDATE_IO_REQUEST` for a request that is complete then. -/
private theorem updateIoRequest_done
    (hdone : e.startCount = e.requestSize ∧ e.endCount = e.requestSize)
    {l' : RequestList} (hfree : (s.requests.writeBack a e).freeIoRequest a = .ok l') :
    (updateIoRequest t clk nb offset time type s).2 =
      { s with
        requests := l'
        log := s.log ++ [.update type e.requestNb offset,
          .perf e.requestType (calcIoLatency t e) .latencyOp, .free e.requestNb]
        tick := s.tick + 1 + 1 } := by
  rw [RequestList.writeBack] at hfree
  simp only [updateIoRequest, getUsec, hnb, if_false, hlookup, hcell, he, hdone, note,
    complete, sendToPerfChecker, and_self, if_true, hfree, List.append_assoc, List.cons_append,
    List.nil_append]

end update

/-- `UPDATE_IO_REQUEST` on any list: it does nothing, or updates the first request with its number
and frees it if that makes it complete. -/
theorem updateIoRequest_cases {xs : List (ℕ × IoRequest)}
    (hrep : SRep s.requests.heap s.requests.root xs) (nb offset time : ℤ) (type : UpdateType) :
    ∃ requests log k,
      (updateIoRequest t clk nb offset time type s).2 = { s with requests, log, tick := k } ∧
      ((nb = -1 ∨ ∀ x ∈ xs, x.2.requestNb ≠ toU32 nb) ∧ requests = s.requests ∨
        nb ≠ -1 ∧ ∃ ys a e zs, xs = ys ++ (a, e) :: zs ∧ e.requestNb = toU32 nb ∧
          (∀ y ∈ ys, y.2.requestNb ≠ toU32 nb) ∧
          SRep requests.heap requests.root
            (if (e.update type offset time).Done then ys ++ zs
              else ys ++ (a, e.update type offset time) :: zs)) := by
  by_cases hnb : nb = -1
  · refine ⟨s.requests, s.log, s.tick + 1, ?_, .inl ⟨.inl hnb, rfl⟩⟩
    simp only [updateIoRequest, getUsec, hnb, if_true]
  rcases RequestList.lookup_cases hrep nb with ⟨hall, hlookup | hlookup⟩ |
    ⟨ys, a, e, zs, n, rfl, he, hys, hlookup, hcell⟩
  · refine ⟨s.requests, s.log ++ [.error .lookupNoRequest, .error .updateNoSuchRequest],
      s.tick + 1, ?_, .inl ⟨.inr hall, rfl⟩⟩
    simp only [updateIoRequest, getUsec, hnb, if_false, hlookup, note]
  · refine ⟨s.requests, s.log ++ [.error .updateNoSuchRequest], s.tick + 1, ?_,
      .inl ⟨.inr hall, rfl⟩⟩
    simp only [updateIoRequest, getUsec, hnb, if_false, hlookup, note]
  · by_cases hdone : (e.update type offset time).Done
    · obtain ⟨l', hfree, hrep'⟩ := RequestList.freeIoRequest_spec
        (RequestList.writeBack_rep (e.update type offset time) hrep)
      refine ⟨_, _, _, updateIoRequest_done t clk hnb hlookup hcell rfl hdone hfree,
        .inr ⟨hnb, ys, a, e, zs, rfl, he, hys, ?_⟩⟩
      rwa [if_pos hdone]
    · refine ⟨_, _, _, updateIoRequest_open t clk hnb hlookup hcell rfl hdone,
        .inr ⟨hnb, ys, a, e, zs, rfl, he, hys, ?_⟩⟩
      rw [if_neg hdone]
      exact RequestList.writeBack_rep (e.update type offset time) hrep

variable (g) in
/-- The entry that `ALLOC_IO_REQUEST` appends. -/
def newRequest (sectorNb : ℤ) (length : ℕ) (ioType : IoType) (s : Io) : IoRequest where
  requestNb := s.ioRequestSeqNb
  requestType := ioType
  requestSize := toI16 (ioPageNb g sectorNb length)
  startCount := 0
  endCount := 0
  startTime := fun _ => 0
  endTime := fun _ => 0

/-- `ALLOC_IO_REQUEST` appends an entry, at an address not used before. -/
theorem allocIoRequest_push {xs : List (ℕ × IoRequest)}
    (hrep : SRep s.requests.heap s.requests.root xs) (sectorNb : ℤ) (length : ℕ) (ioType : IoType) :
    ∃ requests k o,
      allocIoRequest g clk sectorNb length ioType s =
        { s with requests, tick := k, ioAllocOverhead := o } ∧
      SRep requests.heap requests.root
        (xs ++ [(s.requests.heap.brk, newRequest g sectorNb length ioType s)]) ∧
      requests.heap.brk = s.requests.heap.brk + 1 := by
  obtain ⟨l', hpush, hrep'⟩ := RequestList.push_spec hrep (newRequest g sectorNb length ioType s)
  refine ⟨l', s.tick + 1 + 1, clk.read (s.tick + 1) - clk.read s.tick, ?_, hrep',
    RequestList.push_brk hpush⟩
  rw [newRequest] at hpush
  simp only [allocIoRequest, getUsec, hpush]

/-- A request arrives: the list follows the tracker. -/
theorem allocIoRequest_arrive {xs : List (ℕ × IoRequest)} (hτ : Tracks s.requests τ xs)
    (hseq : s.ioRequestSeqNb = τ.count) {sectorNb : ℤ} {length : ℕ} (ioType : IoType)
    (hpos : 0 < ioPageNb g sectorNb length) (hlt : ioPageNb g sectorNb length < 2 ^ 15)
    {l : RequestList} (hrep : SRep l.heap l.root
      (xs ++ [(s.requests.heap.brk, newRequest g sectorNb length ioType s)])) :
    Tracks l (τ.arrive (ioPageNb g sectorNb length))
      (xs ++ [(s.requests.heap.brk, newRequest g sectorNb length ioType s)]) := by
  have hold : ∀ k, k ≠ τ.count → (τ.arrive (ioPageNb g sectorNb length)).size k = τ.size k :=
    fun k hk => Function.update_of_ne hk ..
  have hnew : (τ.arrive (ioPageNb g sectorNb length)).size τ.count = ioPageNb g sectorNb length :=
    Function.update_self ..
  refine ⟨hrep, ?_, fun x hx => ?_⟩
  · rw [Tracker.liveJobs_arrive hpos, ← hτ.numbers, ← hseq]
    simp [newRequest]
  · rcases List.mem_append.mp hx with hx | hx
    · have hlive : τ.Live x.2.requestNb := by
        rw [← Tracker.mem_liveJobs, ← hτ.numbers]
        exact List.mem_map_of_mem (f := fun x : ℕ × IoRequest => x.2.requestNb) hx
      rw [hold _ hlive.lt_count.ne]
      exact hτ.counts x hx
    · obtain rfl := List.mem_singleton.mp hx
      have hzero : τ.begun τ.count = 0 := Tracker.begun_eq_zero le_rfl
      have hfin := (τ.arrive (ioPageNb g sectorNb length)).finished_le τ.count
      simp only [newRequest, hseq]
      refine ⟨?_, congrArg Nat.cast hzero.symm, ?_⟩
      · rw [toI16_of_lt hlt, hnew]
      · rw [Nat.eq_zero_of_le_zero (hfin.trans hzero.le)]
        rfl

/-- A request arrives. -/
theorem allocIoRequest_spec (h : Booked s.requests s.log τ) (hseq : s.ioRequestSeqNb = τ.count)
    (hcount : τ.count + 1 < 2 ^ 32 - 1) {sectorNb : ℤ} {length : ℕ} (ioType : IoType)
    (hpos : 0 < ioPageNb g sectorNb length) (hlt : ioPageNb g sectorNb length < 2 ^ 15) :
    ∃ requests k o,
      allocIoRequest g clk sectorNb length ioType s =
        { s with requests, tick := k, ioAllocOverhead := o } ∧
      Booked requests s.log (τ.arrive (ioPageNb g sectorNb length)) := by
  obtain ⟨xs, hτ⟩ := h.list
  obtain ⟨requests, k, o, heq, hrep, -⟩ := allocIoRequest_push (g := g) clk hτ.rep sectorNb length ioType
  exact ⟨requests, k, o, heq, h.fits.arrive hcount hlt,
    ⟨_, allocIoRequest_arrive hτ hseq ioType hpos hlt hrep⟩, h.log.arrive hpos⟩

section update

variable {xs : List (ℕ × IoRequest)} (hτ : Tracks s.requests τ xs) (hfits : Fits τ) (time : ℤ)

include hτ hfits

/-- A page of a request starts: the list and the log follow the tracker. -/
theorem updateIoRequest_begin {r : ℕ} (hr : τ.begun r < τ.size r) :
    ∃ requests xs' es k,
      (updateIoRequest t clk (toI32 r) (τ.begun r) time .startTime s).2 =
        { s with requests, log := s.log ++ es, tick := k } ∧
      Tracks requests (τ.begin r hr) xs' ∧ Among s.requests xs requests xs' ∧
      ∀ log, Logged log τ → Logged (log ++ es) (τ.begin r hr) := by
  have hlive : τ.Live r := .inl hr
  obtain ⟨ys, a, e, zs, rfl, rfl, hothers⟩ := hτ.find hlive
  have hlt := hlive.lt_count
  have hfit := hfits.count_lt
  obtain ⟨n, hcell⟩ := hτ.rep.seg.cell_of_mem (x := (a, e)) (by simp)
  obtain ⟨hsize, hstart, hend⟩ := hτ.counts (a, e) (by simp)
  dsimp only at hsize hstart hend
  have hlast := hfits.size_lt e.requestNb
  have hle := τ.finished_le e.requestNb
  have hlookup := RequestList.lookup_spec hτ.rep (by omega)
    (fun y hy => hothers y (List.mem_append_left _ hy)) rfl
  refine ⟨_, _, _, _, updateIoRequest_open t clk (toI32_ne_neg_one (by omega)) hlookup hcell rfl ?_,
    hτ.set rfl hothers Tracker.liveJobs_begin
      (fun k hk => ⟨rfl, Tracker.begun_begin_of_ne hk, Tracker.finished_begin k⟩)
      ⟨hsize, ?_, hend.trans ?_⟩, ⟨rfl, fun x hx => ?_⟩, fun _ hlog => hlog.begin hr⟩
  · -- the page that starts has not ended
    rintro ⟨-, hdone⟩
    replace hdone : e.endCount = e.requestSize := hdone
    rw [hend, hsize, Int.ofNat_inj] at hdone
    omega
  · change toI16 (e.startCount + 1) = _
    have hone : ((τ.begun e.requestNb : ℤ) + 1) = (τ.begun e.requestNb + 1 : ℕ) := rfl
    rw [hstart, hone, toI16_of_lt (by omega), Tracker.begun_begin_self]
  · rw [Tracker.finished_begin]
  · rcases mem_append_cons.mp hx with rfl | hx
    · exact ⟨(a, e), by simp, rfl, rfl⟩
    · exact ⟨x, mem_append_cons.mpr (.inr hx), rfl, rfl⟩

/-- A pending page of a request ends: the list and the log follow the tracker. -/
theorem updateIoRequest_finish {p : ℕ × ℕ} (hp : p ∈ τ.pending) :
    ∃ requests xs' es k,
      (updateIoRequest t clk (toI32 p.1) p.2 time .endTime s).2 =
        { s with requests, log := s.log ++ es, tick := k } ∧
      Tracks requests (τ.finish p) xs' ∧ Among s.requests xs requests xs' ∧
      ∀ log, Logged log τ → Logged (log ++ es) (τ.finish p) := by
  have hlive := Tracker.live_of_mem hp
  obtain ⟨ys, a, e, zs, rfl, hnb, hothers⟩ := hτ.find hlive
  have hlt := hlive.lt_count
  have hfit := hfits.count_lt
  obtain ⟨n, hcell⟩ := hτ.rep.seg.cell_of_mem (x := (a, e)) (by simp)
  obtain ⟨hsize, hstart, hend⟩ := hτ.counts (a, e) (by simp)
  dsimp only at hsize hstart hend
  rw [hnb] at hsize hstart hend
  have hlookup := RequestList.lookup_spec hτ.rep (by omega)
    (fun y hy => hothers y (List.mem_append_left _ hy)) hnb
  have hsame : ∀ k, k ≠ e.requestNb → (τ.finish p).size k = τ.size k ∧
      (τ.finish p).begun k = τ.begun k ∧ (τ.finish p).finished k = τ.finished k := fun k hk =>
    ⟨rfl, rfl, by rw [Tracker.finished_finish hp, if_neg (hnb ▸ hk)]⟩
  set e' := e.update .endTime p.2 time with he'
  have hnb' : e'.requestNb = p.1 := hnb
  have hcount : e'.endCount = (τ.finish p).finished p.1 := by
    have hfin := Tracker.finished_finish hp p.1
    have hle := (τ.finish p).begun_le p.1
    have hle' := (τ.finish p).finished_le p.1
    have hsmall : (τ.finish p).size p.1 < 2 ^ 15 := hfits.size_lt p.1
    have hone : ((τ.finished p.1 : ℤ) + 1) = (τ.finished p.1 + 1 : ℕ) := rfl
    rw [if_pos rfl] at hfin
    change toI16 (e.endCount + 1) = _
    rw [hend, hone, ← hfin, toI16_of_lt (by omega)]
  have hdone : e'.startCount = e'.requestSize ∧ e'.endCount = e'.requestSize ↔
      ¬(τ.finish p).Live p.1 := by
    have hle := (τ.finish p).begun_le p.1
    have hle' := (τ.finish p).finished_le p.1
    rw [hcount, show e'.startCount = (τ.finish p).begun p.1 from hstart,
      show e'.requestSize = (τ.finish p).size p.1 from hsize, Tracker.live_iff]
    omega
  by_cases hlive' : (τ.finish p).Live p.1
  · refine ⟨_, _, _, _, updateIoRequest_open t clk (toI32_ne_neg_one (by omega)) hlookup hcell he'.symm
      (fun hd => hdone.mp hd hlive'), hτ.set rfl (hnb ▸ hothers) ?_ hsame ?_, ⟨rfl, fun x hx => ?_⟩,
      fun log hlog => ?_⟩
    · rw [Tracker.liveJobs_finish hp, if_pos hlive']
    · rw [hnb]
      exact ⟨hsize, hstart, hcount⟩
    · rcases mem_append_cons.mp hx with rfl | hx
      · exact ⟨(a, e), by simp, rfl, rfl⟩
      · exact ⟨x, mem_append_cons.mpr (.inr hx), rfl, rfl⟩
    · rw [hnb']
      exact hlog.finish hp hlive'
  · obtain ⟨l', hfree, hrep⟩ := RequestList.freeIoRequest_spec (RequestList.writeBack_rep e' hτ.rep)
    refine ⟨_, _, _, _, updateIoRequest_done t clk (toI32_ne_neg_one (by omega)) hlookup hcell he'.symm
      (hdone.mpr hlive') hfree, hτ.remove hrep (hnb ▸ hothers) ?_ hsame,
      ⟨(RequestList.freeIoRequest_brk hfree).trans rfl, fun x hx => ?_⟩, fun log hlog => ?_⟩
    · rw [Tracker.liveJobs_finish hp, if_neg hlive', hnb]
    · exact ⟨x, mem_append_cons.mpr (.inr hx), rfl, rfl⟩
    · rw [hnb']
      exact hlog.finishLast hp hlive' _ _

end update

/-- A page of a request starts. -/
theorem updateIoRequest_start (h : Booked s.requests s.log τ) {r : ℕ} (hr : τ.begun r < τ.size r)
    (time : ℤ) :
    ∃ requests log k,
      (updateIoRequest t clk (toI32 r) (τ.begun r) time .startTime s).2 =
        { s with requests, log, tick := k } ∧ Booked requests log (τ.begin r hr) := by
  obtain ⟨xs, hτ⟩ := h.list
  obtain ⟨requests, xs', es, k, heq, hτ', -, hlog⟩ := updateIoRequest_begin t clk hτ h.fits time hr
  exact ⟨requests, _, k, heq, ⟨h.fits.1, h.fits.2⟩, ⟨xs', hτ'⟩, hlog _ h.log⟩

/-- A pending page of a request ends. -/
theorem updateIoRequest_end (h : Booked s.requests s.log τ) {p : ℕ × ℕ} (hp : p ∈ τ.pending)
    (time : ℤ) :
    ∃ requests log k,
      (updateIoRequest t clk (toI32 p.1) p.2 time .endTime s).2 =
        { s with requests, log, tick := k } ∧ Booked requests log (τ.finish p) := by
  obtain ⟨xs, hτ⟩ := h.list
  obtain ⟨requests, xs', es, k, heq, hτ', -, hlog⟩ := updateIoRequest_finish t clk hτ h.fits time hp
  exact ⟨requests, _, k, heq, ⟨h.fits.1, h.fits.2⟩, ⟨xs', hτ'⟩, hlog _ h.log⟩

end Io

end Vssim
