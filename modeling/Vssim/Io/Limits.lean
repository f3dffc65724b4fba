import Vssim.Io.Lifecycle

/-!
# The limits of request accounting

An I/O request is freed when its two counts reach its size. The three are 16-bit bit-fields, and
`UPDATE_IO_REQUEST` takes the number `-1` for "no request". So a request is freed after as
many starts and ends as it has pages, and its latency divided by this number, exactly when it
has at least one and at most 32767 pages, its number is not the largest one, and no
outstanding request has this number already (`accounted_iff`).

The list functions are first shown to act on the outstanding requests as on a plain list
(`outstanding_alloc`, `outstanding_update`); what they do to the requests with one number is
then a matter of lists.
-/

namespace Vssim

open LinkedHeap Io

/-! ### Operations on the outstanding requests -/

/-- What the simulator does to the list of outstanding requests. -/
inductive RequestOp
  /-- `ALLOC_IO_REQUEST`. -/
  | alloc (sectorNb : ℤ) (length : ℕ) (ioType : IoType)
  /-- `INCREASE_IO_REQUEST_SEQ_NB`. -/
  | next
  /-- `UPDATE_IO_REQUEST`. -/
  | update (type : UpdateType) (requestNb offset time : ℤ)

namespace RequestOp

section run

variable (g : Geometry) (t : IoConfig) (clk : Clock)

def run (s : Io) : RequestOp → Io
  | .alloc sectorNb length ioType => allocIoRequest g clk sectorNb length ioType s
  | .next => increaseIoRequestSeqNb s
  | .update type requestNb offset time => (updateIoRequest t clk requestNb offset time type s).2

def runAll (ops : List RequestOp) (s : Io) : Io := ops.foldl (run g t clk) s

/-- No other request gets the number `n`. -/
def Avoids (n : ℕ) : Io → List RequestOp → Prop
  | _, [] => True
  | s, op :: ops => ((∃ sectorNb length ioType, op = .alloc sectorNb length ioType) →
      s.ioRequestSeqNb ≠ n) ∧ Avoids n (op.run g t clk s) ops

end run

/-- The operation is an update for request `n`. -/
def addresses (type : UpdateType) (n : ℕ) : RequestOp → Bool
  | .update type' requestNb _ _ => type' = type ∧ toU32 requestNb = n
  | _ => false

/-- What `CALC_IO_LATENCY` divides by, if the operation completes a request. -/
def divisor (s : Io) : RequestOp → Option ℤ
  | .update type requestNb offset time =>
    if requestNb = -1 then none
    else match s.requests.lookup requestNb with
      | .ok (some p) => (s.requests.heap.cell p).bind fun c =>
        if (c.val.update type offset time).Done
        then some (c.val.update type offset time).requestSize else none
      | _ => none
  | _ => none

end RequestOp

open RequestOp

/-- In the state right after its allocation: a request of `size` pages with number `n` stays
outstanding until that many of its pages have started and ended, and its latency is divided
by their number. -/
structure Accounted (g : Geometry) (t : IoConfig) (clk : Clock) (n size : ℕ) (s : Io) : Prop where
  freed : ∀ ops, Avoids g t clk n s ops → ops.countP (addresses .startTime n) ≤ size →
    ops.countP (addresses .endTime n) ≤ size →
    (runAll g t clk ops s).outstandingNbs.count n =
      if ops.countP (addresses .startTime n) = size ∧ ops.countP (addresses .endTime n) = size
      then 0 else 1
  divided : ∀ ops (op : RequestOp) type d, Avoids g t clk n s ops → op.addresses type n →
    op.divisor (runAll g t clk ops s) = some d → d = size ∧ 0 < size

/-! ### The list that the pointers represent -/

/-- The list is well formed. -/
def Io.WellFormed (s : Io) : Prop := ∃ xs, SRep s.requests.heap s.requests.root xs

/-- Update the first request with a number; it leaves the list if that completes it. -/
def updateFirst (n : ℕ) (f : IoRequest → IoRequest) : List IoRequest → List IoRequest
  | [] => []
  | r :: rs =>
    if r.requestNb = n then if (f r).Done then rs else f r :: rs else r :: updateFirst n f rs

section updateFirst

variable {n m : ℕ} {f : IoRequest → IoRequest} {rs : List IoRequest} {r : IoRequest}

private theorem updateFirst_of_ne (h : ∀ r ∈ rs, r.requestNb ≠ n) : updateFirst n f rs = rs := by
  induction rs with
  | nil => rfl
  | cons r rs ih =>
    rw [updateFirst, if_neg (h r (by simp)), ih fun r hr => h r (by simp [hr])]

private theorem updateFirst_append {rs' : List IoRequest} (h : ∀ r ∈ rs, r.requestNb ≠ n)
    (hr : r.requestNb = n) : updateFirst n f (rs ++ r :: rs') =
      if (f r).Done then rs ++ rs' else rs ++ f r :: rs' := by
  induction rs with
  | nil => rw [List.nil_append, updateFirst, if_pos hr, List.nil_append, List.nil_append]
  | cons r₀ rs ih =>
    rw [List.cons_append, updateFirst, if_neg (h r₀ (by simp)), ih fun r hr => h r (by simp [hr])]
    split <;> rfl

/-- The requests with a number. -/
def withNb (n : ℕ) (rs : List IoRequest) : List IoRequest := rs.filter fun r => r.requestNb = n

private theorem withNb_cons_self (hr : r.requestNb = n) :
    withNb n (r :: rs) = r :: withNb n rs := by
  simp [withNb, hr]

private theorem withNb_cons_of_ne (hr : r.requestNb ≠ n) : withNb n (r :: rs) = withNb n rs := by
  simp [withNb, hr]

private theorem withNb_append (rs' : List IoRequest) :
    withNb n (rs ++ rs') = withNb n rs ++ withNb n rs' :=
  List.filter_append ..

variable (hf : ∀ r, (f r).requestNb = r.requestNb)

include hf

private theorem withNb_updateFirst_of_ne (hmn : m ≠ n) :
    withNb n (updateFirst m f rs) = withNb n rs := by
  induction rs with
  | nil => rfl
  | cons r rs ih =>
    rw [updateFirst]
    by_cases hr : r.requestNb = m
    · have hne : r.requestNb ≠ n := hr.trans_ne hmn
      rw [if_pos hr, withNb_cons_of_ne hne]
      split
      · rfl
      · exact withNb_cons_of_ne ((hf r).trans_ne hne)
    · rw [if_neg hr]
      by_cases hrn : r.requestNb = n
      · rw [withNb_cons_self hrn, withNb_cons_self hrn, ih]
      · rw [withNb_cons_of_ne hrn, withNb_cons_of_ne hrn, ih]

private theorem withNb_updateFirst_self :
    withNb n (updateFirst n f rs) = updateFirst n f (withNb n rs) := by
  induction rs with
  | nil => rfl
  | cons r rs ih =>
    rw [updateFirst]
    by_cases hr : r.requestNb = n
    · rw [if_pos hr, withNb_cons_self hr, updateFirst, if_pos hr]
      split
      · rfl
      · exact withNb_cons_self ((hf r).trans hr)
    · rw [if_neg hr, withNb_cons_of_ne hr, withNb_cons_of_ne hr, ih]

end updateFirst

variable {g : Geometry} (t : IoConfig) (clk : Clock) {s : Io} {n size : ℕ}

private theorem count_outstandingNbs (s : Io) (n : ℕ) :
    s.outstandingNbs.count n = (withNb n s.outstanding).length := by
  rw [outstandingNbs, List.count_eq_countP, List.countP_map, withNb, List.countP_eq_length_filter]
  congr 2

theorem outstanding_alloc (h : s.WellFormed) (sectorNb : ℤ) (length : ℕ) (ioType : IoType) :
    (allocIoRequest g clk sectorNb length ioType s).WellFormed ∧
      (allocIoRequest g clk sectorNb length ioType s).outstanding =
        s.outstanding ++ [newRequest g sectorNb length ioType s] := by
  obtain ⟨xs, hrep⟩ := h
  obtain ⟨requests, k, o, heq, hrep', -⟩ := allocIoRequest_push (g := g) clk hrep sectorNb length
    ioType
  rw [heq]
  refine ⟨⟨_, hrep'⟩, ?_⟩
  rw [outstanding_eq hrep', outstanding_eq hrep, List.map_append]
  rfl

theorem outstanding_update (h : s.WellFormed) (nb offset time : ℤ) (type : UpdateType) :
    (updateIoRequest t clk nb offset time type s).2.WellFormed ∧
      (updateIoRequest t clk nb offset time type s).2.outstanding =
        if nb = -1 then s.outstanding
        else updateFirst (toU32 nb) (IoRequest.update type offset time) s.outstanding := by
  obtain ⟨xs, hrep⟩ := h
  obtain ⟨requests, log, k, heq, hcases⟩ := updateIoRequest_cases t clk hrep nb offset time type
  rw [heq]
  rcases hcases with ⟨hnone, rfl⟩ | ⟨hnb, ys, a, e, zs, rfl, he, hys, hrep'⟩
  · refine ⟨⟨xs, hrep⟩, ?_⟩
    change s.outstanding = _
    split
    · rfl
    · rename_i hnb
      rw [updateFirst_of_ne]
      rw [outstanding_eq hrep]
      intro r hr
      obtain ⟨x, hx, rfl⟩ := List.mem_map.mp hr
      exact hnone.resolve_left hnb x hx
  · refine ⟨⟨_, hrep'⟩, ?_⟩
    rw [outstanding_eq hrep', outstanding_eq hrep, if_neg hnb, List.map_append, List.map_cons,
      updateFirst_append _ he]
    · split <;> simp
    · intro r hr
      obtain ⟨y, hy, rfl⟩ := List.mem_map.mp hr
      exact hys y hy

/-- What an update divides by depends on the first request with its number. -/
private theorem divisor_eq (h : s.WellFormed) {nb : ℤ} (hnb : nb ≠ -1) (offset time : ℤ)
    (type : UpdateType) : (RequestOp.update type nb offset time).divisor s =
      (withNb (toU32 nb) s.outstanding).head?.bind fun r =>
        if (r.update type offset time).Done then some r.requestSize else none := by
  obtain ⟨xs, hrep⟩ := h
  have hwith : ∀ ys : List (ℕ × IoRequest), (∀ y ∈ ys, y.2.requestNb ≠ toU32 nb) →
      withNb (toU32 nb) (ys.map Prod.snd) = [] := fun ys hys => by
    refine List.filter_eq_nil_iff.mpr fun r hr => ?_
    obtain ⟨y, hy, rfl⟩ := List.mem_map.mp hr
    simpa using hys y hy
  rw [divisor, if_neg hnb, outstanding_eq hrep]
  rcases RequestList.lookup_cases hrep nb with ⟨hall, hlookup | hlookup⟩ |
    ⟨ys, a, e, zs, k, rfl, he, hys, hlookup, hcell⟩
  · rw [hlookup, hwith xs hall]
    rfl
  · rw [hlookup, hwith xs hall]
    rfl
  · rw [List.map_append, List.map_cons, withNb_append, hwith ys hys, withNb_cons_self he]
    simp only [hlookup, hcell]
    cases type <;> rfl

/-! ### One operation -/

section step

variable {op : RequestOp}

private theorem run_wellFormed (h : s.WellFormed) (op : RequestOp) :
    (op.run g t clk s).WellFormed := by
  cases op with
  | alloc sectorNb length ioType => exact (outstanding_alloc clk h sectorNb length ioType).1
  | next => exact h
  | update type nb offset time => exact (outstanding_update t clk h nb offset time type).1

/-- An operation that is not about request `n`. -/
private theorem withNb_run_other (h : s.WellFormed)
    (hop : (∃ sectorNb length ioType, op = .alloc sectorNb length ioType) → s.ioRequestSeqNb ≠ n)
    (hother : ∀ type, op.addresses type n = false) :
    withNb n (op.run g t clk s).outstanding = withNb n s.outstanding := by
  cases op with
  | alloc sectorNb length ioType =>
    have hne : (newRequest g sectorNb length ioType s).requestNb ≠ n := hop ⟨_, _, _, rfl⟩
    rw [run, (outstanding_alloc clk h sectorNb length ioType).2, withNb_append,
      withNb_cons_of_ne hne]
    exact List.append_nil _
  | next => rfl
  | update type nb offset time =>
    have hne : toU32 nb ≠ n := by simpa [addresses] using hother type
    rw [run, (outstanding_update t clk h nb offset time type).2]
    split
    · rfl
    · exact withNb_updateFirst_of_ne (fun r => by cases type <;> rfl) hne

/-- An update for request `n`. -/
private theorem withNb_run_update (h : s.WellFormed) {nb : ℤ} (hnb : nb ≠ -1) (offset time : ℤ)
    (type : UpdateType) :
    withNb (toU32 nb) ((RequestOp.update type nb offset time).run g t clk s).outstanding =
      updateFirst (toU32 nb) (IoRequest.update type offset time)
        (withNb (toU32 nb) s.outstanding) := by
  rw [run, (outstanding_update t clk h nb offset time type).2, if_neg hnb]
  exact withNb_updateFirst_self fun r => by cases type <;> rfl

end step

/-! ### One request -/

/-- No outstanding request has number `n`. -/
structure Gone (n : ℕ) (s : Io) : Prop where
  wellFormed : s.WellFormed
  none : withNb n s.outstanding = []

/-- One outstanding request has number `n`, and `a` of its `size` pages have started and `b`
ended, as far as 16 bits can tell. -/
structure Stands (n size a b : ℕ) (s : Io) : Prop where
  wellFormed : s.WellFormed
  one : ∃ r, withNb n s.outstanding = [r] ∧ r.requestSize = toI16 size ∧ r.startCount = toI16 a ∧
    r.endCount = toI16 b

/-- The counts and the size agree, as far as 16 bits can tell. -/
def Complete (size a b : ℕ) : Prop := toI16 a = toI16 size ∧ toI16 b = toI16 size

instance (size a b : ℕ) : Decidable (Complete size a b) := inferInstanceAs (Decidable (_ ∧ _))

private theorem toI16_succ (a : ℕ) : toI16 (toI16 a + 1) = toI16 (a + 1 : ℕ) := by
  rw [toI16, toI16, toI16, Int.bmod_add_bmod]
  rfl

/-- An operation addresses request `n`, or it does not. -/
private theorem addresses_cases (op : RequestOp) (n : ℕ) : (∀ type, op.addresses type n = false) ∨
    ∃ type nb offset time, op = .update type nb offset time ∧ toU32 nb = n := by
  cases op with
  | alloc _ _ _ => exact .inl fun _ => rfl
  | next => exact .inl fun _ => rfl
  | update type nb offset time =>
    by_cases hnb : toU32 nb = n
    · exact .inr ⟨type, nb, offset, time, rfl, hnb⟩
    · exact .inl fun type' => by simp [addresses, hnb]

private theorem ne_neg_one {nb : ℤ} (hn : n ≠ 2 ^ 32 - 1) (hnb : toU32 nb = n) : nb ≠ -1 := by
  rintro rfl
  exact hn (hnb.symm.trans (by decide +kernel))

section request

variable {a b : ℕ} {op : RequestOp}

private theorem Gone.run (h : Gone n s)
    (hop : (∃ sectorNb length ioType, op = .alloc sectorNb length ioType) → s.ioRequestSeqNb ≠ n) :
    Gone n (op.run g t clk s) := by
  refine ⟨run_wellFormed t clk h.wellFormed op, ?_⟩
  rcases addresses_cases op n with hother | ⟨type, nb, offset, time, rfl, rfl⟩
  · rw [withNb_run_other t clk h.wellFormed hop hother, h.none]
  · by_cases hnb : nb = -1
    · rw [RequestOp.run, (outstanding_update t clk h.wellFormed nb offset time type).2, if_pos hnb,
        h.none]
    · rw [withNb_run_update t clk h.wellFormed hnb, h.none]
      rfl

private theorem Stands.other (h : Stands n size a b s)
    (hop : (∃ sectorNb length ioType, op = .alloc sectorNb length ioType) → s.ioRequestSeqNb ≠ n)
    (hother : ∀ type, op.addresses type n = false) : Stands n size a b (op.run g t clk s) := by
  refine ⟨run_wellFormed t clk h.wellFormed op, ?_⟩
  rw [withNb_run_other t clk h.wellFormed hop hother]
  exact h.one

/-- The counts after an update. -/
private theorem update_counts {r : IoRequest} (hstart : r.startCount = toI16 a)
    (hend : r.endCount = toI16 b) (type : UpdateType) (offset time : ℤ) :
    (r.update type offset time).startCount =
        toI16 (a + if type = .startTime then 1 else 0 : ℕ) ∧
      (r.update type offset time).endCount = toI16 (b + if type = .endTime then 1 else 0 : ℕ) := by
  cases type with
  | startTime => exact ⟨(congrArg (fun x => toI16 (x + 1)) hstart).trans (toI16_succ a), hend⟩
  | endTime => exact ⟨hstart, (congrArg (fun x => toI16 (x + 1)) hend).trans (toI16_succ b)⟩

section update

variable (h : Stands n size a b s) (hn : n ≠ 2 ^ 32 - 1) {nb : ℤ} (hnb : toU32 nb = n)
  (type : UpdateType) (offset time : ℤ) {a' b' : ℕ} (ha : a' = a + if type = .startTime then 1 else 0)
  (hb : b' = b + if type = .endTime then 1 else 0)

include h hn hnb ha hb

omit hn hnb in
/-- The entry after an update for it. -/
private theorem Stands.entry : ∃ r, withNb n s.outstanding = [r] ∧ r.requestNb = n ∧
    r.requestSize = toI16 size ∧ (r.update type offset time).requestSize = toI16 size ∧
    (r.update type offset time).startCount = toI16 a' ∧
    (r.update type offset time).endCount = toI16 b' ∧
    ((r.update type offset time).Done ↔ Complete size a' b') := by
  obtain ⟨r, hone, hsize, hstart, hend⟩ := h.one
  obtain ⟨hstart', hend'⟩ := update_counts hstart hend type offset time
  have hsize' : (r.update type offset time).requestSize = toI16 size := by
    cases type <;> exact hsize
  have hmem : r ∈ withNb n s.outstanding := by rw [hone]; exact List.mem_singleton_self r
  have hr : r.requestNb = n := by simpa using (List.mem_filter.mp hmem).2
  rw [← ha] at hstart'
  rw [← hb] at hend'
  refine ⟨r, hone, hr, hsize, hsize', hstart', hend', ?_⟩
  rw [IoRequest.Done, hstart', hend', hsize', Complete]

/-- An update for the request frees it exactly when its counts and its size agree. -/
private theorem Stands.update :
    if Complete size a' b' then Gone n ((RequestOp.update type nb offset time).run g t clk s)
    else Stands n size a' b' ((RequestOp.update type nb offset time).run g t clk s) := by
  obtain ⟨r, hone, hr, -, hsize, hstart, hend, hdone⟩ := h.entry type offset time ha hb
  have hwf := run_wellFormed (g := g) t clk h.wellFormed (.update type nb offset time)
  have hwith := withNb_run_update (g := g) t clk h.wellFormed (ne_neg_one hn hnb) offset time type
  rw [hnb, hone, updateFirst, if_pos hr, if_congr hdone rfl rfl] at hwith
  split
  · rename_i hcomplete
    rw [if_pos hcomplete] at hwith
    exact ⟨hwf, hwith⟩
  · rename_i hcomplete
    rw [if_neg hcomplete] at hwith
    exact ⟨hwf, _, hwith, hsize, hstart, hend⟩

private theorem Stands.divisor : (RequestOp.update type nb offset time).divisor s =
    if Complete size a' b' then some (toI16 size) else none := by
  obtain ⟨r, hone, -, hsize, -, -, -, hdone⟩ := h.entry type offset time ha hb
  rw [divisor_eq h.wellFormed (ne_neg_one hn hnb), hnb, hone, List.head?_cons, Option.bind_some,
    if_congr hdone rfl rfl, hsize]

end update

/-- What an operation adds to the counts of request `n`. -/
private theorem addresses_update (type : UpdateType) {nb : ℤ} (hnb : toU32 nb = n) (offset time : ℤ)
    (type' : UpdateType) :
    (if (RequestOp.update type nb offset time).addresses type' n = true then 1 else 0) =
      if type = type' then 1 else 0 := by
  simp [addresses, hnb]

private theorem Gone.runAll {ops : List RequestOp} (h : Gone n s) (hops : Avoids g t clk n s ops) :
    Gone n (RequestOp.runAll g t clk ops s) := by
  induction ops generalizing s with
  | nil => exact h
  | cons op ops ih => exact ih (h.run t clk hops.1) hops.2

/-- A request stands until it is gone. -/
private theorem Stands.runAll {ops : List RequestOp} (h : Stands n size a b s) (hn : n ≠ 2 ^ 32 - 1)
    (hops : Avoids g t clk n s ops) :
    Stands n size (a + ops.countP (addresses .startTime n)) (b + ops.countP (addresses .endTime n))
      (RequestOp.runAll g t clk ops s) ∨ Gone n (RequestOp.runAll g t clk ops s) := by
  induction ops generalizing s a b with
  | nil => exact .inl h
  | cons op ops ih =>
    rw [List.countP_cons, List.countP_cons, Nat.add_comm (ops.countP _), Nat.add_comm (ops.countP _),
      ← Nat.add_assoc, ← Nat.add_assoc]
    rcases addresses_cases op n with hother | ⟨type, nb, offset, time, rfl, hnb⟩
    · rw [hother, hother]
      exact ih (h.other t clk hops.1 hother) hops.2
    · rw [addresses_update type hnb, addresses_update type hnb]
      have hstep := h.update (g := g) t clk hn hnb type offset time rfl rfl
      by_cases hcomplete : Complete size (a + if type = .startTime then 1 else 0)
        (b + if type = .endTime then 1 else 0)
      · rw [if_pos hcomplete] at hstep
        exact .inr (hstep.runAll t clk hops.2)
      · rw [if_neg hcomplete] at hstep
        exact ih hstep hops.2

/-- The request is gone exactly when all its pages have started and ended. -/
def AsCounted (n size a b : ℕ) (s : Io) : Prop :=
  if a = size ∧ b = size then Gone n s else Stands n size a b s

/-- Counts of fewer than `2 ^ 15` pages do not wrap. -/
private theorem complete_iff (hlt : size < 2 ^ 15) (ha : a ≤ size) (hb : b ≤ size) :
    Complete size a b ↔ a = size ∧ b = size := by
  rw [Complete, toI16_of_lt (ha.trans_lt hlt), toI16_of_lt (hb.trans_lt hlt), toI16_of_lt hlt,
    Int.ofNat_inj, Int.ofNat_inj]

private theorem AsCounted.run (h : AsCounted n size a b s) (hn : n ≠ 2 ^ 32 - 1)
    (hlt : size < 2 ^ 15)
    (hop : (∃ sectorNb length ioType, op = .alloc sectorNb length ioType) → s.ioRequestSeqNb ≠ n)
    (ha : (a + if op.addresses .startTime n = true then 1 else 0) ≤ size)
    (hb : (b + if op.addresses .endTime n = true then 1 else 0) ≤ size) :
    AsCounted n size (a + if op.addresses .startTime n = true then 1 else 0)
      (b + if op.addresses .endTime n = true then 1 else 0) (op.run g t clk s) := by
  rw [AsCounted] at h
  rcases addresses_cases op n with hother | ⟨type, nb, offset, time, rfl, hnb⟩
  · simp only [hother, Bool.false_eq_true, if_false, Nat.add_zero, AsCounted]
    split at h
    · rename_i hall
      rw [if_pos hall]
      exact h.run t clk hop
    · rename_i hnot
      rw [if_neg hnot]
      exact h.other t clk hop hother
  · rw [addresses_update type hnb] at ha hb ⊢
    rw [addresses_update type hnb]
    split at h
    · -- all pages have started and ended, so this is one update too many
      cases type <;> simp at ha hb <;> omega
    · have hstep := h.update (g := g) t clk hn hnb type offset time rfl rfl
      rwa [if_congr (complete_iff hlt ha hb) rfl rfl] at hstep

/-- A request of fewer than `2 ^ 15` pages goes when all of them have started and ended, and not
before. -/
private theorem AsCounted.runAll {ops : List RequestOp} (h : AsCounted n size a b s)
    (hn : n ≠ 2 ^ 32 - 1) (hlt : size < 2 ^ 15) (hops : Avoids g t clk n s ops)
    (ha : a + ops.countP (addresses .startTime n) ≤ size)
    (hb : b + ops.countP (addresses .endTime n) ≤ size) :
    AsCounted n size (a + ops.countP (addresses .startTime n))
      (b + ops.countP (addresses .endTime n)) (RequestOp.runAll g t clk ops s) := by
  induction ops generalizing s a b with
  | nil => exact h
  | cons op ops ih =>
    rw [List.countP_cons, Nat.add_comm (ops.countP _), ← Nat.add_assoc] at ha hb ⊢
    rw [List.countP_cons, Nat.add_comm (ops.countP _), ← Nat.add_assoc]
    exact ih (h.run t clk hn hlt hops.1 (by omega) (by omega)) hops.2 ha hb

private theorem Stands.count (h : Stands n size a b s) : s.outstandingNbs.count n = 1 := by
  obtain ⟨r, hone, -⟩ := h.one
  rw [count_outstandingNbs, hone, List.length_singleton]

private theorem Gone.count (h : Gone n s) : s.outstandingNbs.count n = 0 := by
  rw [count_outstandingNbs, h.none, List.length_nil]

private theorem Gone.divisor (h : Gone n s) {type : UpdateType} (hop : op.addresses type n) :
    op.divisor s = Option.none := by
  rcases addresses_cases op n with hother | ⟨type, nb, offset, time, rfl, rfl⟩
  · rw [hother type] at hop
    cases hop
  · by_cases hnb : nb = -1
    · rw [RequestOp.divisor, if_pos hnb]
    · rw [divisor_eq h.wellFormed hnb, h.none]
      rfl

end request

/-! ### The limits -/

private theorem Avoids.updates (ops : List RequestOp) (hops : ∀ op ∈ ops, ∃ type nb offset time,
    op = .update type nb offset time) (s : Io) : Avoids g t clk n s ops := by
  induction ops generalizing s with
  | nil => trivial
  | cons op ops ih =>
    obtain ⟨type, nb, offset, time, rfl⟩ := hops op (by simp)
    refine ⟨fun halloc => ?_, ih (fun op hop => hops op (by simp [hop])) _⟩
    obtain ⟨_, _, _, heq⟩ := halloc
    cases heq

/-- The updates for `a` starts and `b` ends of pages of a request. -/
def pageUpdates (nb : ℤ) (a b : ℕ) : List RequestOp :=
  List.replicate a (.update .startTime nb 0 0) ++ List.replicate b (.update .endTime nb 0 0)

private theorem countP_pageUpdates {nb : ℤ} (hnb : toU32 nb = n) (a b : ℕ) :
    (pageUpdates nb a b).countP (addresses .startTime n) = a ∧
      (pageUpdates nb a b).countP (addresses .endTime n) = b := by
  simp [pageUpdates, List.countP_replicate, addresses, hnb]

private theorem pageUpdates_avoids (nb : ℤ) (a b : ℕ) (s : Io) :
    Avoids g t clk n s (pageUpdates nb a b) := by
  refine Avoids.updates t clk _ (fun op hop => ?_) s
  rcases List.mem_append.mp hop with hop | hop
  · exact ⟨_, _, _, _, List.eq_of_mem_replicate hop⟩
  · exact ⟨_, _, _, _, List.eq_of_mem_replicate hop⟩

/-- Updates for the number `-1` reach no request. -/
private theorem outstanding_pageUpdates (h : s.WellFormed) (a b : ℕ) :
    (RequestOp.runAll g t clk (pageUpdates (-1) a b) s).outstanding = s.outstanding := by
  have hstep : ∀ k type (s : Io), s.WellFormed →
      (RequestOp.runAll g t clk (List.replicate k (.update type (-1) 0 0)) s).WellFormed ∧
        (RequestOp.runAll g t clk (List.replicate k (.update type (-1) 0 0)) s).outstanding =
          s.outstanding := by
    intro k type
    induction k with
    | zero => exact fun s h => ⟨h, rfl⟩
    | succ k ih =>
      intro s h
      obtain ⟨hwf, heq⟩ := outstanding_update t clk h (-1) 0 0 type
      obtain ⟨hwf', heq'⟩ := ih _ hwf
      exact ⟨hwf', heq'.trans heq⟩
  obtain ⟨hwf, heq⟩ := hstep a .startTime s h
  rw [pageUpdates, RequestOp.runAll, List.foldl_append]
  exact (hstep b .endTime _ hwf).2.trans heq

section accounted

variable {t clk}

/-- All updates for the largest number are updates for `-1`, and are lost. -/
private theorem Accounted.ne_max (h : Accounted g t clk n size s) (hstands : Stands n size 0 0 s) :
    n ≠ 2 ^ 32 - 1 := by
  intro hmax
  have hnb : toU32 (-1) = n := by
    rw [hmax]
    decide +kernel
  obtain ⟨hstarts, hends⟩ := countP_pageUpdates hnb size size
  have hend := h.freed (pageUpdates (-1) size size) (pageUpdates_avoids t clk _ _ _ _) hstarts.le
    hends.le
  rw [hstarts, hends, if_pos ⟨rfl, rfl⟩, count_outstandingNbs,
    outstanding_pageUpdates t clk hstands.wellFormed, ← count_outstandingNbs, hstands.count] at hend
  omega

/-- Before the last end the request stands, and that end divides by its 16-bit size. -/
private theorem Accounted.lt (h : Accounted g t clk n size s) (hstands : Stands n size 0 0 s)
    (hpos : 0 < size) (hmax : n ≠ 2 ^ 32 - 1) (hlt : n < 2 ^ 32) : size < 2 ^ 15 := by
  have hnb : toU32 (toI32 n) = n := toU32_toI32 hlt
  obtain ⟨hstarts, hends⟩ := countP_pageUpdates hnb size (size - 1)
  have havoids := pageUpdates_avoids (g := g) t clk (n := n) (toI32 n) size (size - 1) s
  have hbefore := h.freed (pageUpdates (toI32 n) size (size - 1)) havoids hstarts.le (by omega)
  rw [if_neg (by omega)] at hbefore
  have hlast : Stands n size size (size - 1)
      (RequestOp.runAll g t clk (pageUpdates (toI32 n) size (size - 1)) s) := by
    rcases hstands.runAll t clk hmax havoids with hlast | hgone
    · rwa [hstarts, hends, Nat.zero_add, Nat.zero_add] at hlast
    · rw [hgone.count] at hbefore
      omega
  have hstart : size = size + if UpdateType.endTime = .startTime then 1 else 0 := rfl
  have hend : size = size - 1 + if UpdateType.endTime = .endTime then 1 else 0 := by
    rw [if_pos rfl]
    omega
  have hdivisor := hlast.divisor hmax hnb .endTime 0 0 hstart hend
  rw [if_pos ⟨rfl, rfl⟩] at hdivisor
  have hexact := (h.divided _ _ .endTime _ havoids (by simp [addresses, hnb]) hdivisor).1
  rw [toI16, Int.bmod_def] at hexact
  split at hexact <;> omega

private theorem Stands.accounted (hstands : Stands n size 0 0 s) (hpos : 0 < size)
    (hlt : size < 2 ^ 15) (hmax : n ≠ 2 ^ 32 - 1) : Accounted g t clk n size s := by
  refine ⟨fun ops hops hstarts hends => ?_, fun ops op type d hops hop hd => ?_⟩
  · have hnow : AsCounted n size 0 0 s := by
      rw [AsCounted, if_neg (by omega)]
      exact hstands
    have hend := hnow.runAll t clk hmax hlt hops (by omega) (by omega)
    rw [AsCounted, Nat.zero_add, Nat.zero_add] at hend
    split at hend
    · rename_i hall
      rw [if_pos hall, hend.count]
    · rename_i hnot
      rw [if_neg hnot, hend.count]
  · refine ⟨?_, hpos⟩
    rcases hstands.runAll t clk hmax hops with hlast | hgone
    · rcases addresses_cases op n with hother | ⟨type', nb, offset, time, rfl, hnb⟩
      · rw [hother type] at hop
        cases hop
      · rw [hlast.divisor hmax hnb type' offset time rfl rfl, Option.ite_none_right_eq_some] at hd
        rw [← Option.some.inj hd.2, toI16_of_lt hlt]
    · rw [hgone.divisor hop] at hd
      cases hd

end accounted

section alloc

variable (hs : s.WellFormed) (sectorNb : ℤ) (length : ℕ) (ioType : IoType)

include hs

/-- The requests with the new number, right after the allocation. -/
private theorem withNb_alloc : withNb s.ioRequestSeqNb
    (allocIoRequest g clk sectorNb length ioType s).outstanding =
      withNb s.ioRequestSeqNb s.outstanding ++ [newRequest g sectorNb length ioType s] := by
  have hnb : (newRequest g sectorNb length ioType s).requestNb = s.ioRequestSeqNb := rfl
  rw [(outstanding_alloc clk hs sectorNb length ioType).2, withNb_append, withNb_cons_self hnb]
  rfl

private theorem alloc_stands (hfresh : s.ioRequestSeqNb ∉ s.outstandingNbs) :
    Stands s.ioRequestSeqNb (ioPageNb g sectorNb length) 0 0
      (allocIoRequest g clk sectorNb length ioType s) := by
  have hnone : withNb s.ioRequestSeqNb s.outstanding = [] := by
    rw [← List.length_eq_zero_iff, ← count_outstandingNbs, List.count_eq_zero]
    exact hfresh
  have hzero : toI16 (0 : ℕ) = 0 := toI16_of_lt (by decide)
  refine ⟨(outstanding_alloc clk hs sectorNb length ioType).1,
    newRequest g sectorNb length ioType s, ?_, rfl, hzero.symm, hzero.symm⟩
  rw [withNb_alloc clk hs, hnone]
  rfl

end alloc

/-- **Accounting at the limits.** A request is freed after as many starts and ends as it has pages,
and its latency is divided by this number, exactly when the number is positive and fits into
16 bits with a sign, its own number is not `-1` as an `int`, and no outstanding request has
it already. -/
theorem accounted_iff (hs : s.WellFormed) (hseq : s.ioRequestSeqNb < 2 ^ 32) (sectorNb : ℤ)
    (length : ℕ) (ioType : IoType) :
    Accounted g t clk s.ioRequestSeqNb (ioPageNb g sectorNb length)
        (allocIoRequest g clk sectorNb length ioType s) ↔
      0 < ioPageNb g sectorNb length ∧ ioPageNb g sectorNb length < 2 ^ 15 ∧
        s.ioRequestSeqNb ≠ 2 ^ 32 - 1 ∧ s.ioRequestSeqNb ∉ s.outstandingNbs := by
  constructor
  · intro h
    -- right after the allocation
    have hnow := h.freed [] trivial (Nat.zero_le _) (Nat.zero_le _)
    rw [RequestOp.runAll, List.foldl_nil, List.countP_nil, List.countP_nil, count_outstandingNbs,
      withNb_alloc clk hs, List.length_append, List.length_singleton, ← count_outstandingNbs] at hnow
    have hpos : 0 < ioPageNb g sectorNb length := by
      by_contra hzero
      rw [if_pos (by omega)] at hnow
      omega
    rw [if_neg (by omega)] at hnow
    have hfresh : s.ioRequestSeqNb ∉ s.outstandingNbs := List.count_eq_zero.mp (by omega)
    have hstands := alloc_stands (g := g) clk hs sectorNb length ioType hfresh
    have hmax := h.ne_max hstands
    exact ⟨hpos, h.lt hstands hpos hmax hseq, hmax, hfresh⟩
  · rintro ⟨hpos, hlt, hmax, hfresh⟩
    exact (alloc_stands clk hs sectorNb length ioType hfresh).accounted hpos hlt hmax

private theorem init_wellFormed : (Io.init t).WellFormed := ⟨[], rfl, rfl, fun h => absurd rfl h⟩

/-- The first request of two pages. -/
theorem accounted_smallDevice : ioPageNb smallDevice 0 4 = 2 ∧
    Accounted smallDevice smallDelays steadyClock 0 2
      (allocIoRequest smallDevice steadyClock 0 4 .write (Io.init smallDelays)) := by
  have hpages : ioPageNb smallDevice 0 4 = 2 := by decide +kernel
  have h := (accounted_iff (g := smallDevice) smallDelays steadyClock
    (init_wellFormed smallDelays) (by decide) 0 4 .write).mpr (by
      rw [hpages]
      decide)
  rw [hpages] at h
  exact ⟨hpages, h⟩

/-- A write of length zero passes the bounds check, and its request stays outstanding; and so does
the request with the largest number. -/
theorem notAccounted_smallDevice :
    ((ftlWrite smallDevice 30 0 0 (ftlInit smallDevice)).map fun x =>
      (ioRun smallDevice smallDelays steadyClock x.2.2 (Io.init smallDelays)).outstandingNbs) =
        some [0] ∧
    ¬Accounted smallDevice smallDelays steadyClock 0 (ioPageNb smallDevice 0 0)
      (allocIoRequest smallDevice steadyClock 0 0 .write (Io.init smallDelays)) ∧
    ¬Accounted smallDevice smallDelays steadyClock 0xffffffff (ioPageNb smallDevice 0 4)
      (allocIoRequest smallDevice steadyClock 0 4 .write
        { Io.init smallDelays with ioRequestSeqNb := 0xffffffff }) := by
  refine ⟨by decide +kernel, fun h => ?_, fun h => ?_⟩
  · have hnow := h.freed [] trivial (Nat.zero_le _) (Nat.zero_le _)
    revert hnow
    decide +kernel
  · exact h.ne_max (alloc_stands (s := { Io.init smallDelays with ioRequestSeqNb := 0xffffffff })
      steadyClock (init_wellFormed smallDelays) 0 4 .write (by simp [outstandingNbs, outstanding,
        Io.init, walk])) rfl

end Vssim
