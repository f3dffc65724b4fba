import Vssim.Ftl.Bounds
import Vssim.Ftl.ReadYourWrites
import Vssim.Ftl.Reclaim
import Vssim.Monitor.Protocol

/-!
# What the monitor shows

The FTL reports at three places: at the end of `_FTL_READ`, at the end of `_FTL_WRITE` and at the
end of `GARBAGE_COLLECTION`. A request that fails reports nothing, nor does a collection. So what
the monitor shows of a run (`run_counted`) is what the requests that returned `SUCCESS` have asked
for, the `gc_count` of the FTL itself, and as `WB AMP` every page that a collection has copied, as
long as no collection gives up after its first copies.
-/

namespace Vssim

open FlashStore Finset

variable {g : Geometry} {s s' : Ftl} {σ : Store} {fuel : ℕ} {events : List Event}

/-! ### What the FTL sends -/

/-- A page that a collection copies. -/
def Call.isGcWrite : Call → Bool
  | .ssdPageWrite _ _ _ _ .gcWrite _ => true
  | _ => false

/-- A page that is programmed for the host. -/
def Call.isHostWrite : Call → Bool
  | .ssdPageWrite _ _ _ _ .write _ | .ssdPagePartialWrite _ _ _ _ _ _ _ .write _ => true
  | _ => false

def gcWrites (events : List Event) : ℕ := events.countP fun e => e.call.isGcWrite

def hostPageWrites (events : List Event) : ℕ := events.countP fun e => e.call.isHostWrite

/-- `copy_page_nb` of `GARBAGE_COLLECTION` after an event. -/
def copyPageNb (k : ℕ) (e : Event) : ℕ :=
  if e.call = .garbageCollection then 0 else if e.call.isGcWrite then k + 1 else k

/-- What `GARBAGE_COLLECTION` sends behind the erase of its victim. -/
def eraseMessages (k : ℕ) (e : Event) : List Message :=
  match e.call with
  | .ssdBlockErase _ _ => [.gc, .wbAmp k]
  | _ => []

/-- The messages of collections. -/
def gcMessages : ℕ → List Event → List Message
  | _, [] => []
  | k, e :: es => eraseMessages k e ++ gcMessages (copyPageNb k e) es

/-- The messages of a request. Both functions send theirs behind `INCREASE_IO_REQUEST_SEQ_NB`,
`_FTL_WRITE` also behind `GC_CHECK`. -/
def Served.messages (e : Served) : List Message :=
  gcMessages 0 e.events ++
    if e.events.any fun x => x.call = .increaseIoRequestSeqNb then
      match e.request with
      | .read _ length => [.readPage length]
      | .write _ length => [.writePage length, .wbCorrect (hostPageWrites e.events)]
    else []

/-! ### Counters -/

/-- The counters of the monitor. -/
inductive Counter
  | writeSec
  | readSec
  | write
  | read
  | gc
  | writtenCorrect
  | writeAmp

namespace Counter

/-- The variable of `Form1`. -/
def value (m : Monitor) : Counter → ℤ
  | writeSec => m.writeSecCount
  | readSec => m.readSecCount
  | write => m.writeCount
  | read => m.readCount
  | gc => m.gcNb
  | writtenCorrect => m.writtenCorrectCount
  | writeAmp => m.writeAmpCount

/-- The type of the variable: `unsigned int`, `int` or `long long int`. -/
def wrap (x : ℤ) : Counter → ℤ
  | writeSec | readSec => toU32 x
  | write | read => toI32 x
  | gc | writtenCorrect | writeAmp => toI64 x

/-- What a message adds. -/
def weight : Counter → Message → ℤ
  | writeSec, .writePage length => length
  | readSec, .readPage length => length
  | write, .writePage _ => 1
  | read, .readPage _ => 1
  | gc, .gc => 1
  | writtenCorrect, .wbCorrect n => n
  | writeAmp, .wbAmp n => n
  | _, _ => 0

/-- What messages add. -/
def total (c : Counter) (msgs : List Message) : ℤ := (msgs.map c.weight).sum

/-- What a request that is served adds. -/
def ofRequest (g : Geometry) : Counter → Request → ℤ
  | writeSec, .write _ length => length
  | readSec, .read _ length => length
  | write, .write _ _ => 1
  | read, .read _ _ => 1
  | writtenCorrect, .write sectorNb length => ioPageNb g sectorNb length
  | _, _ => 0

/-- What collections add, on the way from one state of the FTL to another. -/
def ofGc (s : Ftl) (events : List Event) (s' : Ftl) : Counter → ℤ
  | gc => s'.gcCount - s.gcCount
  | writeAmp => gcWrites events
  | _ => 0

/-- What a history comes to: the requests that returned `SUCCESS`, and the collections. -/
def due (g : Geometry) (s : Ftl) (hist : List Served) (s' : Ftl) (c : Counter) : ℤ :=
  c.ofGc s (eventLog hist) s' +
    ((hist.filter fun e => e.ret = .success).map fun e => c.ofRequest g e.request).sum

private theorem wrap_wrap_add (c : Counter) (x y : ℤ) : c.wrap (c.wrap x + y) = c.wrap (x + y) := by
  have hbmod : ∀ n : ℕ, (x.bmod n + y).bmod n = (x + y).bmod n := fun n => Int.bmod_add_bmod
  cases c with
  | writeSec | readSec =>
    simp only [wrap, toU32]
    congr 2
    rw [Int.toNat_of_nonneg (Int.emod_nonneg _ (by decide)), Int.emod_add_emod]
  | write | read => simp only [wrap, toI32, hbmod]
  | gc | writtenCorrect | writeAmp => simp only [wrap, toI64, hbmod]

private theorem value_count {c : Counter} {m : Monitor} {x : ℤ} (h : c.value m = c.wrap x)
    (msg : Message) : c.value (msg.count m) = c.wrap (x + c.weight msg) := by
  have hcount : c.value (msg.count m) = c.value m ∧ c.weight msg = 0 ∨
      c.value (msg.count m) = c.wrap (c.value m + c.weight msg) := by
    cases c <;> cases msg <;> first | exact .inl ⟨rfl, rfl⟩ | exact .inr rfl
  rcases hcount with ⟨hkeep, hzero⟩ | hadd
  · rw [hkeep, hzero, add_zero, h]
  · rw [hadd, h, wrap_wrap_add]

private theorem value_foldl {c : Counter} {m : Monitor} {x : ℤ} (h : c.value m = c.wrap x)
    (msgs : List Message) :
    c.value (msgs.foldl Message.count m) = c.wrap (x + c.total msgs) := by
  induction msgs generalizing m x with
  | nil => rw [total, List.map_nil, List.sum_nil, add_zero, List.foldl_nil, h]
  | cons msg msgs ih =>
    rw [List.foldl_cons, ih (value_count h msg), total, total, List.map_cons, List.sum_cons,
      add_assoc]

@[simp] theorem total_nil (c : Counter) : c.total [] = 0 := rfl

@[simp] theorem total_append (c : Counter) (xs ys : List Message) :
    c.total (xs ++ ys) = c.total xs + c.total ys := by
  rw [total, List.map_append, List.sum_append, total, total]

private theorem ofGc_append (c : Counter) (s₁ s₂ s₃ : Ftl) (xs ys : List Event) :
    c.ofGc s₁ (xs ++ ys) s₃ = c.ofGc s₁ xs s₂ + c.ofGc s₂ ys s₃ := by
  cases c with
  | gc =>
    simp only [ofGc]
    omega
  | writeAmp =>
    simp only [ofGc, gcWrites, List.countP_append]
    omega
  | _ => rfl

/-- Without a copy and without an erase. -/
private theorem ofGc_quiet (c : Counter) (hzero : gcWrites events = 0)
    (hs : s'.gcCount = s.gcCount) : c.ofGc s events s' = 0 := by
  cases c with
  | gc => rw [ofGc, hs, sub_self]
  | writeAmp => rw [ofGc, hzero, Nat.cast_zero]
  | _ => rfl

end Counter

/-! ### Collections -/

private theorem gcMessages_append (k : ℕ) (xs ys : List Event) :
    gcMessages k (xs ++ ys) = gcMessages k xs ++ gcMessages (xs.foldl copyPageNb k) ys := by
  induction xs generalizing k with
  | nil => rfl
  | cons x xs ih =>
    rw [List.cons_append, gcMessages, gcMessages, ih, List.foldl_cons, List.append_assoc]

/-- With this call no collection begins, and none ends with the erase of its victim. -/
def Call.Within (c : Call) : Prop := c ≠ .garbageCollection ∧ ∀ f b, c ≠ .ssdBlockErase f b

/-- A call that is not part of a host request. -/
def Call.Unasked (c : Call) : Prop := c ≠ .increaseIoRequestSeqNb ∧ c.isHostWrite = false

/-- Such calls send nothing and count copies. -/
private theorem gcMessages_within {xs : List Event} (h : ∀ x ∈ xs, x.call.Within) (k : ℕ) :
    gcMessages k xs = [] ∧ xs.foldl copyPageNb k = k + gcWrites xs := by
  induction xs generalizing k with
  | nil => exact ⟨rfl, rfl⟩
  | cons x xs ih =>
    obtain ⟨hgc, herase⟩ := h x (by simp)
    obtain ⟨hnone, hcopied⟩ := ih (fun y hy => h y (List.mem_cons_of_mem _ hy)) (copyPageNb k x)
    constructor
    · have hx : eraseMessages k x = [] := by
        unfold eraseMessages
        split
        · next hcall => exact absurd hcall (herase _ _)
        · rfl
      rw [gcMessages, hx, hnone, List.append_nil]
    · rw [List.foldl_cons, hcopied, copyPageNb, if_neg hgc, gcWrites, gcWrites, List.countP_cons]
      split <;> omega

/-- The copy loop: it gives up or returns the number of its copies. -/
private theorem copyValidPages_counts {v : VictimBlock} {is : List ℕ} {c : ℕ} {r : Option ℕ}
    (hrun : copyValidPages g fuel v is c s = some (r, s', events)) :
    (∀ e ∈ events, e.call.Within ∧ e.call.Unasked) ∧ s'.gcCount = s.gcCount ∧
      gcWrites events ≤ is.length ∧ (r = none → GcAborted events) := by
  induction is generalizing c s events with
  | nil =>
    cases hrun
    exact ⟨by simp, rfl, le_rfl, by simp⟩
  | cons i is ih =>
    rcases copyValidPages_cons hrun with ⟨-, hrun⟩ | ⟨-, -, lists, -, rfl, rfl⟩ |
      ⟨-, e, lists, ev₁, -, hloop, rfl⟩
    · obtain ⟨hcalls, hcount, hle, habort⟩ := ih hrun
      exact ⟨hcalls, hcount, hle.trans (Nat.le_succ _), habort⟩
    · exact ⟨by simp [Call.Within, Call.Unasked, Call.isHostWrite], rfl,
        by simp [gcWrites, Call.isGcWrite],
        by simp⟩
    · obtain ⟨hcalls, hcount, hle, habort⟩ := ih hloop
      refine ⟨?_, hcount, ?_, fun hr => ?_⟩
      · simpa [Call.Within, Call.Unasked, Call.isHostWrite] using hcalls
      · simpa [gcWrites, Call.isGcWrite] using hle
      · simpa using habort hr

/-- What collections have sent, on the way from one state of the FTL to another. -/
structure GcReport (g : Geometry) (s : Ftl) (events : List Event) (s' : Ftl) : Prop where
  total : ∀ k (c : Counter), c.total (gcMessages k events) = c.ofGc s events s'
  ok : g.pageNb < 2 ^ 31 → ∀ k, ∀ msg ∈ gcMessages k events, msg.Ok
  calls : ∀ e ∈ events, e.call.Unasked

namespace GcReport

/-- `copy_page_nb` starts with the collection. -/
private theorem enter {x : Ftl}
    (htotal : ∀ c : Counter, c.total (gcMessages 0 events) = c.ofGc s events s')
    (hok : g.pageNb < 2 ^ 31 → ∀ msg ∈ gcMessages 0 events, msg.Ok)
    (hcalls : ∀ e ∈ events, e.call.Unasked) :
    GcReport g s (⟨.garbageCollection, x⟩ :: events) s' where
  total k c := by
    refine (htotal c).trans ?_
    cases c <;> rfl
  ok hsize k := hok hsize
  calls e he := by
    rcases List.mem_cons.mp he with rfl | he
    · exact ⟨by simp, rfl⟩
    · exact hcalls e he

private theorem refl (s : Ftl) : GcReport g s [] s where
  total k c := by cases c <;> simp [gcMessages, Counter.ofGc, gcWrites]
  ok := by simp [gcMessages]
  calls := by simp

private theorem append {s₁ s₂ s₃ : Ftl} {xs ys : List Event} (h₁ : GcReport g s₁ xs s₂)
    (h₂ : GcReport g s₂ ys s₃) : GcReport g s₁ (xs ++ ys) s₃ where
  total k c := by rw [gcMessages_append, c.total_append, h₁.total, h₂.total, c.ofGc_append s₁ s₂]
  ok hsize k msg hmsg := by
    rw [gcMessages_append, List.mem_append] at hmsg
    rcases hmsg with hmsg | hmsg
    · exact h₁.ok hsize k msg hmsg
    · exact h₂.ok hsize _ msg hmsg
  calls e he := by
    rcases List.mem_append.mp he with he | he
    · exact h₁.calls e he
    · exact h₂.calls e he

end GcReport

/-- **A collection** that does not give up reports itself and its copies, or has done nothing. -/
theorem garbageCollection_report {r : Ret} (h : FtlInv g s σ) (hno : ¬ GcAborted events)
    (hrun : garbageCollection g fuel s = some (r, s', events)) : GcReport g s events s' := by
  rcases garbageCollection_cases hrun with ⟨ev₁, hselect, -, rfl⟩ |
    ⟨v, s₁, ev₁, copied, s₂, ev₂, hselect, hcopy, hend⟩
  · rcases selectVictimBlock_cases hselect with ⟨-, ⟨c, rfl⟩, hev⟩ | ⟨a, c, lists, hv, -⟩
    swap
    · cases hv
    have hwithin : ∀ e ∈ ev₁, e.call.Within := fun e he => by
      rw [hev e he]
      exact ⟨by simp, by simp⟩
    have hzero : gcWrites ev₁ = 0 := by
      refine List.countP_eq_zero.mpr fun e he => ?_
      rw [hev e he]
      simp [Call.isGcWrite]
    have hnone := (gcMessages_within hwithin 0).1
    refine .enter (fun c => ?_) (fun _ => by simp [hnone]) fun e he => ?_
    · rw [hnone]
      exact (c.ofGc_quiet hzero rfl).symm
    · rw [hev e he]
      exact ⟨by simp, rfl⟩
  · rcases selectVictimBlock_cases hselect with ⟨hv, -⟩ | ⟨a, c, lists, -, -, -, rfl, rfl⟩
    · cases hv
    obtain ⟨hcalls, hcount, hle, habort⟩ := copyValidPages_counts hcopy
    rcases hend with ⟨rfl, -, -, rfl⟩ | ⟨n, rfl, hend⟩
    · exact absurd (by simpa using habort rfl) hno
    obtain ⟨-, -, hn, hvalid, -⟩ := collection_copied h hselect hcopy
    rcases hend with ⟨hne, -⟩ | ⟨lists', -, -, -, rfl, rfl⟩
    · exact absurd (hn.trans hvalid.symm) hne
    obtain ⟨hnone, hcopied⟩ := gcMessages_within (fun e he => (hcalls e he).1) 0
    have hmsgs : gcMessages 0 ([] ++ ev₂ ++ [⟨.ssdBlockErase v.block.1 v.block.2, s₂⟩]) =
        [.gc, .wbAmp (gcWrites ev₂)] := by
      rw [List.nil_append, gcMessages_append, hnone, hcopied, zero_add]
      rfl
    rw [List.length_range'] at hle
    refine .enter (fun c => ?_) (fun hsize => ?_) fun e he => ?_
    · rw [hmsgs]
      cases c <;> simp [Counter.total, Counter.weight, Counter.ofGc, gcWrites, hcount,
        Call.isGcWrite]
    · rw [hmsgs, List.forall_mem_cons, List.forall_mem_singleton]
      exact ⟨trivial, by omega, by omega⟩
    · rcases List.mem_append.mp he with he | he
      · exact (hcalls e he).2
      · rw [List.mem_singleton.mp he]
        exact ⟨by simp, rfl⟩

private theorem collectLoop_report {n : ℕ} {u : Unit} (h : FtlInv g s σ) (hno : ¬ GcAborted events)
    (hrun : collectLoop g fuel n s = some (u, s', events)) : GcReport g s events s' := by
  induction n generalizing s σ events with
  | zero =>
    cases hrun
    exact .refl _
  | succ n ih =>
    simp only [collectLoop, Option.bind_eq_bind, Option.bind_eq_some_iff] at hrun
    obtain ⟨⟨r, s₁, ev₁⟩, hgc, hrun⟩ := hrun
    cases r with
    | fail =>
      cases hrun
      exact garbageCollection_report h hno hgc
    | success =>
      simp only [Option.bind_eq_some_iff] at hrun
      obtain ⟨⟨u', s₂, ev₂⟩, hloop, hrun⟩ := hrun
      cases hrun
      rw [gcAborted_append, not_or] at hno
      obtain ⟨L, hL⟩ := h.lists
      obtain ⟨ls₁, σ₁, hsim₁, -⟩ := garbageCollection_sim h hL hgc
      exact (garbageCollection_report h hno.1 hgc).append (ih hsim₁.inv hno.2 hloop)

private theorem gcCheck_report {u : Unit} (h : FtlInv g s σ) (hno : ¬ GcAborted events)
    (hrun : gcCheck g fuel s = some (u, s', events)) : GcReport g s events s' := by
  rw [gcCheck] at hrun
  split at hrun
  · exact collectLoop_report h hno hrun
  · cases hrun
    exact .refl s

/-! ### Requests -/

/-- The page loop of a write: what it programs is what `ALLOC_IO_REQUEST` has announced, unless the
request fails. -/
private theorem writePages_counts {n rounds k : ℕ} {c : Cursor} {ret : Ret} {r : Option Ret}
    (hrun : writePages g fuel n rounds c k ret s = some (r, s', events)) :
    (∀ e ∈ events, e.call.Within ∧ e.call.isGcWrite = false ∧ e.call ≠ .increaseIoRequestSeqNb) ∧
      s'.gcCount = s.gcCount ∧ (r ≠ none → hostPageWrites events = countPages g rounds c) := by
  induction rounds generalizing c k ret s events with
  | zero =>
    cases hrun
    exact ⟨by simp, rfl, fun _ => rfl⟩
  | succ rounds ih =>
    by_cases hpos : 0 < c.remain
    swap
    · rw [writePages, if_neg hpos] at hrun
      cases hrun
      exact ⟨by simp, rfl, fun _ => by rw [countPages, if_neg hpos]; rfl⟩
    rcases writePages_succ hpos hrun with ⟨rfl, lists, -, rfl, rfl⟩ | ⟨e, lists, ev₁, -, hloop, rfl⟩
    · exact ⟨by simp [Call.Within, Call.isGcWrite], rfl, fun h => absurd rfl h⟩
    · obtain ⟨hcalls, hcount, hpages⟩ := ih hloop
      obtain ⟨program, hprogram⟩ : ∃ c', c' = programCall g s.tables c (e.ppn g) k n := ⟨_, rfl⟩
      have hcall : (program.Within ∧ program.isGcWrite = false ∧
          program ≠ .increaseIoRequestSeqNb) ∧ program.isHostWrite = true := by
        rw [hprogram, programCall]
        split <;> simp [Call.Within, Call.isGcWrite, Call.isHostWrite]
      rw [← hprogram]
      refine ⟨?_, hcount, fun hr => ?_⟩
      · simp only [List.cons_append, List.nil_append, List.forall_mem_cons]
        exact ⟨by simp [Call.Within, Call.isGcWrite], hcall.1, hcalls⟩
      · rw [countPages, if_pos hpos, ← hpages hr, hostPageWrites, List.cons_append,
          List.cons_append, List.nil_append, List.countP_cons_of_neg (by simp [Call.isHostWrite])]
        exact List.countP_cons_of_pos hcall.2

private theorem Serve.inRange {e : Served} (hserve : Serve g s e s') : e.request.InRange g := by
  cases hserve with
  | write hreq _ | read hreq _ => exact hreq

private theorem Geometry.pageNb_le_sectorNb (g : Geometry) : g.pageNb ≤ g.sectorNb := by
  have hrest : 1 ≤ g.sectorsPerPage * g.blockNb * g.flashNb :=
    Nat.mul_pos (Nat.mul_pos g.sectorsPerPage_pos g.blockNb_pos) g.flashNb_pos
  calc g.pageNb = g.pageNb * 1 := (Nat.mul_one _).symm
    _ ≤ g.pageNb * (g.sectorsPerPage * g.blockNb * g.flashNb) := Nat.mul_le_mul_left _ hrest
    _ = g.sectorNb := by rw [sectorNb]; ring

/-- What a request reports in the end. -/
def Request.report (g : Geometry) : Request → List Message
  | .read _ length => [.readPage length]
  | .write sectorNb length => [.writePage length, .wbCorrect (ioPageNb g sectorNb length)]

private theorem ioPageNb_le (sectorNb : ℤ) (length : ℕ) : ioPageNb g sectorNb length ≤ length := by
  have hle : ∀ rounds c, countPages g rounds c ≤ rounds := by
    intro rounds
    induction rounds with
    | zero => exact fun _ => le_rfl
    | succ rounds ih =>
      intro c
      have hnext := ih (c.next g)
      rw [countPages]
      split <;> omega
  exact hle _ _

private theorem Request.report_ok {req : Request} (hreq : req.InRange g)
    (hsize : g.sectorNb < 2 ^ 31) : ∀ msg ∈ req.report g, msg.Ok := by
  cases req with
  | read sectorNb length =>
    have hreq : Vssim.InRange g sectorNb length := hreq
    have hnonneg := hreq.nonneg
    have hdevice := hreq.le_device
    rw [report, List.forall_mem_singleton, Message.Ok]
    omega
  | write sectorNb length =>
    have hreq : Vssim.InRange g sectorNb length := hreq
    have hnonneg := hreq.nonneg
    have hdevice := hreq.le_device
    have hpages := ioPageNb_le (g := g) sectorNb length
    rw [report, List.forall_mem_cons, List.forall_mem_singleton, Message.Ok, Message.Ok]
    omega

private theorem Counter.total_report (c : Counter) (req : Request) :
    c.total (req.report g) = c.ofRequest g req := by
  cases req <;> cases c <;> simp [Request.report, total, weight, ofRequest]

/-- A read succeeds and reports, or nothing happens. -/
private theorem ftlRead_cases {sectorNb : ℤ} {length : ℕ} {r : Ret}
    (hreq : InRange g sectorNb length) (hrun : ftlRead g sectorNb length s = (r, events)) :
    r = .success ∧ ⟨.increaseIoRequestSeqNb, s⟩ ∈ events ∨ r = .fail ∧ events = [] := by
  rw [ftlRead, if_neg hreq.toU32_le] at hrun
  split at hrun
  · cases hrun
    refine .inl ⟨readPages_ret.trans (if_neg (requestPages_ne_nil hreq)), by simp⟩
  · cases hrun
    exact .inr ⟨rfl, rfl⟩

private theorem Call.Silent.within {c : Call} (h : c.Silent) (hgc : c ≠ .garbageCollection) :
    c.Within ∧ c.isGcWrite = false := by
  cases c <;> simp_all [Call.Silent, Call.Within, Call.isGcWrite]

/-- The messages of a request: those of its collections, and its own if it succeeds. -/
private theorem Serve.messages_eq {e : Served} (h : FtlInv g s σ) (hno : ¬ GcAborted e.events)
    (hserve : Serve g s e s') : ∃ msgs,
      e.messages = msgs ++ (if e.ret = .success then e.request.report g else []) ∧
      (∀ c : Counter, c.total msgs = c.ofGc s e.events s') ∧
      (g.pageNb < 2 ^ 31 → ∀ msg ∈ msgs, msg.Ok) := by
  cases hserve with
  | @write _ sectorNb length fuel r events hreq hrun =>
    obtain ⟨r₁, s₁, ev₁, hloop, hend⟩ := ftlWrite_cases hreq hrun
    obtain ⟨hcalls, hcount, hpages⟩ := writePages_counts hloop
    have hzero : gcWrites ev₁ = 0 :=
      List.countP_eq_zero.mpr fun x hx => by simp [(hcalls x hx).2.1]
    obtain ⟨hnone, hkeep⟩ := gcMessages_within (fun x hx => (hcalls x hx).1) 0
    rcases hend with ⟨rfl, rfl, rfl, rfl⟩ | ⟨ev₂, rfl, hcheck, rfl⟩
    · have hany : (ev₁.any fun x => x.call = .increaseIoRequestSeqNb) = false :=
        List.any_eq_false.mpr fun x hx => by simpa using (hcalls x hx).2.2
      refine ⟨[], ?_, fun c => (c.ofGc_quiet hzero hcount).symm, by simp⟩
      rw [Served.messages, List.any_cons, hany, if_neg (by simp), if_neg (by simp)]
      exact (List.append_nil _).trans hnone
    · simp only [gcAborted_cons, gcAborted_append, not_or] at hno
      obtain ⟨L, hL⟩ := h.lists
      obtain ⟨ls₁, σ₁, hsim₁, -⟩ := writePages_sim h (fun _ => .start hreq) hloop
      have hreport := gcCheck_report hsim₁.inv hno.2.2.2 hcheck
      have hhost : hostPageWrites ev₂ = 0 :=
        List.countP_eq_zero.mpr fun x hx => by simp [(hreport.calls x hx).2]
      have hret := writePages_ret hloop (.inl ⟨hreq.pos, hreq.pos⟩)
      refine ⟨gcMessages 0 ev₂, ?_, fun c => ?_, fun hsize => hreport.ok hsize 0⟩
      · have hgc : gcMessages 0 (⟨.allocIoRequest sectorNb length .write, s⟩ ::
            (ev₁ ++ ⟨.increaseIoRequestSeqNb, s₁⟩ :: ev₂)) = gcMessages 0 ev₂ := by
          refine (gcMessages_append 0 ev₁ _).trans ?_
          rw [hnone, hkeep, hzero]
          rfl
        have hall : hostPageWrites (⟨.allocIoRequest sectorNb length .write, s⟩ ::
            (ev₁ ++ ⟨.increaseIoRequestSeqNb, s₁⟩ :: ev₂)) = ioPageNb g sectorNb length := by
          have hsplit : hostPageWrites (ev₁ ++ ev₂) = ioPageNb g sectorNb length := by
            rw [hostPageWrites, List.countP_append]
            exact congrArg₂ (· + ·) (hpages (by simp)) hhost
          simpa [hostPageWrites, Call.isHostWrite] using hsplit
        rw [Served.messages, hgc, hall, if_pos (by simp), if_pos hret]
        rfl
      · have hquiet : gcWrites (⟨.allocIoRequest sectorNb length .write, s⟩ ::
            (ev₁ ++ [⟨.increaseIoRequestSeqNb, s₁⟩])) = 0 := by
          simpa [gcWrites, Call.isGcWrite] using hzero
        have hadd := c.ofGc_append s s₁ s' (⟨.allocIoRequest sectorNb length .write, s⟩ ::
          (ev₁ ++ [⟨.increaseIoRequestSeqNb, s₁⟩])) ev₂
        rw [c.ofGc_quiet hquiet hcount, zero_add] at hadd
        rw [hreport.total, ← hadd]
        simp
  | @read sectorNb length r events hreq hrun =>
    have hcalls : ∀ x ∈ events, x.call.Within ∧ x.call.isGcWrite = false := fun x hx => by
      have hev : events = (ftlRead g sectorNb length s).2 := by rw [hrun]
      obtain ⟨hsilent, hgc, -⟩ := ftlRead_silent x (hev ▸ hx)
      exact hsilent.within hgc
    have hzero : gcWrites events = 0 :=
      List.countP_eq_zero.mpr fun x hx => by simp [(hcalls x hx).2]
    refine ⟨[], ?_, fun c => (c.ofGc_quiet hzero rfl).symm, by simp⟩
    rw [Served.messages, (gcMessages_within (fun x hx => (hcalls x hx).1) 0).1]
    rcases ftlRead_cases hreq hrun with ⟨rfl, hincr⟩ | ⟨rfl, rfl⟩
    · have hany : (events.any fun x => x.call = .increaseIoRequestSeqNb) = true :=
        List.any_eq_true.mpr ⟨_, hincr, by simp⟩
      rw [if_pos hany, if_pos rfl]
      rfl
    · rfl

/-! ### Runs -/

private theorem Counter.due_cons (c : Counter) {s₁ : Ftl} (e : Served) (hist : List Served) :
    c.due g s (e :: hist) s' = c.ofGc s e.events s₁ +
      (if e.ret = .success then c.ofRequest g e.request else 0) + c.due g s₁ hist s' := by
  rw [due, due, eventLog, List.flatMap_cons, c.ofGc_append s s₁ s', List.filter_cons, eventLog]
  by_cases hret : e.ret = .success
  · simp only [hret, decide_true, if_true, List.map_cons, List.sum_cons]
    ring
  · simp only [hret, decide_false, Bool.false_eq_true, if_false]
    ring

/-- What the requests of a run send. -/
private theorem serves_report {hist : List Served} (h : FtlInv g s σ) (hgc : NoGcAbort hist)
    (htrace : Trace (Serve g) s hist s') :
    (∀ c : Counter, c.total (hist.flatMap Served.messages) = c.due g s hist s') ∧
      (g.sectorNb < 2 ^ 31 → ∀ msg ∈ hist.flatMap Served.messages, msg.Ok) := by
  induction htrace generalizing σ with
  | nil s =>
    refine ⟨fun c => ?_, by simp⟩
    cases c <;> simp [Counter.due, Counter.ofGc, eventLog, gcWrites]
  | @cons s s₁ s' e hist hserve _ ih =>
    have hno : ¬ GcAborted e.events := hgc e (by simp)
    obtain ⟨ls, σ₁, hsim, -⟩ := hserve.sim h
    obtain ⟨htotal, hok⟩ := ih hsim.inv fun x hx => hgc x (List.mem_cons_of_mem _ hx)
    obtain ⟨msgs, hmsgs, hmsgsTotal, hmsgsOk⟩ := hserve.messages_eq h hno
    constructor
    · intro c
      have hown : c.total (if e.ret = .success then e.request.report g else []) =
          if e.ret = .success then c.ofRequest g e.request else 0 := by
        split
        · exact c.total_report _
        · rfl
      rw [List.flatMap_cons, c.total_append, hmsgs, c.total_append, hmsgsTotal, hown, htotal,
        ← c.due_cons]
    · intro hsize msg hmsg
      rw [List.flatMap_cons, List.mem_append, hmsgs, List.mem_append] at hmsg
      rcases hmsg with (hmsg | hmsg) | hmsg
      · exact hmsgsOk (g.pageNb_le_sectorNb.trans_lt hsize) msg hmsg
      · split at hmsg
        · exact Request.report_ok hserve.inRange hsize msg hmsg
        · cases hmsg
      · exact hok hsize msg hmsg

/-- Does the monitor count the message? It only shows the others. -/
def Message.counts : Message → Bool
  | erase | readBw _ | writeBw _ | util _ => false
  | _ => true

private theorem Counter.total_filter (c : Counter) (msgs : List Message) :
    c.total (msgs.filter Message.counts) = c.total msgs := by
  induction msgs with
  | nil => rfl
  | cons msg msgs ih =>
    have hcons : ∀ xs, c.total (msg :: xs) = c.weight msg + c.total xs := fun xs => by
      rw [total, List.map_cons, List.sum_cons, total]
    rw [List.filter_cons]
    split
    · rw [hcons, hcons, ih]
    · have hzero : c.weight msg = 0 := by
        cases c <;> cases msg <;> simp_all [weight, Message.counts]
      rw [hcons, hzero, zero_add, ih]

/-- **What the monitor shows.** The simulator has served requests, none of its collections has given
up, and it has sent the messages of its requests, with messages of the performance checker
anywhere in between. When all has arrived, each counter of the monitor stands for what has happened,
up to the width of its variable. -/
theorem run_counted (hdvd : g.planesPerFlash ∣ g.blockNb) (hsize : g.sectorNb < 2 ^ 31)
    {hist : List Served} (hrun : Run g hist s) (hgc : NoGcAbort hist) {msgs : List Message}
    (hsent : msgs.filter Message.counts = hist.flatMap Served.messages)
    (hok : ∀ msg ∈ msgs, msg.counts = false → msg.Ok) (regNb : ℤ) {packets : List (List Char)}
    (hpackets : packets.flatten = messageStream msgs) :
    ∃ m, packets.foldl (Monitor.onReceive regNb) (some .zero, []) = (some m, []) ∧
      ∀ c : Counter, c.value m = c.wrap (c.due g (ftlInit g) hist s) := by
  obtain ⟨htotal, hown⟩ := serves_report (ftlInit_inv hdvd) hgc hrun
  have hall : ∀ msg ∈ msgs, msg.Ok := by
    intro msg hmsg
    by_cases hcounts : msg.counts = true
    · exact hown hsize msg (hsent ▸ List.mem_filter.mpr ⟨hmsg, hcounts⟩)
    · exact hok msg hmsg (by simpa using hcounts)
  refine ⟨_, onReceive_stream msgs hall regNb .zero (hpackets.trans (List.append_nil _).symm)
    (by simp), fun c => ?_⟩
  have hzero : c.value .zero = c.wrap 0 := by cases c <;> decide +kernel
  rw [Counter.value_foldl hzero, zero_add, ← c.total_filter, hsent, htotal]

/-- Two collections, one of which copies a page, and a read of a page that is not mapped. -/
theorem run_counted_smallDevice : ∃ hist s m, Run smallDevice hist s ∧ NoGcAbort hist ∧
    [messageStream (.util "1.5".toList :: hist.flatMap Served.messages)].foldl
      (Monitor.onReceive 1) (some .zero, []) = (some m, []) ∧
    m.gcNb = 2 ∧ m.writeAmpCount = 1 ∧ m.writtenCorrectCount = 7 ∧ m.readCount = 1 := by
  obtain ⟨hist, s, hrun, hP⟩ := exists_run (g := smallDevice) 30
    [.write 0 4, .write 4 4, .write 0 2, .write 4 2, .write 0 1, .read 0 4, .read 8 1]
    (fun hist s => decide (NoGcAbort hist ∧ (hist.flatMap Served.messages).all Message.counts ∧
      Counter.gc.due smallDevice (ftlInit smallDevice) hist s = 2 ∧
      Counter.writeAmp.due smallDevice (ftlInit smallDevice) hist s = 1 ∧
      Counter.writtenCorrect.due smallDevice (ftlInit smallDevice) hist s = 7 ∧
      Counter.read.due smallDevice (ftlInit smallDevice) hist s = 1))
    (by decide +kernel) (by decide +kernel)
  obtain ⟨hgc, hcounts, h₁, h₂, h₃, h₄⟩ := of_decide_eq_true hP
  have hsent : (.util "1.5".toList :: hist.flatMap Served.messages).filter Message.counts =
      hist.flatMap Served.messages := by
    rw [List.filter_cons_of_neg (by simp [Message.counts])]
    exact List.filter_eq_self.mpr (List.all_eq_true.mp hcounts)
  have hok : ∀ msg ∈ .util "1.5".toList :: hist.flatMap Served.messages,
      msg.counts = false → msg.Ok := by
    rw [List.forall_mem_cons]
    refine ⟨fun _ => Message.isWord rfl, fun msg hmsg hno => ?_⟩
    rw [List.all_eq_true.mp hcounts msg hmsg] at hno
    cases hno
  obtain ⟨m, hm, hvalue⟩ := run_counted (by decide) (by decide) hrun hgc hsent hok 1
    List.flatten_singleton
  have hread : ∀ (c : Counter) (x : ℤ), c.due smallDevice (ftlInit smallDevice) hist s = x →
      c.wrap x = x → c.value m = x := fun c x hdue hx => by rw [hvalue c, hdue, hx]
  exact ⟨hist, s, m, hrun, hgc, hm, hread .gc 2 h₁ (by decide +kernel),
    hread .writeAmp 1 h₂ (by decide +kernel), hread .writtenCorrect 7 h₃ (by decide +kernel),
    hread .read 1 h₄ (by decide +kernel)⟩

end Vssim
