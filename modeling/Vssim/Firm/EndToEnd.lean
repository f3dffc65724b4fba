import Vssim.Firm.Feed
import Vssim.Ftl.ReadYourWrites
import Vssim.Ftl.PowerCycle

/-!
# From the host to the NAND and back

The two halves put together: the firmware buffers, merges and reorders the requests of the host
and calls the FTL, the FTL maps sectors to pages and collects garbage. The data is a ghost that
follows the calls: `SSD_WRITE` puts it into frames, `FTL_WRITE` takes it from there (`Fed`) and
programs it into pages (`serves_store`).

A *session* is what happens between `FTL_INIT` and `FTL_TERM`: the host sends requests, `FTL_TERM`
flushes the event queue and writes the tables to files, from which the next `FTL_INIT` starts. After
any number of sessions the device holds the newest data of every sector and nothing else
(`sessions_durable`); within a session, whatever has overtaken or overwritten what, each `FTL_READ`
finds the data that the host had written before it asked (`session_ftlRead`).
-/

namespace Vssim

open FlashStore

variable {β : Type} {b : BufferConfig} {g : Geometry} {newPage : ℕ → Ret} {s s' : Ftl}
  {n : Nand (Option β)} {B : ℤ → Option β} {reqs : List Request} {d d' : Device b}

/-! ### The calls of the FTL -/

/-- The requests to the FTL among the calls of a log. -/
def ftlRequests (log : List (FirmEvent b)) : List Request :=
  log.filterMap fun ev => ev.call.toFtl

/-- The data that a call sends to the FTL, where `content nb x` is what the `SSD_WRITE` number `nb`
of the session writes to the sector `x`. -/
def FirmEvent.sent (content : ℕ → ℤ → β) (ev : FirmEvent b) (x : ℤ) : Option β :=
  match ev.call with
  | .ftlWrite sectorNb length =>
    (ev.data sectorNb length x).map fun label => content label.2 label.1
  | _ => none

/-- The data that the request number `i` to the FTL sends. -/
def ftlPayload (content : ℕ → ℤ → β) (log : List (FirmEvent b)) (i : ℕ) (x : ℤ) : Option β :=
  (log.filter fun ev => ev.call.toFtl.isSome)[i]?.bind fun ev => ev.sent content x

/-- The sector array after a call that sends data to the FTL. -/
def FirmEvent.sendTo (content : ℕ → ℤ → β) (A : ℤ → Option (Option β)) (ev : FirmEvent b) :
    ℤ → Option (Option β) :=
  match ev.call with
  | .ftlWrite sectorNb length =>
    fun x => if Covers sectorNb length x then some (ev.sent content x) else A x
  | _ => A

private theorem FirmEvent.Internal.sendTo {ev : FirmEvent b} (h : ev.Internal) (content : ℕ → ℤ → β)
    (A : ℤ → Option (Option β)) : ev.sendTo content A = A := by
  rw [FirmEvent.sendTo]
  cases hcall : ev.call with
  | ftlWrite sectorNb length =>
    rw [Internal, hcall] at h
    cases h
  | _ => rfl

/-- A call of the FTL stores what it sends. -/
private theorem FirmEvent.store_eq {ev : FirmEvent b} {req : Request} (h : ev.call.toFtl = some req)
    (content : ℕ → ℤ → β) (A : ℤ → Option (Option β)) :
    req.store (ev.sent content) A = ev.sendTo content A := by
  rw [FirmEvent.sendTo]
  cases hcall : ev.call with
  | ftlRead requestNb sectorNb length =>
    rw [hcall] at h
    cases h
    rfl
  | ftlWrite sectorNb length =>
    rw [hcall] at h
    cases h
    rfl
  | _ =>
    rw [hcall] at h
    cases h

/-- What the client of the FTL has written, call by call. -/
private theorem written_eq (content : ℕ → ℤ → β) (log : List (FirmEvent b)) {hist : List Served}
    (payload : ℕ → ℤ → Option β) (i : ℕ) (A : ℤ → Option (Option β))
    (hreqs : hist.map Served.request = ftlRequests log)
    (hpayload : ∀ (j : ℕ) (ev : FirmEvent b),
      (log.filter fun ev => ev.call.toFtl.isSome)[j]? = some ev →
        payload (i + j) = ev.sent content) :
    written payload i hist A = log.foldl (FirmEvent.sendTo content) A := by
  induction log generalizing hist i A with
  | nil =>
    rw [List.map_eq_nil_iff.mp hreqs]
    rfl
  | cons ev log ih =>
    cases hcall : ev.call.toFtl with
    | none =>
      have hinternal : ev.Internal := hcall
      rw [List.foldl_cons, hinternal.sendTo]
      refine ih i A ?_ fun j e he => hpayload j e ?_
      · simp only [hreqs, ftlRequests, List.filterMap_cons, hcall]
      · rw [List.filter_cons_of_neg (by simp [hcall]), he]
    | some req =>
      simp only [ftlRequests, List.filterMap_cons, hcall] at hreqs
      obtain ⟨e, es, rfl, rfl, hes⟩ := List.map_eq_cons_iff.mp hreqs
      have hfilter : ((ev :: log).filter fun ev => ev.call.toFtl.isSome) =
          ev :: log.filter fun ev => ev.call.toFtl.isSome :=
        List.filter_cons_of_pos (by simp [hcall])
      rw [hfilter] at hpayload
      rw [written, List.foldl_cons, show payload i = ev.sent content from hpayload 0 ev rfl,
        FirmEvent.store_eq hcall]
      refine ih (i + 1) _ hes fun j e' he' => ?_
      rw [Nat.add_assoc, Nat.add_comm 1 j]
      exact hpayload (j + 1) e' he'

/-- The data sent to the FTL is the data of the frames that it has taken. -/
private theorem sendTo_eq (content : ℕ → ℤ → β) {log : List (FirmEvent b)}
    (hlog : ∀ ev ∈ log, ev.Complete g) (A : ℤ → Option (Option β)) (x : ℤ) :
    log.foldl (FirmEvent.sendTo content) A x =
      ((fed log x).map fun label => some (content label.2 label.1)).or (A x) := by
  induction log using List.reverseRecOn with
  | nil => rfl
  | append_singleton log ev ih =>
    have ih := ih fun ev hev => hlog ev (List.mem_append_left _ hev)
    have hev := hlog ev (by simp)
    simp only [List.foldl_append, fed_append, List.foldl_cons, List.foldl_nil]
    rw [FirmEvent.sendTo, FirmEvent.feed]
    cases hcall : ev.call with
    | ftlWrite sectorNb length =>
      by_cases hx : Covers sectorNb length x
      · obtain ⟨label, hlabel⟩ := Option.isSome_iff_exists.mp (hev.data _ _ hcall x hx)
        simp only [if_pos hx, FirmEvent.sent, hcall, hlabel]
        rfl
      · simp only [if_neg hx]
        exact ih
    | _ => exact ih

/-! ### The sector array in the NAND -/

variable (g s n) in
/-- The page that the sector `x` is mapped to is programmed and holds `v` for the sector. -/
def SectorHolds (x : ℤ) (v : β) : Prop :=
  s.tables.mappingTable (x / g.sectorsPerPage) ≠ -1 ∧
    ∃ page, n.cell (g.pageOf (s.tables.mappingTable (x / g.sectorsPerPage))) = some page ∧
      page (x % g.sectorsPerPage).toNat = some (some v)

variable (g s n) in
/-- The FTL and the NAND hold the sector array `B`. -/
def Stored (B : ℤ → Option β) : Prop :=
  ∃ σ A, FtlInv g s σ ∧ (∀ l, σ.fetch n.cell l = A l) ∧ ∀ x, sectorOf g A x = (B x).map some

namespace Stored

private theorem ftlInit (hdvd : g.planesPerFlash ∣ g.blockNb) :
    Stored g (ftlInit g) (.blank : Nand (Option β)) fun _ => none :=
  ⟨emptyStore, fun _ => none, ftlInit_inv hdvd, fun _ => rfl, fun _ => rfl⟩

/-- What the FTL and the NAND hold is what can be looked up. -/
private theorem holds_iff (h : Stored g s n B) (x : ℤ) (v : β) :
    SectorHolds g s n x v ↔ B x = some v := by
  obtain ⟨σ, A, hinv, hA, hB⟩ := h
  have hsector : sectorOf g A x = some (some v) ↔ B x = some v := by
    rw [hB]
    simp
  rw [← hsector, sectorOf, ← hA]
  cases hq : σ.map (x / g.sectorsPerPage) with
  | none =>
    have hnone : σ.fetch n.cell (x / g.sectorsPerPage) = none := by
      rw [Store.fetch, hq]
      rfl
    rw [hnone]
    constructor
    · intro hholds
      exact absurd (hinv.tables.unmapped _ hq) hholds.1
    · intro hsome
      cases hsome
  | some q =>
    obtain ⟨hisPage, -, -, hppn, -⟩ := hinv.tables.mapped _ q hq
    have hfetch : σ.fetch n.cell (x / g.sectorsPerPage) = n.cell q := by
      rw [Store.fetch, hq]
      rfl
    rw [SectorHolds, hppn, Geometry.pageOf_ppnOf hisPage, hfetch, Option.bind_eq_some_iff]
    exact and_iff_right (Geometry.ppnOf_ne_neg_one q)

/-- A power cycle keeps the sector array. -/
private theorem powerCycle {files : DataFiles} (h : Stored g s n B)
    (hterm : ftlTerm g s = some files)
    (hinit : ftlInitFrom g files = some s') : Stored g s' n B := by
  obtain ⟨σ, A, hinv, hA, hB⟩ := h
  obtain ⟨files', s'', hterm', hinit', -, hinv'⟩ := hinv.powerCycle
  cases hterm.symm.trans hterm'
  cases hinit.symm.trans hinit'
  exact ⟨σ, A, hinv', hA, hB⟩

end Stored

/-- All writes of a history have succeeded. -/
def WritesOk (hist : List Served) : Prop :=
  ∀ e ∈ hist, ∀ sectorNb length, e.request = .write sectorNb length → e.ret = .success

/-- The FTL serves the calls of the firmware: it then holds, over what it held before, the data of
the frames that it has taken. -/
private theorem Stored.serves {fuel : ℕ} {hist : List Served} (h : Stored g s n B)
    (content : ℕ → ℤ → β) {log : List (FirmEvent b)} (hlog : ∀ ev ∈ log, ev.Complete g)
    (hrun : serveAll g fuel (ftlRequests log) s = some (hist, s')) (hok : WritesOk hist) :
    Stored g s' (nandAfter g (ftlPayload content log) 0 hist n)
      fun x => ((fed log x).map fun label => content label.2 label.1).or (B x) := by
  obtain ⟨σ, A, hinv, hA, hB⟩ := h
  have hreqs : ∀ req ∈ ftlRequests log, req.InRange g := by
    intro req hreq
    obtain ⟨ev, hev, hcall⟩ := List.mem_filterMap.mp hreq
    exact (hlog ev hev).inRange req hcall
  obtain ⟨σ', A', hinv', hA', hsector, -⟩ :=
    serves_store (serveAll_trace hreqs hrun) hinv hok (ftlPayload content log) 0 hA
  refine ⟨σ', A', hinv', hA', fun x => ?_⟩
  have hpayload : ∀ (j : ℕ) (ev : FirmEvent b),
      (log.filter fun ev => ev.call.toFtl.isSome)[j]? = some ev →
        ftlPayload content log (0 + j) = ev.sent content := by
    intro j ev hev
    funext x
    rw [Nat.zero_add, ftlPayload, hev]
    rfl
  rw [hsector, written_eq content log _ 0 _ (serveAll_requests hrun) hpayload,
    sendTo_eq content hlog, hB]
  simp only [Option.map_or, Option.map_map]
  rfl

/-! ### Sessions -/

variable (g newPage) in
/-- `TERM_IO_BUFFER`; the buffers and the queues are then freed. -/
def Device.termIoBuffer (d : Device b) : Except Fault (Device b) :=
  d.flushEventQueueUntil g newPage d.firm.queues.eQueue.tail

/-- What the host does between `FTL_INIT` and `FTL_TERM`: its requests, and the data that the
`SSD_WRITE` number `nb` sends for a sector. -/
structure Session (β : Type) where
  reqs : List Request
  content : ℕ → ℤ → β

namespace Session

/-- The sector array as the host knows it after `k` requests, if it was `B` before the session. -/
def view (S : Session β) (B : ℤ → Option β) (k : ℕ) (x : ℤ) : Option β :=
  ((lastStamp (ssdWrites (S.reqs.take k)) x).map fun nb => S.content nb x).or (B x)

/-- The requests lie within the device, and the writes fit into the write buffer. -/
def Fits (g : Geometry) (b : BufferConfig) (S : Session β) : Prop :=
  ∀ req ∈ S.reqs, req.InRange g ∧ req.WriteFits b

variable {S : Session β}

private theorem view_length (B : ℤ → Option β) (x : ℤ) : S.view B S.reqs.length x =
    ((lastStamp (ssdWrites S.reqs) x).map fun nb => S.content nb x).or (B x) := by
  rw [view, List.take_length]

variable (g S) in
/-- What the firmware has done for the FTL when it has flushed its queue at the end of a session. -/
structure Flushed (d' : Device b) : Prop where
  fed : Fed g d'
  store : d'.firm.store = lastStamp (ssdWrites S.reqs)
  reads : ∀ ev ∈ d'.log, ∀ requestNb sectorNb length,
    ev.call = .ftlRead requestNb sectorNb length →
      S.reqs[requestNb]? = some (.read sectorNb length) ∧
        ∀ x, Covers sectorNb length x →
          ev.firm.store x = lastStamp (ssdWrites (S.reqs.take requestNb)) x

/-- The firmware gets through every session. -/
private theorem exists_flushed (hnew : ∀ n, newPage n = .success) (hfits : S.Fits g b) :
    ∃ d d', (initIoBuffer b).serveAll g newPage S.reqs = .ok d ∧
      d.termIoBuffer g newPage = .ok d' ∧ S.Flushed g d' := by
  obtain ⟨d, rs, ws, cs, hd, h, hfed⟩ := serveAll_fed hnew
    (initIoBuffer_inv g False b) (initIoBuffer_fed g b) S.reqs (fun req hreq => (hfits req hreq).1)
    (fun req hreq => (hfits req hreq).2) fun hfit => hfit.elim
  obtain ⟨d', cs', hd', h', hlog⟩ := h.secureWriteBuffer hnew
  have hcore : FedCore g ([] ++ S.reqs) [] d := ⟨hfed, rs, ws, cs, [], h.core⟩
  refine ⟨d, d', hd, hd', (hcore.flushEventQueueUntil hnew _ d' hd').1, h'.value, ?_⟩
  intro ev hev requestNb sectorNb length hcall
  rcases hlog ev hev with ⟨rs, ws, -, hok⟩ | ⟨-, e, he⟩
  · rw [hcall] at hok
    exact hok
  · rw [hcall] at he
    cases he

end Session

/-- One session of the device, from the tables that `FTL_INIT` sets up to those that the next
`FTL_INIT` reads from the files. The requests fit, the FTL serves the calls of the firmware, all
writes with success, and the NAND keeps its contents. -/
inductive PowerOn (g : Geometry) (b : BufferConfig) (newPage : ℕ → Ret) :
    Ftl × Nand (Option β) → Session β → Ftl × Nand (Option β) → Prop
  | session {S : Session β} {d d' : Device b} {s s₁ s' : Ftl} {n : Nand (Option β)} {fuel : ℕ}
      {hist : List Served} {files : DataFiles}
      (hfits : S.Fits g b) (hserve : (initIoBuffer b).serveAll g newPage S.reqs = .ok d)
      (hflush : d.termIoBuffer g newPage = .ok d')
      (hftl : serveAll g fuel (ftlRequests d'.log) s = some (hist, s₁)) (hok : WritesOk hist)
      (hterm : ftlTerm g s₁ = some files) (hinit : ftlInitFrom g files = some s') :
      PowerOn g b newPage (s, n) S (s', nandAfter g (ftlPayload S.content d'.log) 0 hist n)

instance : DecidablePred WritesOk := fun hist =>
  decidable_of_iff (∀ e ∈ hist, e.request.asWrite.isSome → e.ret = .success) <| by
    refine forall₂_congr fun e _ => ?_
    cases e.request <;> simp [Request.asWrite]

instance (S : Session β) : Decidable (S.Fits g b) :=
  inferInstanceAs (Decidable (∀ req ∈ S.reqs, req.InRange g ∧ req.WriteFits b))

/-- Execute a session, with bounded fuel for the FTL. -/
def powerOn (g : Geometry) (b : BufferConfig) (newPage : ℕ → Ret) (fuel : ℕ)
    (x : Ftl × Nand (Option β)) (S : Session β) : Option (Ftl × Nand (Option β)) := do
  let d ← ((initIoBuffer b).serveAll g newPage S.reqs).toOption
  let d' ← (d.termIoBuffer g newPage).toOption
  let (hist, s₁) ← serveAll g fuel (ftlRequests d'.log) x.1
  if WritesOk hist then do
    let files ← ftlTerm g s₁
    let s' ← ftlInitFrom g files
    some (s', nandAfter g (ftlPayload S.content d'.log) 0 hist x.2)
  else none

private theorem eq_ok_of_toOption {α : Type} {x : Except Fault α} {a : α}
    (h : x.toOption = some a) : x = .ok a := by
  cases x with
  | error e => cases h
  | ok a' =>
    cases h
    rfl

/-- Executions are sessions. -/
private theorem powerOn_spec {fuel : ℕ} {S : Session β} {x y : Ftl × Nand (Option β)}
    (hfits : S.Fits g b) (hrun : powerOn g b newPage fuel x S = some y) :
    PowerOn g b newPage x S y := by
  simp only [powerOn, Option.bind_eq_bind, Option.bind_eq_some_iff] at hrun
  obtain ⟨d, hserve, d', hflush, ⟨hist, s₁⟩, hftl, hrun⟩ := hrun
  split at hrun
  · next hok =>
    simp only [Option.bind_eq_some_iff] at hrun
    obtain ⟨files, hterm, s', hinit, hrun⟩ := hrun
    cases hrun
    exact .session hfits (eq_ok_of_toOption hserve) (eq_ok_of_toOption hflush) hftl hok hterm hinit
  · cases hrun

/-- What executions show of the final state holds of a run of sessions. -/
private theorem exists_sessions (g : Geometry) (b : BufferConfig) (newPage : ℕ → Ret) (fuel : ℕ)
    (sessions : List (Session β)) (x : Ftl × Nand (Option β)) (P : Ftl × Nand (Option β) → Bool)
    (hfits : ∀ S ∈ sessions, S.Fits g b)
    (hP : (sessions.foldlM (powerOn g b newPage fuel) x).any P = true) :
    ∃ s n, Trace (PowerOn g b newPage) x sessions (s, n) ∧ P (s, n) = true := by
  induction sessions generalizing x with
  | nil => exact ⟨x.1, x.2, .nil x, hP⟩
  | cons S sessions ih =>
    obtain ⟨⟨s, n⟩, hrun, hPsn⟩ := (Option.any_eq_true _ _).mp hP
    rw [List.foldlM_cons, Option.bind_eq_bind, Option.bind_eq_some_iff] at hrun
    obtain ⟨y, hon, hrest⟩ := hrun
    obtain ⟨s, n, htrace, hPsn⟩ := ih y (fun S hS => hfits S (List.mem_cons_of_mem _ hS))
      (by rw [hrest]; exact hPsn)
    exact ⟨s, n, .cons (powerOn_spec (hfits S (by simp)) hon) htrace, hPsn⟩

/-- The sector array as the host knows it after some sessions. -/
def hostView (sessions : List (Session β)) : ℤ → Option β :=
  sessions.foldl (fun B S => S.view B S.reqs.length) fun _ => none

/-- One session moves the sector array of the device as the host expects. -/
private theorem PowerOn.stored {S : Session β} {s s' : Ftl × Nand (Option β)}
    (hnew : ∀ n, newPage n = .success) (h : Stored g s.1 s.2 B)
    (hon : PowerOn g b newPage s S s') : Stored g s'.1 s'.2 (S.view B S.reqs.length) := by
  cases hon with
  | @session _ d d' s s₁ s' n fuel hist files hfits hserve hflush hftl hok hterm hinit =>
    obtain ⟨d₀, d₀', hserve₀, hflush₀, hfirm⟩ := S.exists_flushed hnew hfits
    cases hserve.symm.trans hserve₀
    cases hflush.symm.trans hflush₀
    have hstored := (h.serves S.content hfirm.fed.calls hftl hok).powerCycle hterm hinit
    have hview : S.view B S.reqs.length = fun x =>
        ((fed d'.log x).map fun label => S.content label.2 label.1).or (B x) := by
      funext x
      rw [Session.view_length, hfirm.fed.store, hfirm.store, asLabels, Option.map_map]
      rfl
    rw [hview]
    exact hstored

/-- Any number of sessions. -/
private theorem sessions_stored (hdvd : g.planesPerFlash ∣ g.blockNb)
    (hnew : ∀ n, newPage n = .success) {sessions : List (Session β)}
    (hrun : Trace (PowerOn g b newPage) (ftlInit g, .blank) sessions (s, n)) :
    Stored g s n (hostView sessions) := by
  refine hrun.foldl (R := fun x B => Stored g x.1 x.2 B) ?_ (Stored.ftlInit hdvd)
  intro x S y B hB hon
  exact hon.stored hnew hB

/-- **Durability.** After any number of sessions, each ended by `FTL_TERM` and followed by
`FTL_INIT`, the page that a sector is mapped to holds the data that the host has last written to the
sector, and a sector that it has never written holds no data. -/
theorem sessions_durable (hdvd : g.planesPerFlash ∣ g.blockNb)
    (hnew : ∀ n, newPage n = .success) {sessions : List (Session β)}
    (hrun : Trace (PowerOn g b newPage) (ftlInit g, .blank) sessions (s, n)) (x : ℤ) (v : β) :
    SectorHolds g s n x v ↔ hostView sessions x = some v :=
  (sessions_stored hdvd hnew hrun).holds_iff x v

/-- Writes that are merged, and a read that the write buffer serves. -/
def firstSession : Session ℕ where
  reqs := [.write 0 4, .write 2 4, .write 6 1, .read 1 2]
  content nb _ := 10 + nb

/-- A write over data of the first session, and a read of new and old data. -/
def secondSession : Session ℕ where
  reqs := [.write 1 2, .read 0 4]
  content nb _ := 20 + nb

/-- The two sessions: the sector 2 was overwritten in the second one, the sector 3 was not. -/
theorem sessions_durable_two : ∃ s n,
    Trace (PowerOn smallDevice smallBuffers fun _ => .success) (ftlInit smallDevice, .blank)
      [firstSession, secondSession] (s, n) ∧
    SectorHolds smallDevice s n 2 20 ∧ SectorHolds smallDevice s n 3 11 := by
  obtain ⟨s, n, hrun, -⟩ := exists_sessions smallDevice smallBuffers (fun _ => .success) 30
    [firstSession, secondSession] (ftlInit smallDevice, .blank) (fun _ => true) (by decide)
    (by decide +kernel)
  have hdurable := sessions_durable (by decide) (fun _ => rfl) hrun
  exact ⟨s, n, hrun, (hdurable 2 20).mpr (by decide), (hdurable 3 11).mpr (by decide)⟩

/-- **Reads.** In a session of a device that has been through any number of sessions, each call of
`FTL_READ` is for a read of the host. When it is made, the FTL holds for each sector of the read the
data that the host had last written when it asked, and the read succeeds if there is such data for
each of them. -/
theorem session_ftlRead (hdvd : g.planesPerFlash ∣ g.blockNb) (hnew : ∀ n, newPage n = .success)
    {sessions : List (Session β)}
    (hrun : Trace (PowerOn g b newPage) (ftlInit g, .blank) sessions (s, n)) {S : Session β}
    (hfits : S.Fits g b) (hserve : (initIoBuffer b).serveAll g newPage S.reqs = .ok d)
    (hflush : d.termIoBuffer g newPage = .ok d') {i requestNb length : ℕ} {sectorNb : ℤ}
    {ev : FirmEvent b} (hev : d'.log[i]? = some ev)
    (hcall : ev.call = .ftlRead requestNb sectorNb length) {fuel : ℕ} {hist : List Served}
    (hftl : serveAll g fuel (ftlRequests (d'.log.take i)) s = some (hist, s'))
    (hok : WritesOk hist) :
    S.reqs[requestNb]? = some (.read sectorNb length) ∧
    (∀ x, Covers sectorNb length x → ∀ v,
      SectorHolds g s' (nandAfter g (ftlPayload S.content (d'.log.take i)) 0 hist n) x v ↔
        S.view (hostView sessions) requestNb x = some v) ∧
    ((∀ x, Covers sectorNb length x → (S.view (hostView sessions) requestNb x).isSome) →
      (ftlRead g sectorNb length s').1 = .success) := by
  obtain ⟨d₀, d₀', hserve₀, hflush₀, hflushed⟩ := S.exists_flushed hnew hfits
  cases hserve.symm.trans hserve₀
  cases hflush.symm.trans hflush₀
  have hmem := List.mem_of_getElem? hev
  obtain ⟨hreq, hstore⟩ := hflushed.reads ev hmem _ _ _ hcall
  have hstored := (sessions_stored hdvd hnew hrun).serves S.content
    (fun ev hev => hflushed.fed.calls ev (List.mem_of_mem_take hev)) hftl hok
  have hholds : ∀ x, Covers sectorNb length x → ∀ v,
      SectorHolds g s' (nandAfter g (ftlPayload S.content (d'.log.take i)) 0 hist n) x v ↔
        S.view (hostView sessions) requestNb x = some v := by
    intro x hx v
    rw [hstored.holds_iff, hflushed.fed.reads i ev hev _ _ _ hcall, asLabels, hstore x hx,
      Option.map_map]
    rfl
  refine ⟨hreq, hholds, fun hall => ?_⟩
  -- every logical page of the read has a sector of the read, and that sector is held
  have hrange : InRange g sectorNb length :=
    (hflushed.fed.calls ev hmem).inRange (.read sectorNb length) (by rw [hcall]; rfl)
  rw [ftlRead_success_iff hrange]
  intro w hw
  obtain ⟨x, h₁, h₂, hx⟩ :=
    (mem_pieces_iff length 0 (fun _ => Cursor.Ok.start hrange) le_rfl w.1).mp ⟨w, hw, rfl⟩
  obtain ⟨v, hv⟩ := Option.isSome_iff_exists.mp (hall x ⟨h₁, h₂⟩)
  rw [← hx]
  exact ((hholds x ⟨h₁, h₂⟩ v).mpr hv).1

/-- The call is this `FTL_READ`. -/
def FirmCall.isFtlRead (requestNb : ℕ) (sectorNb : ℤ) (length : ℕ) : FirmCall b → Bool
  | .ftlRead requestNb' sectorNb' length' =>
    requestNb' == requestNb && sectorNb' == sectorNb && length' == length
  | _ => false

private theorem FirmCall.isFtlRead_iff {requestNb length : ℕ} {sectorNb : ℤ} {call : FirmCall b} :
    call.isFtlRead requestNb sectorNb length = true ↔
      call = .ftlRead requestNb sectorNb length := by
  cases call <;> simp [isFtlRead, and_assoc]

/-- The read of the second session: the sector 1 has just been overwritten, the sector 3 holds data
of the first session. -/
theorem session_ftlRead_second : ∃ s n hist s', ∃ log : List (FirmEvent smallBuffers),
    Trace (PowerOn smallDevice smallBuffers fun _ => .success) (ftlInit smallDevice, .blank)
      [firstSession] (s, n) ∧
    serveAll smallDevice 30 (ftlRequests log) s = some (hist, s') ∧
    SectorHolds smallDevice s'
      (nandAfter smallDevice (ftlPayload secondSession.content log) 0 hist n) 1 20 ∧
    SectorHolds smallDevice s'
      (nandAfter smallDevice (ftlPayload secondSession.content log) 0 hist n) 3 11 ∧
    (ftlRead smallDevice 0 4 s').1 = .success := by
  obtain ⟨d, hd, hdP⟩ := exists_ok (x := (initIoBuffer smallBuffers).serveAll smallDevice
    (fun _ => .success) secondSession.reqs) (fun d =>
      (d.termIoBuffer smallDevice fun _ => .success).toOption.any fun d' =>
        (d'.log[6]?.any fun ev => ev.call.isFtlRead 1 0 4) &&
        ((powerOn smallDevice smallBuffers (fun _ => .success) 30 (ftlInit smallDevice, .blank)
          firstSession).any fun x =>
            (serveAll smallDevice 30 (ftlRequests (d'.log.take 6)) x.1).any fun y =>
              decide (WritesOk y.1)))
    (by decide +kernel)
  obtain ⟨d', hd', hP⟩ := exists_ok _ hdP
  obtain ⟨hev, hx⟩ := Bool.and_eq_true_iff.mp hP
  obtain ⟨ev, hev, hcall⟩ := (Option.any_eq_true _ _).mp hev
  obtain ⟨⟨s, n⟩, hon, hy⟩ := (Option.any_eq_true _ _).mp hx
  obtain ⟨⟨hist, s'⟩, hftl, hok⟩ := (Option.any_eq_true _ _).mp hy
  have hrun := Trace.single (powerOn_spec (by decide) hon)
  obtain ⟨-, hholds, hread⟩ := session_ftlRead (by decide) (fun _ => rfl) hrun (by decide) hd hd'
    hev (FirmCall.isFtlRead_iff.mp hcall) hftl (of_decide_eq_true hok)
  refine ⟨s, n, hist, s', d'.log.take 6, hrun, hftl, (hholds 1 (by decide) 20).mpr (by decide),
    (hholds 3 (by decide) 11).mpr (by decide), hread fun x hx => ?_⟩
  obtain ⟨h₁, h₂⟩ := hx
  have hcases : x = 0 ∨ x = 1 ∨ x = 2 ∨ x = 3 := by omega
  rcases hcases with rfl | rfl | rfl | rfl <;> decide

end Vssim
